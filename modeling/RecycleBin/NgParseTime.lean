import RecycleBin.NgParse

/-! `ParseTime` of `core/parse.go`. The cursor moves in the head of its loop and in the
body, so that only some of the characters are read; what the result is, is a matter of
those. -/
namespace RecycleBin
namespace NgParse
open GurlCal (Bytes Literal decimal decimalFrom isDigit)

def MAX_INT_T_VALUE : ℕ := 9223372036854775807

/-- `mytime`. -/
inductive MyTime
  | start | year | month | week | day | hour | min | sec | msec | last
  deriving DecidableEq

/-- The value of the constant. -/
def MyTime.iota : MyTime → ℕ
  | start => 0
  | year => 1
  | month => 2
  | week => 3
  | day => 4
  | hour => 5
  | min => 6
  | sec => 7
  | msec => 8
  | last => 9

/-- A case of the switch: an error, or the new step with `max` and `scale`. -/
def enter (refused : Bool) (step : MyTime) (scale : ℕ) : Option (MyTime × ℕ × ℕ) :=
  if refused then none else some (step,MAX_INT_T_VALUE/scale,scale)

/-- The switch on `ch`, with the line from the cursor on. -/
def timeUnit (isSec : Bool) (step : MyTime) (ch : UInt8) (p : Bytes) :
    Option ((MyTime × ℕ × ℕ) × Bytes) :=
  if ch = 121 then (enter (step.iota > MyTime.start.iota) .year (60*60*24*365)).map (·,p)
  else if ch = 77 then (enter (step.iota ≥ MyTime.month.iota) .month (60*60*24*30)).map (·,p)
  else if ch = 119 then (enter (step.iota ≥ MyTime.week.iota) .week (60*60*24*7)).map (·,p)
  else if ch = 100 then (enter (step.iota ≥ MyTime.day.iota) .day (60*60*24)).map (·,p)
  else if ch = 104 then (enter (step.iota ≥ MyTime.hour.iota) .hour (60*60)).map (·,p)
  else if ch = 109 then do
    let (step,p) ←
      -- `ch` is still the `m`
      if p ≠ [] ∧ ch = 115 then
        if isSec ∨ step.iota ≥ MyTime.msec.iota then none else some (.msec,p.drop 1)
      else some (step,p)
    (enter (step.iota ≥ MyTime.min.iota) .min 60).map (·,p)
  else if ch = 115 then (enter (step.iota ≥ MyTime.sec.iota) .sec 1).map (·,p)
  else if ch = 32 then (enter (step.iota ≥ MyTime.sec.iota) .last 1).map (·,p)
  else none

/-- The variables the loop keeps. -/
structure TimeState where
  valid : Bool
  value : ℕ
  total : ℕ
  step : MyTime

def cutoff : ℕ := MAX_INT_T_VALUE/10

def cutlim : ℕ := MAX_INT_T_VALUE%10

/-- The branch for a digit. -/
def digitStep (ch : UInt8) (st : TimeState) : Option TimeState :=
  let d := ch.toNat-48
  if st.value ≥ cutoff ∧ (st.value > cutoff ∨ d > cutlim) then none
  else some { st with value := st.value*10+d,valid := true }

/-- What follows the switch: the item is added to the total. -/
def addItem (isSec : Bool) (st : TimeState) (step : MyTime) (max scale : ℕ) : Option TimeState :=
  let scale := if step ≠ .msec ∧ !isSec then scale*1000 else scale
  let max := if step ≠ .msec ∧ !isSec then max/1000 else max
  if st.value > max then none
  else
    let value := st.value*scale
    if st.total > MAX_INT_T_VALUE-value then none
    else some { st with total := st.total+value,value := 0,step := step }

/-- The loop; `p` is the line from the cursor on, which moves in every pass. None is
`return ERROR`. -/
def timeLoop (isSec : Bool) : ℕ → Bytes → TimeState → Option TimeState
  | 0, _, _ => none
  | fuel+1, p, st =>
    match p with
    | [] => some st
    | ch::p =>
      if isDigit ch then do
        let st ← digitStep ch st
        timeLoop isSec fuel (p.drop 1) st
      else do
        let ((step,max,scale),p) ← timeUnit isSec st.step ch p
        let st ← addItem isSec st step max scale
        timeLoop isSec fuel ((p.dropWhile (· = 32)).drop 1) st

/-- What follows the loop. -/
def timeFinish (isSec : Bool) (st : TimeState) : ℤ :=
  if !st.valid then ERROR
  else if !isSec ∧ st.value > MAX_INT_T_VALUE/1000 then ERROR
  else
    let value := if isSec then st.value else st.value*1000
    if st.total > MAX_INT_T_VALUE-value then ERROR else st.total+value

/-- `ParseTime`. -/
def parseTime (line : Bytes) (isSec : Bool) : ℤ :=
  let step := if isSec then MyTime.start else .month
  match timeLoop isSec (line.length+1) line ⟨false,0,0,step⟩ with
  | none => ERROR
  | some st => timeFinish isSec st

/-! ### Times -/

inductive TimeUnit
  | year | month | week | day | hour | min | sec | msec
  deriving DecidableEq

namespace TimeUnit

/-- The order of the units, the largest first. -/
def rank : TimeUnit → ℕ
  | year => 1
  | month => 2
  | week => 3
  | day => 4
  | hour => 5
  | min => 6
  | sec => 7
  | msec => 8

def text : TimeUnit → Bytes
  | year => [121]
  | month => [77]
  | week => [119]
  | day => [100]
  | hour => [104]
  | min => [109]
  | sec => [115]
  | msec => [109,115]

/-- The unit in milliseconds. -/
def millis : TimeUnit → ℕ
  | year => 31536000000
  | month => 2592000000
  | week => 604800000
  | day => 86400000
  | hour => 3600000
  | min => 60000
  | sec => 1000
  | msec => 1

/-- The unit in the unit of the result. -/
def amount (isSec : Bool) (u : TimeUnit) : ℕ := if isSec then u.millis/1000 else u.millis

end TimeUnit

/-- The line is a list of numbers with units below the rank `r` in descending order, with
blanks between them and at the end perhaps a bare number of seconds; its sum is `n`. -/
inductive Written (isSec : Bool) : ℕ → Bytes → ℕ → Prop
  | bare {r : ℕ} (a : Literal) :
      Written isSec r a.digits (decimal a.digits*TimeUnit.sec.amount isSec)
  | last {r : ℕ} (a : Literal) (u : TimeUnit) (hr : r < u.rank) (hu : isSec = true → u ≠ .msec) :
      Written isSec r (a.digits++u.text) (decimal a.digits*u.amount isSec)
  | cons {r : ℕ} (a : Literal) (u : TimeUnit) (blanks : ℕ) {s : Bytes} {n : ℕ} (hr : r < u.rank)
      (hu : isSec = true → u ≠ .msec) (hs : Written isSec u.rank s n) :
      Written isSec r (a.digits++(u.text++(List.replicate blanks 32++s)))
        (decimal a.digits*u.amount isSec+n)

/-- The sum the line is written for, or `ERROR` if it is not, or the sum overflows. -/
def ReadsTime (isSec : Bool) (line : Bytes) : Prop :=
  (∀ n ≤ MAX_INT_T_VALUE, Written isSec 0 line n → parseTime line isSec = n) ∧
    ((∀ n ≤ MAX_INT_T_VALUE, ¬Written isSec 0 line n) → parseTime line isSec = ERROR)

/-! ### The characters that are read -/

/-- What the cursor does with the next character. -/
inductive Cursor
  | read | skip | blanks

/-- The first character, then the second after a digit, and after any other character the
second behind the blanks that follow it. -/
def visited : Cursor → Bytes → Bytes
  | _, [] => []
  | .read, c::s => c::visited (if isDigit c then .skip else .blanks) s
  | .skip, _::s => visited .read s
  | .blanks, c::s => if c = 32 then visited .blanks s else visited .read s

/-- The units of the switch; a blank counts as seconds. -/
def charUnit (c : UInt8) : Option TimeUnit :=
  if c = 121 then some .year
  else if c = 77 then some .month
  else if c = 119 then some .week
  else if c = 100 then some .day
  else if c = 104 then some .hour
  else if c = 109 then some .min
  else if c = 115 ∨ c = 32 then some .sec
  else none

/-- Numbers, each of any digits or none, with units below the rank `r` in descending order
and one without a unit at the end; their sum is `n`. -/
inductive Sums (isSec : Bool) : ℕ → Bytes → ℕ → Prop
  | bare {r : ℕ} {ds : Bytes} (hd : ∀ b ∈ ds, isDigit b = true) :
      Sums isSec r ds (decimal ds*TimeUnit.sec.amount isSec)
  | cons {r : ℕ} {ds : Bytes} {c : UInt8} {u : TimeUnit} {s : Bytes} {n : ℕ}
      (hd : ∀ b ∈ ds, isDigit b = true) (hc : charUnit c = some u) (hr : r < u.rank)
      (hs : Sums isSec u.rank s n) :
      Sums isSec r (ds++c::s) (decimal ds*u.amount isSec+n)

/-- The rank above the first unit: in milliseconds there are no years and no months. -/
def startRank (isSec : Bool) : ℕ := if isSec then 0 else TimeUnit.month.rank

/-- The characters that are read contain a digit and sum up to `n`. -/
def VisitedSum (isSec : Bool) (line : Bytes) (n : ℕ) : Prop :=
  (∃ b ∈ visited .read line, isDigit b = true) ∧
    Sums isSec (startRank isSec) (visited .read line) n

/-! ### The loop on the characters that are read -/

theorem visited_skip (p : Bytes) : visited .skip p = visited .read (p.drop 1) := by
  rcases p with _ | ⟨c,p⟩ <;> rfl

theorem visited_blanks (p : Bytes) :
    visited .blanks p = visited .read ((p.dropWhile (· = 32)).drop 1) := by
  induction p with
  | nil => rfl
  | cons c p ih =>
    by_cases hc : c = 32
    · rw [visited,if_pos hc,ih,List.dropWhile_cons_of_pos (by simpa using hc)]
    · rw [visited,if_neg hc,List.dropWhile_cons_of_neg (by simpa using hc)]
      rfl

/-- The step of the code for a unit; behind a blank it is the last one. -/
def TimeUnit.step (c : UInt8) : TimeUnit → MyTime
  | year => .year
  | month => .month
  | week => .week
  | day => .day
  | hour => .hour
  | min => .min
  | sec => if c = 32 then .last else .sec
  | msec => .msec

/-- The switch accepts a unit of a higher rank than the step has. -/
theorem timeUnit_eq (isSec : Bool) (step : MyTime) (c : UInt8) (p : Bytes) :
    timeUnit isSec step c p = (charUnit c).bind fun u =>
      if step.iota < u.rank then
        some ((u.step c,MAX_INT_T_VALUE/(u.amount true),u.amount true),p)
      else none := by
  unfold timeUnit charUnit
  have henter : ∀ (refused : Bool) (b : MyTime) (k : ℕ) (u : TimeUnit), u.step c = b →
      u.amount true = k → (refused = true ↔ ¬step.iota < u.rank) →
      (enter refused b k).map (·,p) =
        if step.iota < u.rank then
          some ((u.step c,MAX_INT_T_VALUE/(u.amount true),u.amount true),p)
        else none := by
    intro refused b k u hb hk hr
    rw [enter,hb,hk]
    by_cases hlt : step.iota < u.rank
    · rw [if_neg fun h => hr.mp h hlt,if_pos hlt]
      rfl
    · rw [if_pos (hr.mpr hlt),if_neg hlt]
      rfl
  by_cases h₁ : c = 121
  · rw [if_pos h₁,if_pos h₁]
    exact henter _ _ _ .year rfl rfl (decide_eq_true_iff.trans Nat.not_lt.symm)
  rw [if_neg h₁,if_neg h₁]
  by_cases h₂ : c = 77
  · rw [if_pos h₂,if_pos h₂]
    exact henter _ _ _ .month rfl rfl (decide_eq_true_iff.trans Nat.not_lt.symm)
  rw [if_neg h₂,if_neg h₂]
  by_cases h₃ : c = 119
  · rw [if_pos h₃,if_pos h₃]
    exact henter _ _ _ .week rfl rfl (decide_eq_true_iff.trans Nat.not_lt.symm)
  rw [if_neg h₃,if_neg h₃]
  by_cases h₄ : c = 100
  · rw [if_pos h₄,if_pos h₄]
    exact henter _ _ _ .day rfl rfl (decide_eq_true_iff.trans Nat.not_lt.symm)
  rw [if_neg h₄,if_neg h₄]
  by_cases h₅ : c = 104
  · rw [if_pos h₅,if_pos h₅]
    exact henter _ _ _ .hour rfl rfl (decide_eq_true_iff.trans Nat.not_lt.symm)
  rw [if_neg h₅,if_neg h₅]
  by_cases h₆ : c = 109
  · -- the look-ahead for `ms` compares the `m` itself
    have hms : ¬(p ≠ [] ∧ c = 115) := by
      rintro ⟨-,h⟩
      rw [h₆] at h
      cases h
    rw [if_pos h₆,if_pos h₆,if_neg hms]
    exact henter _ _ _ .min rfl rfl (decide_eq_true_iff.trans Nat.not_lt.symm)
  rw [if_neg h₆,if_neg h₆]
  by_cases h₇ : c = 115
  · rw [if_pos h₇,if_pos (.inl h₇)]
    exact henter _ _ _ .sec (by rw [h₇]; rfl) rfl (decide_eq_true_iff.trans Nat.not_lt.symm)
  by_cases h₈ : c = 32
  · rw [if_neg h₇,if_pos h₈,if_pos (.inr h₈)]
    exact henter _ _ _ .sec (by rw [h₈]; rfl) rfl (decide_eq_true_iff.trans Nat.not_lt.symm)
  · rw [if_neg h₇,if_neg h₈,if_neg (by tauto)]
    rfl

/-- The loop body on one of the characters that are read. -/
def charStep (isSec : Bool) (c : UInt8) (st : TimeState) : Option TimeState :=
  if isDigit c then digitStep c st
  else
    (charUnit c).bind fun u =>
      if st.step.iota < u.rank then
        addItem isSec st (u.step c) (MAX_INT_T_VALUE/u.amount true) (u.amount true)
      else none

def scan (isSec : Bool) : Bytes → TimeState → Option TimeState
  | [], st => some st
  | c::s, st => do
    let st ← charStep isSec c st
    scan isSec s st

theorem timeLoop_eq (isSec : Bool) {fuel : ℕ} {p : Bytes} (hf : p.length < fuel) (st : TimeState) :
    timeLoop isSec fuel p st = scan isSec (visited .read p) st := by
  induction fuel generalizing p st with
  | zero => omega
  | succ fuel ih =>
    rcases p with _ | ⟨c,p⟩
    · rfl
    rw [List.length_cons] at hf
    have hdrop : ∀ q : Bytes, q.length ≤ p.length → (q.drop 1).length < fuel := by
      intro q hq
      rw [List.length_drop]
      omega
    by_cases hc : isDigit c = true
    · simp only [timeLoop,visited,scan,charStep,hc,if_true]
      refine bind_congr fun st' => ?_
      rw [visited_skip]
      exact ih (hdrop p le_rfl) st'
    · simp only [timeLoop,visited,scan,charStep,hc,timeUnit_eq]
      rcases charUnit c with _ | u
      · rfl
      by_cases hr : st.step.iota < u.rank
      · have hnext : ∀ st', timeLoop isSec fuel ((p.dropWhile (· = 32)).drop 1) st' =
            scan isSec (visited .blanks p) st' := by
          intro st'
          rw [visited_blanks]
          exact ih (hdrop _ ((List.dropWhile_sublist _).length_le)) st'
        simp only [Bool.false_eq_true,if_false,Option.bind_some,if_pos hr,Option.bind_eq_bind,hnext]
      · simp only [Option.bind_some,if_neg hr]
        rfl

/-! ### The sum of these characters -/

theorem charUnit_ne_msec {c : UInt8} {u : TimeUnit} (h : charUnit c = some u) : u ≠ .msec := by
  rintro rfl
  unfold charUnit at h
  split_ifs at h <;> cases h

theorem charUnit_not_digit {c : UInt8} {u : TimeUnit} (h : charUnit c = some u) :
    ¬isDigit c = true := by
  intro hd
  have hno : charUnit c = none := by
    simp only [isDigit,Bool.and_eq_true,decide_eq_true_eq] at hd
    have hne : ∀ b : UInt8, b < 48 ∨ 57 < b → c ≠ b := by
      rintro b hb rfl
      rcases hb with hb | hb
      · exact absurd hd.1 (UInt8.not_le.mpr hb)
      · exact absurd hd.2 (UInt8.not_le.mpr hb)
    simp [charUnit,hne 121 (by decide),hne 77 (by decide),hne 119 (by decide),hne 100 (by decide),
      hne 104 (by decide),hne 109 (by decide),hne 115 (by decide),hne 32 (by decide)]
  rw [h] at hno
  cases hno

theorem charUnit_rank_le {c : UInt8} {u : TimeUnit} (h : charUnit c = some u) :
    u.rank ≤ TimeUnit.sec.rank := by
  cases u with
  | msec => exact absurd rfl (charUnit_ne_msec h)
  | _ => decide

theorem TimeUnit.amount_pos {u : TimeUnit} (hu : u ≠ .msec) (isSec : Bool) : 0 < u.amount isSec := by
  cases u with
  | msec => exact absurd rfl hu
  | _ => cases isSec <;> decide

/-- A digit is taken if the number stays in range. -/
theorem digitStep_eq {c : UInt8} (hc : isDigit c = true) (st : TimeState) :
    digitStep c st = if st.value*10+(c.toNat-48) ≤ MAX_INT_T_VALUE then
      some { st with value := st.value*10+(c.toNat-48),valid := true } else none := by
  have hd : c.toNat-48 ≤ 9 := by
    simp only [isDigit,Bool.and_eq_true,decide_eq_true_eq] at hc
    have h57 : c.toNat ≤ 57 := hc.2
    omega
  have hiff : (st.value ≥ cutoff ∧ (st.value > cutoff ∨ c.toNat-48 > cutlim)) ↔
      ¬st.value*10+(c.toNat-48) ≤ MAX_INT_T_VALUE := by
    simp only [cutoff,cutlim,MAX_INT_T_VALUE]
    omega
  rw [digitStep]
  by_cases hle : st.value*10+(c.toNat-48) ≤ MAX_INT_T_VALUE
  · rw [if_neg fun h => hiff.mp h hle,if_pos hle]
  · rw [if_pos (hiff.mpr hle),if_neg hle]

/-- An item is added if the total stays in range. -/
theorem addItem_eq (isSec : Bool) {st : TimeState} {u : TimeUnit} (c : UInt8) (hu : u ≠ .msec) :
    addItem isSec st (u.step c) (MAX_INT_T_VALUE/u.amount true) (u.amount true) =
      if st.total+st.value*u.amount isSec ≤ MAX_INT_T_VALUE then
        some { st with total := st.total+st.value*u.amount isSec,value := 0,step := u.step c }
      else none := by
  have hstep : u.step c ≠ .msec := by
    cases u with
    | msec => exact absurd rfl hu
    | sec =>
      rw [TimeUnit.step]
      split_ifs <;> decide
    | _ => simp [TimeUnit.step]
  have hscale : (if u.step c ≠ .msec ∧ !isSec then u.amount true*1000 else u.amount true) =
      u.amount isSec := by
    cases u with
    | msec => exact absurd rfl hu
    | _ => cases isSec <;> simp [hstep,TimeUnit.amount,TimeUnit.millis]
  have hmax : (if u.step c ≠ .msec ∧ !isSec then MAX_INT_T_VALUE/u.amount true/1000
      else MAX_INT_T_VALUE/u.amount true) = MAX_INT_T_VALUE/u.amount isSec := by
    rw [← hscale]
    split_ifs
    · exact Nat.div_div_eq_div_mul _ _ _
    · rfl
  have hle := Nat.le_div_iff_mul_le (x:=st.value) (y:=MAX_INT_T_VALUE) (TimeUnit.amount_pos hu isSec)
  simp only [addItem,hscale,hmax]
  by_cases hv : st.value ≤ MAX_INT_T_VALUE/u.amount isSec
  · have hm := hle.mp hv
    rw [if_neg (by omega)]
    by_cases ht : st.total+st.value*u.amount isSec ≤ MAX_INT_T_VALUE
    · rw [if_neg (by omega),if_pos ht]
    · rw [if_pos (by omega),if_neg ht]
  · have hm : ¬st.value*u.amount isSec ≤ MAX_INT_T_VALUE := fun h => hv (hle.mpr h)
    rw [if_pos (by omega),if_neg (by omega)]

/-- The sum of the characters behind a number `v`, whatever its size. -/
def sumFrom (isSec : Bool) : ℕ → ℕ → Bytes → Option ℕ
  | _, v, [] => some (v*TimeUnit.sec.amount isSec)
  | r, v, c::s =>
    if isDigit c then sumFrom isSec r (v*10+(c.toNat-48)) s
    else
      (charUnit c).bind fun u =>
        if r < u.rank then (sumFrom isSec u.rank 0 s).map (v*u.amount isSec + ·) else none

theorem le_sumFrom {isSec : Bool} {r v n : ℕ} {s : Bytes} (h : sumFrom isSec r v s = some n) :
    v ≤ n := by
  induction s generalizing r v n with
  | nil =>
    cases h
    exact Nat.le_mul_of_pos_right _ (TimeUnit.amount_pos (by decide) isSec)
  | cons c s ih =>
    rw [sumFrom] at h
    split_ifs at h
    · have hle := ih h
      omega
    · obtain ⟨u,hu,h⟩ := Option.bind_eq_some_iff.mp h
      split_ifs at h
      obtain ⟨m,-,rfl⟩ := Option.map_eq_some_iff.mp h
      have hle := Nat.le_mul_of_pos_right v (TimeUnit.amount_pos (charUnit_ne_msec hu) isSec)
      omega

/-- Behind a blank no unit is left, as behind the seconds. -/
theorem sumFrom_step (isSec : Bool) {c : UInt8} {u : TimeUnit} (h : charUnit c = some u) (v : ℕ)
    (s : Bytes) : sumFrom isSec (u.step c).iota v s = sumFrom isSec u.rank v s := by
  have hlast : sumFrom isSec MyTime.last.iota v s = sumFrom isSec TimeUnit.sec.rank v s := by
    induction s generalizing v with
    | nil => rfl
    | cons d s ih =>
      rw [sumFrom,sumFrom,ih]
      split_ifs
      · rfl
      · rcases hd : charUnit d with _ | w
        · rfl
        · have hw := charUnit_rank_le hd
          have h9 : MyTime.last.iota = 9 := rfl
          have h7 : TimeUnit.sec.rank = 7 := rfl
          rw [Option.bind_some,Option.bind_some,if_neg (by omega),if_neg (by omega)]
  cases u with
  | sec =>
    rw [TimeUnit.step]
    split_ifs
    · exact hlast
    · rfl
  | _ => rfl

/-- The result a state leads to on the characters that are left, if there is a digit. -/
def outcome (isSec : Bool) (st : TimeState) (s : Bytes) : Option ℕ :=
  (sumFrom isSec st.step.iota st.value s).bind fun n =>
    if st.total+n ≤ MAX_INT_T_VALUE then some (st.total+n) else none

theorem charStep_outcome (isSec : Bool) (c : UInt8) (s : Bytes) (st : TimeState) :
    ((charStep isSec c st).bind fun st' => outcome isSec st' s) = outcome isSec st (c::s) := by
  rw [charStep,outcome,sumFrom]
  split_ifs with hc
  · rw [digitStep_eq hc]
    split_ifs with hle
    · rfl
    · -- a number out of range makes any sum too large
      rcases hn : sumFrom isSec st.step.iota (st.value*10+(c.toNat-48)) s with _ | n
      · rfl
      · have hlen := le_sumFrom hn
        rw [Option.bind_some,if_neg (by omega)]
        rfl
  · rcases hu : charUnit c with _ | u
    · rfl
    rw [Option.bind_some,Option.bind_some]
    split_ifs with hr
    · rw [addItem_eq isSec c (charUnit_ne_msec hu)]
      split_ifs with hle
      · rw [Option.bind_some,outcome,sumFrom_step isSec hu]
        rcases sumFrom isSec u.rank 0 s with _ | n
        · rfl
        · rw [Option.map_some,Option.bind_some,Option.bind_some,Nat.add_assoc]
      · rcases sumFrom isSec u.rank 0 s with _ | n
        · rfl
        · rw [Option.map_some,Option.bind_some,if_neg (by omega)]
          rfl
    · rfl

theorem scan_outcome (isSec : Bool) (s : Bytes) (st : TimeState) :
    ((scan isSec s st).bind fun st' => outcome isSec st' []) = outcome isSec st s := by
  induction s generalizing st with
  | nil => rfl
  | cons c s ih =>
    rw [scan,← charStep_outcome]
    rcases charStep isSec c st with _ | st'
    · rfl
    · exact ih st'

/-- A digit makes the line valid, and no number runs out of range. -/
theorem charStep_inv {isSec : Bool} {c : UInt8} {st st' : TimeState}
    (h : charStep isSec c st = some st') :
    st'.valid = (st.valid || isDigit c) ∧ st'.value ≤ MAX_INT_T_VALUE := by
  rw [charStep] at h
  split_ifs at h with hc
  · rw [digitStep_eq hc] at h
    split_ifs at h with hle
    cases h
    exact ⟨by rw [hc,Bool.or_true],hle⟩
  · obtain ⟨u,hu,h⟩ := Option.bind_eq_some_iff.mp h
    rw [addItem_eq isSec c (charUnit_ne_msec hu)] at h
    split_ifs at h
    cases h
    exact ⟨by simp [hc],Nat.zero_le _⟩

theorem scan_inv {isSec : Bool} {s : Bytes} {st st' : TimeState} (hst : st.value ≤ MAX_INT_T_VALUE)
    (h : scan isSec s st = some st') :
    st'.valid = (st.valid || s.any isDigit) ∧ st'.value ≤ MAX_INT_T_VALUE := by
  induction s generalizing st with
  | nil =>
    cases h
    exact ⟨by simp,hst⟩
  | cons c s ih =>
    obtain ⟨st₁,h₁,h₂⟩ := Option.bind_eq_some_iff.mp h
    obtain ⟨hvalid,hvalue⟩ := charStep_inv h₁
    obtain ⟨hvalid',hvalue'⟩ := ih hvalue h₂
    exact ⟨by rw [hvalid',hvalid,List.any_cons,Bool.or_assoc],hvalue'⟩

theorem timeFinish_eq (isSec : Bool) {st : TimeState} (hst : st.value ≤ MAX_INT_T_VALUE)
    (hvalid : st.valid = true) :
    timeFinish isSec st = (outcome isSec st []).elim ERROR fun n => (n : ℤ) := by
  have hout : outcome isSec st [] =
      if st.total+st.value*TimeUnit.sec.amount isSec ≤ MAX_INT_T_VALUE then
        some (st.total+st.value*TimeUnit.sec.amount isSec) else none := rfl
  rw [timeFinish,hout,hvalid]
  cases isSec with
  | true =>
    have hsec : TimeUnit.sec.amount true = 1 := rfl
    rw [hsec,Nat.mul_one]
    by_cases hle : st.total+st.value ≤ MAX_INT_T_VALUE
    · simp [hle]
      omega
    · simp [hle]
      omega
  | false =>
    have hsec : TimeUnit.sec.amount false = 1000 := rfl
    rw [hsec]
    simp only [MAX_INT_T_VALUE] at hst ⊢
    by_cases hle : st.total+st.value*1000 ≤ 9223372036854775807
    · simp [hle]
      omega
    · simp [hle]
      omega

/-- `ParseTime` is the sum of the characters it reads, if there is a digit among them and
the sum is in range. -/
theorem parseTime_eq (line : Bytes) (isSec : Bool) :
    parseTime line isSec =
      if (visited .read line).any isDigit then
        ((sumFrom isSec (startRank isSec) 0 (visited .read line)).filter
          (· ≤ MAX_INT_T_VALUE)).elim ERROR fun n => (n : ℤ)
      else ERROR := by
  have hstep : (if isSec then MyTime.start else .month).iota = startRank isSec := by
    cases isSec <;> rfl
  generalize hst : (⟨false,0,0,if isSec then MyTime.start else .month⟩ : TimeState) = st
  have hout : outcome isSec st (visited .read line) =
      (sumFrom isSec (startRank isSec) 0 (visited .read line)).filter (· ≤ MAX_INT_T_VALUE) := by
    rw [← hst,outcome,hstep]
    rcases sumFrom isSec (startRank isSec) 0 (visited .read line) with _ | n
    · rfl
    · simp [Option.filter]
  have hloop : parseTime line isSec =
      (scan isSec (visited .read line) st).elim ERROR (timeFinish isSec) := by
    rw [parseTime,← timeLoop_eq isSec (Nat.lt_succ_self _),hst]
    rcases timeLoop isSec (line.length+1) line st <;> rfl
  rw [hloop,← hout,← scan_outcome]
  rcases hscan : scan isSec (visited .read line) st with _ | st'
  · simp
  · have hzero : st.value = 0 := by rw [← hst]
    have hinv := scan_inv (hzero.le.trans (Nat.zero_le _)) hscan
    have hvalid : st'.valid = (visited .read line).any isDigit := by rw [hinv.1,← hst]; rfl
    by_cases hany : (visited .read line).any isDigit = true
    · rw [if_pos hany]
      exact timeFinish_eq isSec hinv.2 (hvalid.trans hany)
    · rw [if_neg hany,Option.elim_some,timeFinish,if_pos (by simpa [hvalid] using hany)]

theorem sumFrom_digits (isSec : Bool) (r v : ℕ) {ds : Bytes} (hd : ∀ b ∈ ds, isDigit b = true)
    (s : Bytes) : sumFrom isSec r v (ds++s) = sumFrom isSec r (decimalFrom v ds) s := by
  induction ds generalizing v with
  | nil => rfl
  | cons d ds ih =>
    have hs := ih (v*10+(d.toNat-48)) fun b hb => hd b (List.mem_cons_of_mem _ hb)
    rw [List.cons_append,sumFrom,if_pos (hd d List.mem_cons_self),hs]
    rfl

theorem decimalFrom_concat (v : ℕ) (ds : Bytes) (c : UInt8) :
    decimalFrom v (ds++[c]) = decimalFrom v ds*10+(c.toNat-48) := by
  induction ds generalizing v with
  | nil => rfl
  | cons d ds ih => exact ih _

theorem sums_of_sumFrom {isSec : Bool} {r : ℕ} {d s : Bytes} {n : ℕ}
    (hd : ∀ b ∈ d, isDigit b = true) (h : sumFrom isSec r (decimal d) s = some n) :
    Sums isSec r (d++s) n := by
  induction s generalizing r d n with
  | nil =>
    cases h
    rw [List.append_nil]
    exact .bare hd
  | cons c s ih =>
    rw [sumFrom] at h
    split_ifs at h with hc
    · have hd' : ∀ b ∈ d++[c], isDigit b = true := by
        intro b hb
        rcases List.mem_append.mp hb with hb | hb
        · exact hd b hb
        · rwa [List.mem_singleton.mp hb]
      have hs := ih (d:=d++[c]) hd' (by rw [decimal,decimalFrom_concat]; exact h)
      rwa [List.append_assoc] at hs
    · obtain ⟨u,hu,h⟩ := Option.bind_eq_some_iff.mp h
      split_ifs at h with hr
      obtain ⟨m,hm,rfl⟩ := Option.map_eq_some_iff.mp h
      exact .cons hd hu hr (ih (d:=[]) (by simp) hm)

theorem sumFrom_iff {isSec : Bool} {r n : ℕ} {s : Bytes} :
    sumFrom isSec r 0 s = some n ↔ Sums isSec r s n := by
  constructor
  · intro h
    exact sums_of_sumFrom (d:=[]) (by simp) h
  · intro h
    induction h with
    | @bare r ds hd =>
      have hs := sumFrom_digits isSec r 0 hd []
      rwa [List.append_nil] at hs
    | @cons r ds c u s n hd hc hr hs ih =>
      have hne := charUnit_not_digit hc
      rw [sumFrom_digits isSec r 0 hd,sumFrom,if_neg hne,hc,Option.bind_some,if_pos hr,ih]
      rfl

theorem parseTime_eq_natCast {line : Bytes} {isSec : Bool} {n : ℕ} :
    parseTime line isSec = n ↔ VisitedSum isSec line n ∧ n ≤ MAX_INT_T_VALUE := by
  have hneg : ERROR ≠ (n : ℤ) := by
    rw [ERROR]
    omega
  rw [parseTime_eq,VisitedSum,← sumFrom_iff,← List.any_eq_true]
  by_cases hany : (visited .read line).any isDigit = true
  · rw [if_pos hany]
    rcases hsum : sumFrom isSec (startRank isSec) 0 (visited .read line) with _ | m
    · simp [hneg]
    · by_cases hm : m ≤ MAX_INT_T_VALUE
      · simp only [Option.filter,decide_eq_true hm,if_true,Option.elim_some,hany,true_and,
          Option.some.injEq,Nat.cast_inj]
        exact ⟨fun h => ⟨h,h ▸ hm⟩,fun h => h.1⟩
      · simp only [Option.filter,decide_eq_false hm,Bool.false_eq_true,if_false,Option.elim_none,
          Option.some.injEq]
        refine iff_of_false hneg ?_
        rintro ⟨⟨-,rfl⟩,hn⟩
        exact hm hn
  · rw [if_neg hany]
    exact iff_of_false hneg fun h => hany h.1.1

/-- The result is an error or a sum. -/
theorem parseTime_cases (line : Bytes) (isSec : Bool) :
    parseTime line isSec = ERROR ∨ ∃ n : ℕ, parseTime line isSec = n := by
  rw [parseTime_eq]
  split_ifs
  · rcases Option.filter _ _ with _ | n
    · exact .inl rfl
    · exact .inr ⟨n,rfl⟩
  · exact .inl rfl

end NgParse
end RecycleBin
