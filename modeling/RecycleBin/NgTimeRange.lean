import RecycleBin.NgParseTime
import RecycleBin.Traced

/-! The range of the numbers in `ParseTime`. The function is run again with a trace of the
exact value of every sum and every product it computes from the text. -/
namespace RecycleBin
namespace NgParse
open GurlCal (Bytes isDigit)
open Traced

/-- The result `n` of an operation on `int`. -/
def arith (n : ℕ) : Run ℕ ℕ := emit n (some n)

@[simp] theorem arith_snd (n : ℕ) : (arith n).2 = some n := rfl

/-- `digitStep`. -/
def digitTrace (ch : UInt8) (st : TimeState) : Run ℕ TimeState :=
  let d := ch.toNat-48
  if st.value ≥ cutoff ∧ (st.value > cutoff ∨ d > cutlim) then halt
  else
    (arith (st.value*10)).bind fun value =>
    (arith (value+d)).bind fun value =>
    ret { st with value := value,valid := true }

/-- `addItem`. -/
def addItemTrace (isSec : Bool) (st : TimeState) (step : MyTime) (max scale : ℕ) :
    Run ℕ TimeState :=
  (if step ≠ .msec ∧ !isSec then arith (scale*1000) else ret scale).bind fun scale =>
  let max := if step ≠ .msec ∧ !isSec then max/1000 else max
  if st.value > max then halt
  else
    (arith (st.value*scale)).bind fun value =>
    if st.total > MAX_INT_T_VALUE-value then halt
    else
      (arith (st.total+value)).bind fun total =>
      ret { st with total := total,value := 0,step := step }

/-- `timeLoop`. -/
def timeLoopTrace (isSec : Bool) : ℕ → Bytes → TimeState → Run ℕ TimeState
  | 0, _, _ => halt
  | fuel+1, p, st =>
    match p with
    | [] => ret st
    | ch::p =>
      if isDigit ch then
        (digitTrace ch st).bind fun st => timeLoopTrace isSec fuel (p.drop 1) st
      else
        (lift (timeUnit isSec st.step ch p)).bind fun u =>
        (addItemTrace isSec st u.1.1 u.1.2.1 u.1.2.2).bind fun st =>
        timeLoopTrace isSec fuel ((u.2.dropWhile (· = 32)).drop 1) st

/-- `timeFinish`; none is `return ERROR`. -/
def timeFinishTrace (isSec : Bool) (st : TimeState) : Run ℕ ℕ :=
  if !st.valid then halt
  else if !isSec ∧ st.value > MAX_INT_T_VALUE/1000 then halt
  else
    (if isSec then ret st.value else arith (st.value*1000)).bind fun value =>
    if st.total > MAX_INT_T_VALUE-value then halt else arith (st.total+value)

/-- `ParseTime`, with the numbers it computes. -/
def parseTimeTrace (line : Bytes) (isSec : Bool) : List ℕ × ℤ :=
  let step := if isSec then MyTime.start else .month
  let r := (timeLoopTrace isSec (line.length+1) line ⟨false,0,0,step⟩).bind (timeFinishTrace isSec)
  (r.1,r.2.elim ERROR fun n => (n : ℤ))

/-! ### The trace leaves the result alone -/

theorem digitTrace_snd (ch : UInt8) (st : TimeState) : (digitTrace ch st).2 = digitStep ch st := by
  rw [digitTrace,digitStep]
  split_ifs <;> rfl

theorem addItemTrace_snd (isSec : Bool) (st : TimeState) (step : MyTime) (max scale : ℕ) :
    (addItemTrace isSec st step max scale).2 = addItem isSec st step max scale := by
  have hscale : (if step ≠ .msec ∧ !isSec then arith (scale*1000) else ret scale).2 =
      some (if step ≠ .msec ∧ !isSec then scale*1000 else scale) := by
    split_ifs <;> rfl
  rw [addItemTrace,addItem,bind_snd,hscale,Option.bind_some]
  generalize (if step ≠ .msec ∧ !isSec then scale*1000 else scale) = scale
  generalize (if step ≠ .msec ∧ !isSec then max/1000 else max) = max
  by_cases hv : st.value > max
  · simp only [if_pos hv,halt_snd]
  simp only [if_neg hv,bind_snd,arith_snd,Option.bind_some]
  by_cases ht : st.total > MAX_INT_T_VALUE-st.value*scale
  · simp only [if_pos ht,halt_snd]
  · simp only [if_neg ht,bind_snd,arith_snd,Option.bind_some,ret_snd]

theorem timeLoopTrace_snd (isSec : Bool) (fuel : ℕ) (p : Bytes) (st : TimeState) :
    (timeLoopTrace isSec fuel p st).2 = timeLoop isSec fuel p st := by
  induction fuel generalizing p st with
  | zero => rfl
  | succ fuel ih =>
    rcases p with _ | ⟨ch,p⟩
    · rfl
    rw [timeLoopTrace,timeLoop]
    split_ifs with hd
    · rw [bind_snd,digitTrace_snd]
      exact Option.bind_congr fun st' _ => ih (p.drop 1) st'
    · rw [bind_snd]
      refine Option.bind_congr fun u _ => ?_
      rw [bind_snd,addItemTrace_snd]
      exact Option.bind_congr fun st' _ => ih _ st'

theorem timeFinishTrace_snd (isSec : Bool) (st : TimeState) :
    (timeFinishTrace isSec st).2.elim ERROR (fun n => (n : ℤ)) = timeFinish isSec st := by
  have hvalue : (if isSec then ret st.value else arith (st.value*1000)).2 =
      some (if isSec then st.value else st.value*1000) := by
    split_ifs <;> rfl
  rw [timeFinishTrace,timeFinish]
  by_cases hn : (!st.valid) = true
  · rw [if_pos hn,if_pos hn]
    rfl
  rw [if_neg hn,if_neg hn]
  by_cases hv : (!isSec) = true ∧ st.value > MAX_INT_T_VALUE/1000
  · rw [if_pos hv,if_pos hv]
    rfl
  rw [if_neg hv,if_neg hv,bind_snd,hvalue,Option.bind_some]
  generalize (if isSec then st.value else st.value*1000) = value
  by_cases ht : st.total > MAX_INT_T_VALUE-value
  · simp only [if_pos ht,halt_snd,Option.elim_none]
  · simp only [if_neg ht,arith_snd,Option.elim_some,Nat.cast_add]

/-! ### The range -/

/-- The numbers the loop keeps. -/
def InRange (st : TimeState) : Prop := st.value ≤ MAX_INT_T_VALUE ∧ st.total ≤ MAX_INT_T_VALUE

/-- A run whose numbers are in range. -/
abbrev Fits {α : Type} (Q : α → Prop) (r : Run ℕ α) : Prop := r.Meets (· ≤ MAX_INT_T_VALUE) Q

theorem fits_arith {n : ℕ} (h : n ≤ MAX_INT_T_VALUE) : Fits (· = n) (arith n) := meets_emit h rfl

theorem fits_digit {ch : UInt8} (hd : isDigit ch = true) {st : TimeState} (h : InRange st) :
    Fits InRange (digitTrace ch st) := by
  have heq := digitStep_eq hd st
  rw [digitStep] at heq
  rw [digitTrace]
  by_cases hc : st.value ≥ cutoff ∧ (st.value > cutoff ∨ ch.toNat-48 > cutlim)
  · rw [if_pos hc]
    exact meets_halt
  · -- what the cutoff lets pass, is in range
    have hle : st.value*10+(ch.toNat-48) ≤ MAX_INT_T_VALUE := by
      rw [if_neg hc] at heq
      by_contra hgt
      rw [if_neg hgt] at heq
      cases heq
    rw [if_neg hc]
    refine (fits_arith (le_trans (Nat.le_add_right _ _) hle)).bind ?_
    rintro _ rfl
    refine (fits_arith hle).bind ?_
    rintro _ rfl
    exact meets_ret ⟨hle,h.2⟩

/-- The switch gives a scale and the largest value for it. -/
theorem timeUnit_scale {isSec : Bool} {step : MyTime} {ch : UInt8} {p : Bytes}
    {u : (MyTime × ℕ × ℕ) × Bytes} (h : timeUnit isSec step ch p = some u) :
    u.1.2.1 = MAX_INT_T_VALUE/u.1.2.2 ∧ u.1.2.2*1000 ≤ MAX_INT_T_VALUE := by
  have hall : ∀ v : TimeUnit, v.amount true*1000 ≤ MAX_INT_T_VALUE := by
    intro v
    cases v <;> decide
  rw [timeUnit_eq] at h
  obtain ⟨unit,-,h⟩ := Option.bind_eq_some_iff.mp h
  split_ifs at h
  cases h
  exact ⟨rfl,hall unit⟩

theorem fits_item (isSec : Bool) (st : TimeState) (step : MyTime) {scale : ℕ}
    (hscale : scale*1000 ≤ MAX_INT_T_VALUE) :
    Fits InRange (addItemTrace isSec st step (MAX_INT_T_VALUE/scale) scale) := by
  -- in milliseconds the largest value is divided again, as the scale is multiplied
  have hmax : (if step ≠ .msec ∧ !isSec then MAX_INT_T_VALUE/scale/1000 else MAX_INT_T_VALUE/scale) =
      MAX_INT_T_VALUE/(if step ≠ .msec ∧ !isSec then scale*1000 else scale) := by
    split_ifs
    · exact Nat.div_div_eq_div_mul _ _ _
    · rfl
  rw [addItemTrace]
  refine Run.Meets.bind (Q:=(· = if step ≠ .msec ∧ !isSec then scale*1000 else scale)) ?_ ?_
  · split_ifs
    · exact fits_arith hscale
    · exact meets_ret rfl
  rintro _ rfl
  simp only [hmax]
  generalize (if step ≠ .msec ∧ !isSec then scale*1000 else scale) = scale
  by_cases hv : st.value > MAX_INT_T_VALUE/scale
  · rw [if_pos hv]
    exact meets_halt
  have hprod : st.value*scale ≤ MAX_INT_T_VALUE :=
    (Nat.mul_le_mul_right scale (Nat.le_of_not_lt hv)).trans (Nat.div_mul_le_self _ _)
  rw [if_neg hv]
  refine (fits_arith hprod).bind ?_
  rintro _ rfl
  by_cases ht : st.total > MAX_INT_T_VALUE-st.value*scale
  · rw [if_pos ht]
    exact meets_halt
  have hsum : st.total+st.value*scale ≤ MAX_INT_T_VALUE := by omega
  rw [if_neg ht]
  refine (fits_arith hsum).bind ?_
  rintro _ rfl
  exact meets_ret ⟨Nat.zero_le _,hsum⟩

theorem fits_loop (isSec : Bool) (fuel : ℕ) (p : Bytes) {st : TimeState} (h : InRange st) :
    Fits InRange (timeLoopTrace isSec fuel p st) := by
  induction fuel generalizing p st with
  | zero => exact meets_halt
  | succ fuel ih =>
    rcases p with _ | ⟨ch,p⟩
    · exact meets_ret h
    rw [timeLoopTrace]
    split_ifs with hd
    · exact (fits_digit hd h).bind fun st' hst => ih (p.drop 1) hst
    · refine (meets_lift fun u hu => hu).bind fun u hu => ?_
      obtain ⟨hmax,hscale⟩ := timeUnit_scale hu
      rw [hmax]
      exact (fits_item isSec st u.1.1 hscale).bind fun st' hst => ih _ hst

theorem fits_finish (isSec : Bool) {st : TimeState} (h : InRange st) :
    Fits (· ≤ MAX_INT_T_VALUE) (timeFinishTrace isSec st) := by
  rw [timeFinishTrace]
  by_cases hn : (!st.valid) = true
  · rw [if_pos hn]
    exact meets_halt
  rw [if_neg hn]
  by_cases hv : (!isSec) = true ∧ st.value > MAX_INT_T_VALUE/1000
  · rw [if_pos hv]
    exact meets_halt
  rw [if_neg hv]
  refine Run.Meets.bind (Q:=(· ≤ MAX_INT_T_VALUE)) ?_ fun value hvalue => ?_
  · cases isSec with
    | true => exact meets_ret h.1
    | false =>
      have hle : st.value ≤ MAX_INT_T_VALUE/1000 := Nat.le_of_not_lt fun hlt => hv ⟨rfl,hlt⟩
      have hprod := (Nat.mul_le_mul_right 1000 hle).trans (Nat.div_mul_le_self MAX_INT_T_VALUE 1000)
      exact meets_emit hprod hprod
  by_cases ht : st.total > MAX_INT_T_VALUE-value
  · rw [if_pos ht]
    exact meets_halt
  · have hsum : st.total+value ≤ MAX_INT_T_VALUE := by omega
    rw [if_neg ht]
    exact meets_emit hsum hsum

theorem fits_parseTime (line : Bytes) (isSec : Bool) :
    Fits (· ≤ MAX_INT_T_VALUE)
      ((timeLoopTrace isSec (line.length+1) line ⟨false,0,0,if isSec then .start else .month⟩).bind
        (timeFinishTrace isSec)) :=
  (fits_loop isSec _ line ⟨Nat.zero_le _,Nat.zero_le _⟩).bind fun _ hst => fits_finish isSec hst

/-- No number `ParseTime` computes leaves the range of `int`, nor does its result. -/
theorem parseTime_inRange (line : Bytes) (isSec : Bool) :
    (∀ n ∈ (parseTimeTrace line isSec).1, n ≤ 2^63-1) ∧
      (parseTimeTrace line isSec).2 = parseTime line isSec ∧
      (parseTime line isSec = ERROR ∨ 0 ≤ parseTime line isSec ∧ parseTime line isSec ≤ 2^63-1) := by
  have hfits := fits_parseTime line isSec
  have hsnd : (parseTimeTrace line isSec).2 = parseTime line isSec := by
    rw [parseTimeTrace,parseTime,bind_snd,timeLoopTrace_snd]
    rcases timeLoop isSec (line.length+1) line _ with _ | st
    · rfl
    · exact timeFinishTrace_snd isSec st
  refine ⟨hfits.1,hsnd,?_⟩
  rw [← hsnd,parseTimeTrace]
  rcases hr : ((timeLoopTrace isSec (line.length+1) line _).bind (timeFinishTrace isSec)).2 with _ | n
  · exact .inl rfl
  · have hle := hfits.2 n hr
    simp only [MAX_INT_T_VALUE] at hle
    right
    rw [Option.elim_some]
    omega

end NgParse
end RecycleBin
