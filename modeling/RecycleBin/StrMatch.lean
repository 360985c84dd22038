import RecycleBin.AntVisited
import RecycleBin.Bytes

/-! The matcher of `char_engine/str_match.c`. A pointer into a string is the part of it behind
the pointer; at its end stands the terminator. `char` is signed. -/
namespace RecycleBin
namespace StrMatch
open AntHash AntVisited

/-! ### Sets of characters -/

/-- `bit_t`. -/
abbrev Bit := Fin 32 → UInt8

def bitIndex (c : UInt8) : Fin 32 := ⟨c.toNat/8,Nat.div_lt_of_lt_mul c.toNat_lt⟩

/-- `1 << _c % CHAR_BIT`. -/
def bitMask (c : UInt8) : UInt8 := 1 <<< (c%8)

def bitSet (bit : Bit) (c : UInt8) : Bit :=
  Function.update bit (bitIndex c) (bit (bitIndex c) ||| bitMask c)

def bitZero : Bit := fun _ => 0

def bitIsset (bit : Bit) (c : UInt8) : Bool := bit (bitIndex c) &&& bitMask c ≠ 0

/-- `bit_rev`. The complement of a word is that of its four bytes. -/
def bitRev (bit : Bit) : Bit := fun i => ~~~bit i

/-! ### The matcher -/

/-- The byte at a pointer. -/
def peek (p : Bytes) : UInt8 := p.headD 0

/-- A byte as a signed `char`. -/
def schar (b : UInt8) : ℤ := if b.toNat < 128 then b.toNat else b.toNat-256

/-- `for (c = x; c < fmt[2]; c++) bit_set(&bit, c)`, for so many turns. -/
def setRange (bit : Bit) (x : UInt8) : ℕ → Bit
  | 0 => bit
  | k+1 => setRange (bitSet bit x) (x+1) k

/-- The loop over the set behind `%[`. -/
def scanSet : ℕ → Bit → Bytes → Except Fault (Bit × Bytes)
  | 0, _, _ => .error .exhausted
  | _+1, bit, [] => .ok (bit,[])
  | n+1, bit, x::fmt =>
    if x = 93 then .ok (bit,x::fmt)
    else if peek fmt = 45 then
      let y := peek fmt.tail
      let bit := setRange bit x (schar y-schar x).toNat
      -- `c` has come to `y`, unless it was above it.
      if schar x ≤ schar y then scanSet n bit fmt.tail else scanSet n bit (x::fmt)
    else scanSet n (bitSet bit x) fmt

/-- The digits of a width. -/
def scanWidth : ℕ → Bytes → Except Fault (ℕ × Bytes)
  | w, [] => .ok (w,[])
  | w, b::fmt =>
    if isdigit b = true then
      if w*10+b.toNat < 2^31 then scanWidth (w*10+b.toNat-48) fmt else .error .undefined
    else .ok (w,b::fmt)

/-- Characters are passed over while they are right and the width lasts. -/
def upTo (p : UInt8 → Bool) : ℕ → Bytes → ℕ × Bytes
  | w, [] => (w,[])
  | w, b::s => if p b = true ∧ 0 < w then upTo p (w-1) s else (w,b::s)

/-- `%d` and `%[`: no width is no limit. -/
def skip (p : UInt8 → Bool) (width : ℕ) (s : Bytes) : Bytes :=
  if width ≠ 0 then (upTo p width s).2 else s.dropWhile p

/-- `%f`. -/
def skipFloat (width : ℕ) (s : Bytes) : Bytes :=
  if width ≠ 0 then
    let r := upTo isdigit width s
    let r := if peek r.2 = 46 ∧ 0 < r.1 then (r.1-1,r.2.tail) else r
    (upTo isdigit r.1 r.2).2
  else
    let s := s.dropWhile isdigit
    let s := if peek s = 46 then s.tail else s
    s.dropWhile isdigit

/-- `|` or `}`. -/
def isBar (b : UInt8) : Bool := b = 124 ∨ b = 125

/-- `s0` and `fmt` behind what they have in common of an alternative. -/
def matchAlternative : Bytes → Bytes → Bytes × Bytes
  | s0, [] => (s0,[])
  | s0, b::fmt =>
    if isBar b = false ∧ s0.head? = some b then matchAlternative s0.tail fmt else (s0,b::fmt)

theorem matchAlternative_length (s0 fmt : Bytes) : (matchAlternative s0 fmt).2.length ≤ fmt.length := by
  induction fmt generalizing s0 with
  | nil => exact Nat.le_refl _
  | cons b fmt ih =>
    rw [matchAlternative]
    split
    · exact (ih _).trans (Nat.le_succ _)
    · exact Nat.le_refl _

/-- The loop behind `%{`: `s` and `fmt` behind the group, or none where no alternative has
matched. A `}` ends an alternative that does not match, and the loop goes on behind it. -/
def choose (s fmt : Bytes) : Option (Bytes × Bytes) :=
  if fmt = [] ∨ isBar (peek fmt) = true then none
  else
    let r := matchAlternative s fmt
    if isBar (peek r.2) = true then some (r.1,(r.2.dropWhile (· ≠ 125)).tail)
    else
      match _h : r.2.dropWhile (isBar · = false) with
      | [] => none
      | _::rest => choose s rest
termination_by fmt.length
decreasing_by
  have hdrop := List.length_dropWhile_le (isBar · = false) (matchAlternative s fmt).2
  rw [_h,List.length_cons] at hdrop
  have hlen := matchAlternative_length s fmt
  omega

/-- A directive behind the `%` and its width: `s` and `fmt` behind it, or none for `return 0`.
Without `STATUS_CARET` and `STATUS_OR`, which no directive leaves behind for another. -/
def directive (n : ℕ) (s : Bytes) (width : ℕ) (fmt : Bytes) : Except Fault (Option (Bytes × Bytes)) :=
  match fmt with
  -- `fmt++` steps over the terminator.
  | [] => .error .undefined
  | b::fmt =>
    if b = 100 then .ok (some (skip isdigit width s,fmt))
    else if b = 91 then do
      let caret := decide (peek fmt = 94)
      let r ← scanSet n bitZero (if caret then fmt.tail else fmt)
      let bit := if caret then bitRev r.1 else r.1
      .ok (some (skip (bitIsset bit) width s,if peek r.2 = 93 then r.2.tail else r.2))
    else if b = 102 then .ok (some (skipFloat width s,fmt))
    else if b = 123 then .ok (choose s fmt)
    else .ok (some (s,fmt))

/-- One turn of the loop: what is returned, or where `s` and `fmt` go on. -/
def turn (n : ℕ) (s fmt : Bytes) : Except Fault (Bool ⊕ Bytes × Bytes) :=
  match fmt with
  | [] => .ok (.inl (s = []))
  | b::fmt =>
    if b = 37 then do
      let w ← scanWidth 0 fmt
      match ← directive n s w.1 w.2 with
      | none => .ok (.inl false)
      | some p => .ok (.inr p)
    else if s.head? = some b then .ok (.inr (s.tail,fmt))
    -- `%?`
    else if fmt.take 2 = [37,63] then .ok (.inr (s,fmt))
    else .ok (.inl false)

/-- `str_match`. -/
def strMatch : ℕ → Bytes → Bytes → Except Fault Bool
  | 0, _, _ => .error .exhausted
  | n+1, s, fmt => do
    match ← turn n s fmt with
    | .inl r => .ok r
    | .inr p => strMatch n p.1 p.2

/-- `str_match` returns `r`, however long it is given from some time on. -/
def Returns (s fmt : Bytes) (r : Bool) : Prop := ∃ n,∀ m,n ≤ m → strMatch m s fmt = .ok r

example : strMatch 60 [46,106,115] [37,123,46,99,115,115,124,46,106,115,125] = .ok true := by
  decide +kernel

/-! ### Where a turn may start -/

/-- The ranges of a set ascend, up to the one that the format ends in. -/
def Ordered (fmt : Bytes) : Prop :=
  match fmt with
  | [] => True
  | x::fmt =>
    if x = 93 then True
    else if peek fmt = 45 then schar x ≤ schar (peek fmt.tail) ∧ Ordered fmt.tail
    else Ordered fmt
termination_by fmt.length
decreasing_by
  · rw [List.length_tail]
    exact Nat.lt_succ_of_le (Nat.sub_le _ _)
  · exact Nat.lt_succ_self _

/-- The value of a numeral behind the digits read so far. -/
def numeral (w : ℕ) (ds : Bytes) : ℕ := ds.foldl (fun w d => w*10+d.toNat-48) w

/-- The last digit is added before the `'0'` is taken off. -/
def WidthFits (fmt : Bytes) : Prop :=
  fmt.takeWhile isdigit = [] ∨ numeral 0 (fmt.takeWhile isdigit)+48 < 2^31

/-- What the set of a `%[` starts with. -/
def setBody (fmt : Bytes) : Bytes := if peek fmt = 94 then fmt.tail else fmt

/-- Behind a `%` the width fits an `int`, the format goes on, and the set of a `%[` is ordered. -/
def Sound (fmt : Bytes) : Prop :=
  ∀ f,fmt = 37::f → WidthFits f ∧
    ∃ b g,f.dropWhile isdigit = b::g ∧ (b = 91 → Ordered (setBody g))

/-! ### One turn -/

theorem scanSet_ordered (fmt : Bytes) : ∀ bit,Ordered fmt →
    ∃ r : Bit × Bytes,r.2.length ≤ fmt.length ∧ ∀ n,fmt.length < n → scanSet n bit fmt = .ok r := by
  fun_induction Ordered fmt with
  | case1 =>
    intro bit _
    refine ⟨(bit,[]),Nat.le_refl _,fun n hn => ?_⟩
    obtain ⟨n,rfl⟩ := Nat.exists_eq_succ_of_ne_zero (Nat.ne_of_gt hn)
    rfl
  | case2 fmt =>
    intro bit _
    refine ⟨(bit,93::fmt),Nat.le_refl _,fun n hn => ?_⟩
    obtain ⟨n,rfl⟩ := Nat.exists_eq_succ_of_ne_zero (Nat.ne_zero_of_lt hn)
    rw [scanSet,if_pos rfl]
  | case3 x fmt hx hdash ih =>
    rintro bit ⟨hle,h⟩
    obtain ⟨r,hr,hscan⟩ := ih (setRange bit x (schar (peek fmt.tail)-schar x).toNat) h
    have htail : fmt.tail.length ≤ fmt.length := by
      rw [List.length_tail]
      exact Nat.sub_le _ _
    refine ⟨r,hr.trans (htail.trans (Nat.le_succ _)),fun n hn => ?_⟩
    obtain ⟨n,rfl⟩ := Nat.exists_eq_succ_of_ne_zero (Nat.ne_zero_of_lt hn)
    rw [scanSet,if_neg hx,if_pos hdash]
    simp only [if_pos hle]
    exact hscan n (Nat.lt_of_le_of_lt htail (Nat.lt_of_succ_lt_succ hn))
  | case4 x fmt hx hdash ih =>
    intro bit h
    obtain ⟨r,hr,hscan⟩ := ih (bitSet bit x) h
    refine ⟨r,hr.trans (Nat.le_succ _),fun n hn => ?_⟩
    obtain ⟨n,rfl⟩ := Nat.exists_eq_succ_of_ne_zero (Nat.ne_zero_of_lt hn)
    rw [scanSet,if_neg hx,if_neg hdash]
    exact hscan n (Nat.lt_of_succ_lt_succ hn)

/-- A range that does not ascend is met again and again. -/
theorem scanSet_reversed (n : ℕ) : ∀ {bit fmt},¬Ordered fmt →
    scanSet n bit fmt = .error .exhausted := by
  induction n with
  | zero => exact fun _ => rfl
  | succ n ih =>
    intro bit fmt h
    rw [Ordered.eq_def] at h
    cases fmt with
    | nil => exact absurd trivial h
    | cons x fmt =>
      simp only at h
      rw [scanSet]
      split_ifs at h ⊢ with hx hdash
      · exact absurd trivial h
      · dsimp only
        split_ifs with hle
        · exact ih fun hrest => h ⟨hle,hrest⟩
        · refine ih fun hsame => ?_
          rw [Ordered,if_neg hx,if_pos hdash] at hsame
          exact hle hsame.1
      · exact ih h

theorem numeral_le (ds : Bytes) (hds : ∀ d ∈ ds,isdigit d = true) : ∀ w,w ≤ numeral w ds := by
  induction ds with
  | nil => exact fun w => Nat.le_refl w
  | cons d ds ih =>
    intro w
    have hd := hds d List.mem_cons_self
    have h48 : 48 ≤ d.toNat := by
      rw [isdigit,decide_eq_true_eq] at hd
      exact hd.1
    have hstep : w ≤ w*10+d.toNat-48 := by omega
    exact hstep.trans (ih (fun d hd => hds d (List.mem_cons_of_mem _ hd)) _)

theorem scanWidth_eq (fmt : Bytes) : ∀ w,
    scanWidth w fmt =
      if fmt.takeWhile isdigit = [] ∨ numeral w (fmt.takeWhile isdigit)+48 < 2^31 then
        .ok (numeral w (fmt.takeWhile isdigit),fmt.dropWhile isdigit)
      else .error .undefined := by
  induction fmt with
  | nil => exact fun w => rfl
  | cons b fmt ih =>
    intro w
    rw [scanWidth]
    by_cases hb : isdigit b = true
    · have h48 : 48 ≤ b.toNat := by
        rw [isdigit,decide_eq_true_eq] at hb
        exact hb.1
      have hle := numeral_le (fmt.takeWhile isdigit) (fun d hd => List.mem_takeWhile_imp hd)
        (w*10+b.toNat-48)
      have htake : (b::fmt).takeWhile isdigit = b::fmt.takeWhile isdigit := by
        rw [List.takeWhile_cons,if_pos hb]
      have hnum : numeral w (b::fmt.takeWhile isdigit) =
          numeral (w*10+b.toNat-48) (fmt.takeWhile isdigit) := rfl
      have hdrop : (b::fmt).dropWhile isdigit = fmt.dropWhile isdigit := by
        rw [List.dropWhile_cons,if_pos hb]
      rw [if_pos hb,ih,htake,hnum,hdrop]
      by_cases hnil : fmt.takeWhile isdigit = []
      · have hlast : numeral (w*10+b.toNat-48) [] = w*10+b.toNat-48 := rfl
        have hback : w*10+b.toNat-48+48 = w*10+b.toNat := by omega
        simp only [hnil,true_or,if_true,List.cons_ne_nil,false_or,hlast,hback]
      · have hmore : w*10+b.toNat ≤ numeral (w*10+b.toNat-48) (fmt.takeWhile isdigit)+48 := by omega
        simp only [hnil,false_or,List.cons_ne_nil]
        split_ifs
        · rfl
        · rfl
        · omega
        · rfl
    · have htake : (b::fmt).takeWhile isdigit = [] := by rw [List.takeWhile_cons,if_neg hb]
      have hdrop : (b::fmt).dropWhile isdigit = b::fmt := by rw [List.dropWhile_cons,if_neg hb]
      rw [if_neg hb,htake,hdrop,if_pos (.inl rfl)]
      rfl

theorem choose_shorter (s fmt : Bytes) : ∀ {p},choose s fmt = some p → p.2.length < fmt.length := by
  fun_induction choose s fmt with
  | case1 fmt h =>
    intro p hp
    cases hp
  | case2 fmt h hbar =>
    intro p hp
    cases hp
    have hne : 0 < fmt.length := List.length_pos_iff.mpr fun hnil => h (.inl hnil)
    have hdrop := List.length_dropWhile_le (fun b => decide (b ≠ 125)) (matchAlternative s fmt).2
    have hlen := matchAlternative_length s fmt
    show ((matchAlternative s fmt).2.dropWhile (· ≠ 125)).tail.length < fmt.length
    rw [List.length_tail]
    omega
  | case3 fmt h hbar hdrop =>
    intro p hp
    cases hp
  | case4 fmt h r hbar b rest hdrop =>
    rename_i ih
    intro p hp
    have hlen := matchAlternative_length s fmt
    have hskip := List.length_dropWhile_le (isBar · = false) (matchAlternative s fmt).2
    rw [hdrop,List.length_cons] at hskip
    exact (ih hp).trans (Nat.lt_of_lt_of_le (Nat.lt_succ_self _) (hskip.trans hlen))

theorem scanWidth_fits {fmt : Bytes} (h : WidthFits fmt) :
    scanWidth 0 fmt = .ok (numeral 0 (fmt.takeWhile isdigit),fmt.dropWhile isdigit) :=
  (scanWidth_eq fmt 0).trans (if_pos h)

theorem scanWidth_over {fmt : Bytes} (h : ¬WidthFits fmt) : scanWidth 0 fmt = .error .undefined :=
  (scanWidth_eq fmt 0).trans (if_neg h)

/-- `%[` behind a set that was taken in. -/
theorem directive_scan {n : ℕ} {g : Bytes} {r : Bit × Bytes}
    (h : scanSet n bitZero (setBody g) = .ok r) (s : Bytes) (width : ℕ) :
    directive n s width (91::g) = .ok (some
      (skip (bitIsset (if peek g = 94 then bitRev r.1 else r.1)) width s,
        if peek r.2 = 93 then r.2.tail else r.2)) := by
  rw [setBody] at h
  have h91 : ¬(91 : UInt8) = 100 := by decide
  rw [directive,if_neg h91,if_pos rfl]
  simp only [decide_eq_true_eq,h,ok_bind]

theorem setBody_length (g : Bytes) : (setBody g).length ≤ g.length := by
  rw [setBody]
  split_ifs
  · rw [List.length_tail]
    exact Nat.sub_le _ _
  · exact Nat.le_refl _

/-- A directive takes its part of the format, whatever the fuel is from some length on. -/
theorem directive_sound {b : UInt8} {g : Bytes} (h : b = 91 → Ordered (setBody g)) (s : Bytes)
    (width : ℕ) : ∃ r,(∀ n,g.length < n → directive n s width (b::g) = .ok r) ∧
      ∀ p ∈ r,p.2.length ≤ g.length := by
  by_cases h91 : b = 91
  · subst h91
    obtain ⟨r,hr,hscan⟩ := scanSet_ordered (setBody g) bitZero (h rfl)
    have hbody := setBody_length g
    refine ⟨_,fun n hn => directive_scan (hscan n (Nat.lt_of_le_of_lt hbody hn)) s width,
      fun p hp => ?_⟩
    cases hp
    refine Nat.le_trans ?_ (hr.trans hbody)
    dsimp only
    split_ifs
    · rw [List.length_tail]
      exact Nat.sub_le _ _
    · exact Nat.le_refl _
  · by_cases h123 : b = 123
    · subst h123
      refine ⟨choose s g,fun n _ => rfl,fun p hp => ?_⟩
      exact (choose_shorter s g hp).le
    · have hrest : ∃ t,∀ n,directive n s width (b::g) = .ok (some (t,g)) := by
        by_cases h100 : b = 100
        · exact ⟨_,fun n => by rw [directive,if_pos h100]⟩
        · by_cases h102 : b = 102
          · exact ⟨_,fun n => by rw [directive,if_neg h100,if_neg h91,if_pos h102]⟩
          · exact ⟨_,fun n => by rw [directive,if_neg h100,if_neg h91,if_neg h102,if_neg h123]⟩
      obtain ⟨t,ht⟩ := hrest
      refine ⟨_,fun n _ => ht n,fun p hp => ?_⟩
      cases hp
      exact Nat.le_refl _

theorem directive_unsound {f : Bytes} (h : ∀ b g,f = b::g → b = 91 ∧ ¬Ordered (setBody g)) (n : ℕ)
    (s : Bytes) (width : ℕ) : ∃ e,directive n s width f = .error e := by
  cases f with
  | nil => exact ⟨_,rfl⟩
  | cons b g =>
    obtain ⟨rfl,hrev⟩ := h b g rfl
    have hscan : scanSet n bitZero (if peek g = 94 then g.tail else g) = .error .exhausted :=
      scanSet_reversed n hrev
    have h91 : ¬(91 : UInt8) = 100 := by decide
    refine ⟨.exhausted,?_⟩
    rw [directive,if_neg h91,if_pos rfl]
    simp only [decide_eq_true_eq,hscan,error_bind]

/-- A turn at a `%` is that of its directive. -/
theorem turn_percent {f : Bytes} (h : WidthFits f) (n : ℕ) (s : Bytes) :
    turn n s (37::f) =
      (directive n s (numeral 0 (f.takeWhile isdigit)) (f.dropWhile isdigit) >>= fun r =>
        .ok (r.elim (.inl false) .inr)) := by
  rw [turn,if_pos rfl,scanWidth_fits h,ok_bind]
  congr 1
  funext r
  cases r <;> rfl

/-- A turn at a character. -/
theorem turn_char {b : UInt8} (h : b ≠ 37) (n : ℕ) (s f : Bytes) :
    turn n s (b::f) = .ok (if s.head? = some b then .inr (s.tail,f)
      else if f.take 2 = [37,63] then .inr (s,f) else .inl false) := by
  rw [turn,if_neg h]
  split_ifs <;> rfl

/-- A turn from a sound place returns or goes on at a shorter format. -/
theorem turn_sound {fmt : Bytes} (h : Sound fmt) (s : Bytes) :
    ∃ r,(∀ n,fmt.length ≤ n → turn n s fmt = .ok r) ∧
      ∀ p,r = .inr p → p.2.length < fmt.length := by
  cases fmt with
  | nil => exact ⟨_,fun n _ => rfl,fun p hp => by cases hp⟩
  | cons b f =>
    by_cases h37 : b = 37
    · subst h37
      obtain ⟨hwidth,b,g,hg,hset⟩ := h f rfl
      obtain ⟨r,hr,hp⟩ := directive_sound hset s (numeral 0 (f.takeWhile isdigit))
      have hlen := List.length_dropWhile_le isdigit f
      rw [hg,List.length_cons] at hlen
      refine ⟨r.elim (.inl false) .inr,fun n hn => ?_,fun p hrp => ?_⟩
      · rw [List.length_cons] at hn
        rw [turn_percent hwidth,hg,hr n (by omega),ok_bind]
      · cases r with
        | none => cases hrp
        | some q =>
          have hq := hp q rfl
          cases hrp
          rw [List.length_cons]
          omega
    · refine ⟨_,fun n _ => turn_char h37 n s f,fun p hp => ?_⟩
      split_ifs at hp <;> cases hp <;> exact Nat.lt_succ_self _

theorem turn_unsound {fmt : Bytes} (h : ¬Sound fmt) (n : ℕ) (s : Bytes) :
    ∃ e,turn n s fmt = .error e := by
  have hbad : ∃ f,fmt = 37::f ∧ ¬(WidthFits f ∧
      ∃ b g,f.dropWhile isdigit = b::g ∧ (b = 91 → Ordered (setBody g))) := by
    by_contra hno
    exact h fun f hfmt => by_contra fun hf => hno ⟨f,hfmt,hf⟩
  obtain ⟨f,rfl,hf⟩ := hbad
  by_cases hwidth : WidthFits f
  · have hbad : ∀ b g,f.dropWhile isdigit = b::g → b = 91 ∧ ¬Ordered (setBody g) := by
      intro b g hg
      have hset : ¬(b = 91 → Ordered (setBody g)) := fun hset => hf ⟨hwidth,b,g,hg,hset⟩
      by_cases h91 : b = 91
      · exact ⟨h91,fun ho => hset fun _ => ho⟩
      · exact absurd (fun hb => absurd hb h91) hset
    obtain ⟨e,he⟩ := directive_unsound hbad n s (numeral 0 (f.takeWhile isdigit))
    exact ⟨e,by rw [turn_percent hwidth,he,error_bind]⟩
  · refine ⟨.undefined,?_⟩
    rw [turn,if_pos rfl,scanWidth_over hwidth,error_bind]

/-! ### Runs -/

/-- A turn at `p` goes on at `q`. -/
def Goes (p q : Bytes × Bytes) : Prop := turn p.2.length p.1 p.2 = .ok (.inr q)

/-- The places where turns start. -/
def Reach : Bytes × Bytes → Bytes × Bytes → Prop := Relation.ReflTransGen Goes

theorem Returns.of_turn {s fmt : Bytes} {r : Bool} (h : ∀ n,fmt.length ≤ n → turn n s fmt = .ok (.inl r)) :
    Returns s fmt r := by
  refine ⟨fmt.length+1,fun m hm => ?_⟩
  obtain ⟨m,rfl⟩ := Nat.exists_eq_succ_of_ne_zero (Nat.ne_zero_of_lt hm)
  rw [strMatch,h m (Nat.le_of_succ_le_succ hm)]
  rfl

theorem Returns.next_iff {s fmt : Bytes} {p : Bytes × Bytes} {r : Bool}
    (h : ∀ n,fmt.length ≤ n → turn n s fmt = .ok (.inr p)) :
    Returns s fmt r ↔ Returns p.1 p.2 r := by
  constructor
  · rintro ⟨n,hn⟩
    refine ⟨n+fmt.length,fun m hm => ?_⟩
    have hok := hn (m+1) (by omega)
    rw [strMatch,h m (by omega)] at hok
    exact hok
  · rintro ⟨n,hn⟩
    refine ⟨n+fmt.length+1,fun m hm => ?_⟩
    obtain ⟨m,rfl⟩ := Nat.exists_eq_succ_of_ne_zero (Nat.ne_zero_of_lt hm)
    rw [strMatch,h m (by omega)]
    exact hn m (by omega)

theorem Returns.unique {s fmt : Bytes} {r r' : Bool} (h : Returns s fmt r) (h' : Returns s fmt r') :
    r = r' := by
  obtain ⟨n,hn⟩ := h
  obtain ⟨m,hm⟩ := h'
  have heq := (hn (n+m) (Nat.le_add_right n m)).symm.trans (hm (n+m) (Nat.le_add_left m n))
  exact Except.ok.inj heq

theorem Returns.sound {s fmt : Bytes} {r : Bool} (h : Returns s fmt r) : Sound fmt := by
  by_contra hbad
  obtain ⟨n,hn⟩ := h
  obtain ⟨e,he⟩ := turn_unsound hbad n s
  have hok := hn (n+1) (Nat.le_succ n)
  rw [strMatch,he] at hok
  cases hok

/-- The matcher returns exactly when every place where a turn starts is sound. -/
theorem returns_iff_sound (s fmt : Bytes) :
    (∃ r,Returns s fmt r) ↔ ∀ q,Reach (s,fmt) q → Sound q.2 := by
  constructor
  · rintro ⟨r,hr⟩ q hq
    have hret : Returns q.1 q.2 r := by
      induction hq with
      | refl => exact hr
      | tail _ hgo ih =>
        obtain ⟨x,hx,-⟩ := turn_sound ih.sound _
        have heq := (hx _ (Nat.le_refl _)).symm.trans hgo
        cases heq
        exact (Returns.next_iff hx).mp ih
    exact hret.sound
  · generalize hlen : fmt.length = k
    induction k using Nat.strong_induction_on generalizing s fmt with
    | _ k ih =>
      intro h
      obtain ⟨x,hx,hshort⟩ := turn_sound (h _ .refl) s
      cases x with
      | inl r => exact ⟨r,.of_turn hx⟩
      | inr p =>
        have hgo : Goes (s,fmt) p := hx _ (Nat.le_refl _)
        obtain ⟨r,hr⟩ := ih p.2.length (hlen ▸ hshort p rfl) p.1 p.2 rfl
          fun q hq => h q (.head hgo hq)
        exact ⟨r,(Returns.next_iff hx).mpr hr⟩

/-- A string in front of its terminator. -/
structure Text where
  bytes : Bytes
  noNul : 0 ∉ bytes

/-- The matcher returns, without a step behind a terminator, exactly when each turn that starts
at a `%` finds a width of an `int`, a directive, and for `%[` a set whose ranges ascend. -/
theorem strMatch_returns_iff (str format : Text) :
    (∃ r,Returns str.bytes format.bytes r) ↔
      ∀ s fmt,Reach (str.bytes,format.bytes) (s,fmt) → Sound fmt :=
  (returns_iff_sound str.bytes format.bytes).trans Prod.forall

/-- `%[b-a]`. -/
def reversed : Text := ⟨[37,91,98,45,97,93],by decide⟩

theorem not_returns_reversed : ¬∃ r,Returns [] reversed.bytes r := by
  rintro ⟨r,hr⟩
  obtain ⟨-,b,g,hg,hset⟩ := hr.sound [91,98,45,97,93] rfl
  cases hg
  have hord := hset rfl
  rw [show setBody [98,45,97,93] = [98,45,97,93] by decide,Ordered,if_neg (by decide),
    if_pos (by decide)] at hord
  exact absurd hord.1 (by decide)

end StrMatch
end RecycleBin
