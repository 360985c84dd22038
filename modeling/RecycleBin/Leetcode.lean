import RecycleBin.CString
import Mathlib.Order.PiLex

/-! Three of the exercises under `leetcode/`: the order of version numbers, `atoi` with saturation
and isomorphic strings. A pointer into a text is the text from there to the terminator. -/
namespace RecycleBin
namespace Leetcode
open AntHash CString
open AntVisited (isspace isdigit)

/-- `*p`, of the signed type `char`. -/
def char (b : UInt8) : ℤ := b.toBitVec.toInt

/-- A value of a signed type of `w` bits. -/
def signed (w : ℕ) (n : ℤ) : Except Fault ℤ :=
  if -2^(w-1) ≤ n ∧ n < 2^(w-1) then .ok n else .error .undefined

theorem signed_of_le {w : ℕ} {n : ℤ} (h₁ : -2^(w-1) ≤ n) (h₂ : n < 2^(w-1)) : signed w n = .ok n :=
  if_pos ⟨h₁,h₂⟩

theorem char_of_digit : ∀ {b : UInt8},isdigit b = true → char b = b.toNat ∧ 48 ≤ b.toNat ∧ b.toNat ≤ 57 := by
  intro b
  exact forall_byte (P := fun b => isdigit b = true →
    char b = b.toNat ∧ 48 ≤ b.toNat ∧ b.toNat ≤ 57) (by decide +kernel) b

/-- The number that digits spell. -/
def decimalValue (v : ℕ) (ds : Bytes) : ℕ := ds.foldl (fun v d => 10*v+(d.toNat-48)) v

theorem le_decimalValue (ds : Bytes) : ∀ v : ℕ,v ≤ decimalValue v ds := by
  induction ds with
  | nil => exact fun v => le_rfl
  | cons d ds ih =>
    intro v
    exact le_trans (by omega) (ih (10*v+(d.toNat-48)))

/-! ## `compare_version` -/

/-- The characters before the next dot. -/
def field (p : Bytes) : Bytes := p.takeWhile (· ≠ 46)

/-- The text behind that dot. -/
def behind (p : Bytes) : Bytes := (p.dropWhile (· ≠ 46)).tail

/-- `v1 = v1 * 10 + *p1 - '0'`, to the end of a field. -/
def number (v : ℤ) : Bytes → Except Fault ℤ
  | [] => .ok v
  | c::p => do
    let t ← signed 32 (v*10)
    let t ← signed 32 (t+char c)
    let v ← signed 32 (t-48)
    number v p

theorem behind_length (p : Bytes) : (behind p).length ≤ p.length-1 := by
  rw [behind,List.length_tail]
  exact Nat.sub_le_sub_right (List.dropWhile_sublist _).length_le 1

def compareVersion (p1 p2 : Bytes) : Except Fault ℤ :=
  if _h : p1 = [] ∧ p2 = [] then .ok 0
  else do
    let v1 ← number 0 (field p1)
    let v2 ← number 0 (field p2)
    if v2 < v1 then .ok 1
    else if v1 < v2 then .ok (-1)
    else compareVersion (behind p1) (behind p2)
  termination_by p1.length+p2.length
  decreasing_by
    have h₁ := behind_length p1
    have h₂ := behind_length p2
    rw [← List.length_eq_zero_iff,← List.length_eq_zero_iff] at _h
    omega

/-- The numbers of a version, with zeros behind the last. -/
def parts : Bytes → ℕ → ℕ
  | p,0 => decimalValue 0 (field p)
  | p,i+1 => parts (behind p) i

/-- A text of digits and dots. -/
def Version (p : Bytes) : Prop := ∀ c ∈ p,c = 46 ∨ isdigit c = true

/-- The greatest number that `v1 * 10 + *p1 - '0'` reaches without an overflow. -/
def top : ℕ := 2^31-1-48

theorem number_eq {ds : Bytes} (h : ∀ d ∈ ds,isdigit d = true) : ∀ {v : ℕ},v ≤ top →
    number v ds = if decimalValue v ds ≤ top then .ok (decimalValue v ds : ℤ) else .error .undefined := by
  induction ds with
  | nil =>
    intro v hv
    exact (if_pos hv).symm
  | cons d ds ih =>
    intro v hv
    obtain ⟨hc,hlow,hhigh⟩ := char_of_digit (h d List.mem_cons_self)
    have hdec : decimalValue v (d::ds) = decimalValue (10*v+(d.toNat-48)) ds := rfl
    rw [number,hc,hdec]
    by_cases hfits : 10*v+(d.toNat-48) ≤ top
    · rw [top] at hfits
      have hval : ((v : ℤ)*10+d.toNat-48) = ((10*v+(d.toNat-48) : ℕ) : ℤ) := by omega
      rw [signed_of_le (by omega) (by omega),ok_bind,signed_of_le (by omega) (by omega),ok_bind,
        signed_of_le (by omega) (by omega),ok_bind,hval]
      exact ih (fun d hd => h d (List.mem_cons_of_mem _ hd)) hfits
    · have hgrow := le_decimalValue ds (10*v+(d.toNat-48))
      rw [if_neg (by omega)]
      rw [top] at hfits
      by_cases hmul : (v : ℤ)*10 < 2^31
      · rw [signed_of_le (by omega) (by omega),ok_bind,signed,if_neg (by omega)]
        rfl
      · rw [signed,if_neg (by omega)]
        rfl

/-- Every number that two versions are compared by is computed without an overflow. -/
def Safe (p1 p2 : Bytes) : Prop :=
  ∀ i,(∀ j < i,parts p1 j = parts p2 j) → parts p1 i ≤ top ∧ parts p2 i ≤ top

theorem toLex_lt {f g : ℕ → ℕ} : toLex f < toLex g ↔
    f 0 < g 0 ∨ f 0 = g 0 ∧ toLex (fun i => f (i+1)) < toLex (fun i => g (i+1)) := by
  constructor
  · rintro ⟨i,hsame,hlt⟩
    cases i with
    | zero => exact .inl hlt
    | succ i => exact .inr ⟨hsame 0 i.succ_pos,i,fun j hj => hsame (j+1) (Nat.succ_lt_succ hj),hlt⟩
  · rintro (hlt | ⟨hzero,i,hsame,hlt⟩)
    · exact ⟨0,fun j hj => absurd hj (Nat.not_lt_zero j),hlt⟩
    · refine ⟨i+1,fun j hj => ?_,hlt⟩
      cases j with
      | zero => exact hzero
      | succ j => exact hsame j (Nat.succ_lt_succ_iff.mp hj)

theorem Safe.first {p1 p2 : Bytes} (h : Safe p1 p2) :
    decimalValue 0 (field p1) ≤ top ∧ decimalValue 0 (field p2) ≤ top :=
  h 0 fun j hj => absurd hj (Nat.not_lt_zero j)

/-- Numbers that differ at once decide. -/
theorem safe_of_ne {p1 p2 : Bytes} (htop : parts p1 0 ≤ top ∧ parts p2 0 ≤ top)
    (hne : parts p1 0 ≠ parts p2 0) : Safe p1 p2 := by
  intro i hi
  cases i with
  | zero => exact htop
  | succ i => exact absurd (hi 0 i.succ_pos) hne

theorem safe_behind {p1 p2 : Bytes} (hsame : parts p1 0 = parts p2 0) (h₁ : parts p1 0 ≤ top) :
    Safe p1 p2 ↔ Safe (behind p1) (behind p2) := by
  constructor
  · intro h i hi
    refine h (i+1) fun j hj => ?_
    cases j with
    | zero => exact hsame
    | succ j => exact hi j (Nat.succ_lt_succ_iff.mp hj)
  · intro h i hi
    cases i with
    | zero => exact ⟨h₁,hsame ▸ h₁⟩
    | succ i => exact h i fun j hj => hi (j+1) (Nat.succ_lt_succ hj)

theorem parts_nil : ∀ i,parts [] i = 0 := by
  intro i
  induction i with
  | zero => rfl
  | succ i ih => exact ih

theorem Version.field {p : Bytes} (h : Version p) : ∀ d ∈ field p,isdigit d = true := by
  intro d hd
  have hne : decide (d ≠ 46) = true := List.mem_takeWhile_imp (p := fun d => decide (d ≠ 46)) hd
  rcases h d ((List.takeWhile_prefix _).subset hd) with rfl | hdigit
  · cases hne
  · exact hdigit

theorem Version.behind {p : Bytes} (h : Version p) : Version (behind p) := by
  intro d hd
  exact h d ((List.dropWhile_sublist _).subset (List.mem_of_mem_tail hd))

/-- Versions are compared part by part, with zeros behind the shorter one, in the lexicographic
order; a part that is needed and too great is an overflow. -/
theorem compareVersion_lex (p1 p2 : Bytes) (h₁ : Version p1) (h₂ : Version p2) :
    (¬Safe p1 p2 → compareVersion p1 p2 = .error .undefined) ∧
      (Safe p1 p2 → ∃ r,compareVersion p1 p2 = .ok r ∧
        (r = 1 ∧ toLex (parts p2) < toLex (parts p1) ∨
          r = -1 ∧ toLex (parts p1) < toLex (parts p2) ∨ r = 0 ∧ parts p1 = parts p2)) := by
  induction hn : p1.length+p2.length using Nat.strong_induction_on generalizing p1 p2 with
  | _ n ih =>
    by_cases hend : p1 = [] ∧ p2 = []
    · obtain ⟨rfl,rfl⟩ := hend
      have hsafe : Safe [] [] := fun i _ => by simp [parts_nil]
      rw [compareVersion,dif_pos ⟨rfl,rfl⟩]
      exact ⟨fun h => absurd hsafe h,fun _ => ⟨0,rfl,.inr (.inr ⟨rfl,rfl⟩)⟩⟩
    have hnum₁ : number 0 (field p1) =
        if parts p1 0 ≤ top then .ok (parts p1 0 : ℤ) else .error .undefined :=
      number_eq h₁.field (Nat.zero_le top)
    have hnum₂ : number 0 (field p2) =
        if parts p2 0 ≤ top then .ok (parts p2 0 : ℤ) else .error .undefined :=
      number_eq h₂.field (Nat.zero_le top)
    rw [compareVersion,dif_neg hend,hnum₁,hnum₂]
    by_cases htop : parts p1 0 ≤ top ∧ parts p2 0 ≤ top
    · rw [if_pos htop.1,if_pos htop.2,ok_bind,ok_bind]
      rcases lt_trichotomy (parts p1 0) (parts p2 0) with hlt | hsame | hlt
      · have hsafe := safe_of_ne htop hlt.ne
        rw [if_neg (by omega),if_pos (by omega)]
        exact ⟨fun h => absurd hsafe h,fun _ => ⟨-1,rfl,.inr (.inl ⟨rfl,toLex_lt.mpr (.inl hlt)⟩)⟩⟩
      · have hless : (behind p1).length+(behind p2).length < n := by
          have hb₁ := behind_length p1
          have hb₂ := behind_length p2
          rw [← List.length_eq_zero_iff,← List.length_eq_zero_iff] at hend
          omega
        rw [if_neg (by omega),if_neg (by omega),safe_behind hsame htop.1]
        obtain ⟨hbad,hgood⟩ := ih _ hless (behind p1) (behind p2) h₁.behind h₂.behind rfl
        refine ⟨hbad,fun hsafe => ?_⟩
        obtain ⟨r,hr,hcases⟩ := hgood hsafe
        refine ⟨r,hr,?_⟩
        rcases hcases with ⟨rfl,hlt⟩ | ⟨rfl,hlt⟩ | ⟨rfl,heq⟩
        · exact .inl ⟨rfl,toLex_lt.mpr (.inr ⟨hsame.symm,hlt⟩)⟩
        · exact .inr (.inl ⟨rfl,toLex_lt.mpr (.inr ⟨hsame,hlt⟩)⟩)
        · refine .inr (.inr ⟨rfl,funext fun i => ?_⟩)
          cases i with
          | zero => exact hsame
          | succ i => exact congrFun heq i
      · have hsafe := safe_of_ne htop hlt.ne'
        rw [if_pos (by omega)]
        exact ⟨fun h => absurd hsafe h,fun _ => ⟨1,rfl,.inl ⟨rfl,toLex_lt.mpr (.inl hlt)⟩⟩⟩
    · refine ⟨fun _ => ?_,fun hsafe => absurd hsafe.first htop⟩
      by_cases htop₁ : parts p1 0 ≤ top
      · rw [if_pos htop₁,ok_bind,if_neg fun htop₂ => htop ⟨htop₁,htop₂⟩]
        rfl
      · rw [if_neg htop₁]
        rfl

/-- 0.1 and 0.0.1 -/
theorem compareVersion_lex_tenth : ∃ r,compareVersion [48,46,49] [48,46,48,46,49] = .ok r ∧
    (r = 1 ∧ toLex (parts [48,46,48,46,49]) < toLex (parts [48,46,49]) ∨
      r = -1 ∧ toLex (parts [48,46,49]) < toLex (parts [48,46,48,46,49]) ∨
        r = 0 ∧ parts [48,46,49] = parts [48,46,48,46,49]) := by
  have hsafe : Safe [48,46,49] [48,46,48,46,49] := by
    intro i hi
    match i with
    | 0 => decide
    | 1 => decide
    | i+2 => exact absurd (hi 1 (by omega)) (by decide)
  exact (compareVersion_lex [48,46,49] [48,46,48,46,49] (by unfold Version; decide +kernel)
    (by unfold Version; decide +kernel)).2 hsafe

/-! ## `myatoi` -/

/-- The loop over the digits, of a number with or without a minus. -/
def digitsLoop (minus : Bool) (v : ℤ) : Bytes → Except Fault ℤ
  | [] => .ok (toInt (if minus then -v else v))
  | c::p =>
    if char c < 48 ∨ 57 < char c then .ok (toInt (if minus then -v else v))
    else do
      let t ← signed 64 (v*10)
      let v ← signed 64 (t+(char c-48))
      if minus = false ∧ 2^31-1 ≤ v then .ok (2^31-1)
      else if minus = true ∧ 2^31 ≤ v then .ok (-2^31)
      else digitsLoop minus v p

def myatoi (str : Bytes) : Except Fault ℤ :=
  let p := str.dropWhile isspace
  if p.head? = some 45 then digitsLoop true 0 p.tail
  else if p.head? = some 43 then digitsLoop false 0 p.tail
  else digitsLoop false 0 p

/-- The nearest value of an `int`. -/
def saturate (n : ℤ) : ℤ := max (-2^31) (min (2^31-1) n)

theorem char_of_not_digit : ∀ {b : UInt8},isdigit b = false → char b < 48 ∨ 57 < char b := by
  intro b
  exact forall_byte (P := fun b => isdigit b = false → char b < 48 ∨ 57 < char b)
    (by decide +kernel) b

theorem digitsLoop_eq (minus : Bool) (p : Bytes) : ∀ {v : ℕ},v < 2^31-1 ∨ minus = true ∧ v < 2^31 →
    digitsLoop minus v p =
      .ok (saturate (if minus then -(decimalValue v (p.takeWhile isdigit) : ℤ)
        else decimalValue v (p.takeWhile isdigit))) := by
  have hdone : ∀ {v : ℕ},v < 2^31-1 ∨ minus = true ∧ v < 2^31 →
      toInt (if minus then -(v : ℤ) else v) = saturate (if minus then -(v : ℤ) else v) := by
    intro v hv
    rw [toInt,Int.bmod_eq_of_le (by split_ifs <;> omega) (by split_ifs <;> omega),saturate]
    split_ifs with hm
    · omega
    · omega
  induction p with
  | nil =>
    intro v hv
    exact congrArg _ (hdone hv)
  | cons c p ih =>
    intro v hv
    rw [digitsLoop]
    cases hdigit : isdigit c with
    | false =>
      rw [if_pos (char_of_not_digit hdigit),List.takeWhile_cons_of_neg (by simp [hdigit]),hdone hv]
      rfl
    | true =>
      obtain ⟨hc,hlow,hhigh⟩ := char_of_digit hdigit
      have hnext : (v : ℤ)*10+(char c-48) = (10*v+(c.toNat-48) : ℕ) := by omega
      have hgrow := le_decimalValue (p.takeWhile isdigit) (10*v+(c.toNat-48))
      have hdec : decimalValue v (c::p.takeWhile isdigit) =
        decimalValue (10*v+(c.toNat-48)) (p.takeWhile isdigit) := rfl
      rw [if_neg (by omega),List.takeWhile_cons_of_pos hdigit,hdec,signed_of_le (by omega) (by omega),
        ok_bind,signed_of_le (by omega) (by omega),ok_bind,hnext]
      cases minus with
      | false =>
        by_cases hbig : (2^31-1 : ℤ) ≤ (10*v+(c.toNat-48) : ℕ)
        · rw [if_pos ⟨rfl,hbig⟩,saturate]
          congr 1
          simp only [Bool.false_eq_true,if_false]
          omega
        · rw [if_neg fun h => hbig h.2,if_neg (by simp)]
          exact ih (.inl (by omega))
      | true =>
        by_cases hbig : (2^31 : ℤ) ≤ (10*v+(c.toNat-48) : ℕ)
        · rw [if_neg (by simp),if_pos ⟨rfl,hbig⟩,saturate]
          congr 1
          simp only [if_true]
          omega
        · rw [if_neg (by simp),if_neg fun h => hbig h.2]
          exact ih (.inr ⟨rfl,by omega⟩)

/-- `myatoi` is `strtol`, cut down to the range of `int`; no text makes it overflow on the way. -/
theorem myatoi_saturates (str : Bytes) : myatoi str = .ok (saturate (strtol str)) := by
  have hsat : ∀ (minus : Bool) (p : Bytes),digitsLoop minus 0 p = .ok (saturate
      (if minus then max (-2^63) (-(decimalValue 0 (p.takeWhile isdigit) : ℤ))
        else min (2^63-1) (decimalValue 0 (p.takeWhile isdigit)))) := by
    intro minus p
    have hloop := @digitsLoop_eq minus p 0 (.inl (by decide))
    rw [Nat.cast_zero] at hloop
    rw [hloop,saturate,saturate]
    congr 1
    split_ifs <;> omega
  rw [myatoi,strtol,takeSign]
  by_cases hminus : (str.dropWhile isspace).head? = some 45
  · rw [if_pos hminus,if_pos hminus]
    exact hsat true _
  · rw [if_neg hminus,if_neg hminus]
    by_cases hplus : (str.dropWhile isspace).head? = some 43
    · rw [if_pos hplus,if_pos hplus]
      exact hsat false _
    · rw [if_neg hplus,if_neg hplus]
      exact hsat false _

/-! ## `is_isomorphic` -/

/-- `tab[(int)c]`, of 128 entries. -/
def entry (tab : UInt8 → UInt8) (c : UInt8) : Except Fault UInt8 :=
  if 0 ≤ char c then .ok (tab c) else .error .undefined

/-- A text in ASCII. -/
def Plain (s : Bytes) : Prop := ∀ c ∈ s,c ≠ 0 ∧ c.toNat < 128

/-- Two pairs agree on the left if and only if they agree on the right. -/
def Consistent (l : List (UInt8 × UInt8)) : Prop :=
  ∀ p ∈ l,∀ q ∈ l,p.1 = q.1 ↔ p.2 = q.2

/-- The tables hold the pairs met so far. -/
structure Tables (met : List (UInt8 × UInt8)) (left right : UInt8 → UInt8) : Prop where
  left_iff : ∀ a b,b ≠ 0 → (left a = b ↔ (a,b) ∈ met)
  right_iff : ∀ a b,a ≠ 0 → (right b = a ↔ (a,b) ∈ met)
  nonzero : ∀ p ∈ met,p.1 ≠ 0 ∧ p.2 ≠ 0

/-- A pair that the tables do not refuse is entered in them. -/
theorem Tables.enter {met : List (UInt8 × UInt8)} {left right : UInt8 → UInt8}
    (h : Tables met left right) {a b : UInt8} (ha : a ≠ 0) (hb : b ≠ 0)
    (hr : ¬(right b ≠ 0 ∧ right b ≠ a)) (hl : ¬(left a ≠ 0 ∧ left a ≠ b)) :
    Tables (met++[(a,b)]) (if left a = 0 then Function.update left a b else left)
      (if right b = 0 then Function.update right b a else right) := by
  have hmem : ∀ p,p ∈ met++[(a,b)] ↔ p ∈ met ∨ p = (a,b) := by simp
  have hnonzero : ∀ p ∈ met++[(a,b)],p.1 ≠ 0 ∧ p.2 ≠ 0 := by
    intro p hp
    rcases (hmem p).mp hp with hp | rfl
    · exact h.nonzero p hp
    · exact ⟨ha,hb⟩
  by_cases hzero : right b = 0
  · -- `b` is new, and so is `a`
    have hright : ∀ x,(x,b) ∉ met := by
      intro x hx
      have hxb := (h.right_iff x b (h.nonzero _ hx).1).mpr hx
      exact (h.nonzero _ hx).1 (hxb.symm.trans hzero)
    have hleft : left a = 0 := by
      by_contra hne
      have hab : left a = b := by
        by_contra hne'
        exact hl ⟨hne,hne'⟩
      exact hright a ((h.left_iff a b hb).mp hab)
    have hnew : ∀ y,(a,y) ∉ met := by
      intro y hy
      have hay := (h.left_iff a y (h.nonzero _ hy).2).mpr hy
      exact (h.nonzero _ hy).2 (hay.symm.trans hleft)
    rw [if_pos hleft,if_pos hzero]
    refine ⟨fun x y hy => ?_,fun x y hx => ?_,hnonzero⟩
    · rw [hmem,Prod.mk.injEq]
      rcases eq_or_ne x a with rfl | hne
      · simp [hnew,eq_comm]
      · simp [hne,h.left_iff x y hy]
    · rw [hmem,Prod.mk.injEq]
      rcases eq_or_ne y b with rfl | hne
      · simp [hright,eq_comm]
      · simp [hne,h.right_iff x y hx]
  · -- the pair was met before
    have hold : (a,b) ∈ met := by
      refine (h.right_iff a b ha).mp ?_
      by_contra hne
      exact hr ⟨hzero,hne⟩
    have hleft : left a ≠ 0 := by
      rw [(h.left_iff a b hb).mpr hold]
      exact hb
    have hsame : ∀ p,p ∈ met++[(a,b)] ↔ p ∈ met := by
      intro p
      rw [hmem]
      constructor
      · rintro (hp | rfl)
        · exact hp
        · exact hold
      · exact .inl
    rw [if_neg hleft,if_neg hzero]
    exact ⟨fun x y hy => (h.left_iff x y hy).trans (hsame _).symm,
      fun x y hx => (h.right_iff x y hx).trans (hsame _).symm,hnonzero⟩

end Leetcode
end RecycleBin
