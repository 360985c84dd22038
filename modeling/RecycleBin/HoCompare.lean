import RecycleBin.GasInt
import RecycleBin.Halting
import RecycleBin.StrMatch

/-!
# Comparisons of strings

`ho_strcmp` in C and in assembly, `ho_strncmp` and `ho_memcmp`. An array is the list of its
bytes, the terminator included; a `char` is signed.
-/

namespace RecycleBin
namespace HoCompare

open AntHash AntVisited GasInt Halting StrMatch

/-! ## The code -/

/-- A byte as a `char`. -/
def char (b : UInt8) : ℤ := b.toInt8.toInt

/-- `ho_strcmp` in C: `while (!(c = *s - *s2) && *s) s++, s2++;` -/
def hoStrcmp : Bytes → Bytes → Except Fault ℤ
  | a::s,b::s2 => if char a-char b = 0 ∧ a ≠ 0 then hoStrcmp s s2 else .ok (char a-char b)
  | _,_ => .error .undefined

/-- The loop of `ho_strncmp`, with `c` once it has been set. -/
def strncmpLoop : Bytes → Bytes → ℕ → Option ℤ → Except Fault ℤ
  | _,_,0,some c => .ok c
  | _,_,0,none => .error .undefined
  | a::s,b::s2,n+1,_ =>
    if char a-char b = 0 ∧ a ≠ 0 then strncmpLoop s s2 n (some (char a-char b))
    else .ok (char a-char b)
  | _,_,_+1,_ => .error .undefined

/-- `ho_strncmp` -/
def hoStrncmp (s1 s2 : Bytes) (n : ℕ) : Except Fault ℤ := strncmpLoop s1 s2 n none

/-- `ho_memcmp`: `while (!(c = *p1 - *p2) && n--)`, where `c` is a `char`. -/
def hoMemcmp : Bytes → Bytes → ℕ → Except Fault ℤ
  | a::p1,b::p2,n =>
    if a-b = 0 then
      match n with
      | 0 => .ok (char (a-b))
      | n+1 => hoMemcmp p1 p2 n
    else .ok (char (a-b))
  | _,_,_ => .error .undefined

/-- The labels of `ho_strcmp` in assembly. -/
inductive Label
  | ho_strcmp_loop_begin | ho_strcmp_loop_end

structure Regs where
  rdi : Bytes
  rsi : Bytes
  al : UInt8
  cl : UInt8

/-- One block: where control goes with which registers, or the value returned. -/
def block : Label × Regs → (Label × Regs) ⊕ Except Fault Word
  | (.ho_strcmp_loop_begin,r) =>
    match r.rdi,r.rsi with
    | a::rdi,b::rsi =>
      let r := { r with al := a,cl := b }
      if r.al = 0 then .inl (.ho_strcmp_loop_end,r)
      else if r.cl ≠ r.al then .inl (.ho_strcmp_loop_end,r)
      else .inl (.ho_strcmp_loop_begin,{ r with rdi := rdi,rsi := rsi })
    | _,_ => .inr (.error .undefined)
  | (.ho_strcmp_loop_end,r) =>
    let r := { r with al := r.al-r.cl }
    .inr (.ok (r.al.toBitVec.signExtend 32))

/-! ## The first difference -/

/-- The bytes at the first place where two strings differ, or their terminators. -/
def firstDiff : Bytes → Bytes → UInt8 × UInt8
  | [],[] => (0,0)
  | [],b::_ => (0,b)
  | a::_,[] => (a,0)
  | a::as,b::bs => if a = b then firstDiff as bs else (a,b)

theorem char_eq (b : UInt8) : char b = if b.toNat < 128 then (b.toNat : ℤ) else b.toNat-256 := by
  have h : char b = Int.bmod b.toNat 256 := BitVec.toInt_eq_toNat_bmod _
  have hlt := b.toNat_lt
  rw [h,Int.bmod_def]
  split_ifs <;> omega

theorem char_inj {a b : UInt8} : char a-char b = 0 ↔ a = b := by
  have ha := a.toNat_lt
  have hb := b.toNat_lt
  rw [char_eq,char_eq,← UInt8.toNat_inj]
  split_ifs <;> omega

/-- The difference in the low byte, spread over the register. -/
theorem spread_eq (a b : UInt8) : ((a-b).toBitVec.signExtend 32).toInt =
    Int.bmod ((a.toNat : ℤ)-b.toNat) 256 := by
  have hnat : (a-b).toBitVec.toNat = (256-b.toNat+a.toNat)%256 := UInt8.toNat_sub a b
  have hb := b.toNat_lt
  rw [BitVec.toInt_signExtend_of_le (by decide),BitVec.toInt_eq_toNat_bmod,hnat,Int.bmod_def,
    Int.bmod_def]
  omega

section Texts
variable {as bs : Bytes} (ra rb : Bytes)

/-- The standard comparison. -/
theorem strcmp_diff (ha : 0 ∉ as) (hb : 0 ∉ bs) : strcmp (as++0::ra) (bs++0::rb) =
    .ok (((firstDiff as bs).1.toNat : ℤ)-(firstDiff as bs).2.toNat) := by
  induction as generalizing bs with
  | nil =>
    cases bs with
    | nil => rfl
    | cons b bs =>
      have hne : (0 : UInt8) ≠ b := fun h => hb (h ▸ List.mem_cons_self)
      simp only [List.nil_append,List.cons_append,strcmp,if_neg hne,firstDiff]
  | cons a as ih =>
    have hne : a ≠ 0 := fun h => ha (h ▸ List.mem_cons_self)
    cases bs with
    | nil => simp only [List.nil_append,List.cons_append,strcmp,if_neg hne,firstDiff]
    | cons b bs =>
      simp only [List.cons_append,strcmp,firstDiff]
      split_ifs with hab
      · exact ih (fun h => ha (List.mem_cons_of_mem _ h)) fun h => hb (List.mem_cons_of_mem _ h)
      · rfl

theorem hoStrcmp_diff (ha : 0 ∉ as) (hb : 0 ∉ bs) : hoStrcmp (as++0::ra) (bs++0::rb) =
    .ok (char (firstDiff as bs).1-char (firstDiff as bs).2) := by
  induction as generalizing bs with
  | nil =>
    cases bs with
    | nil => rfl
    | cons b bs => simp [hoStrcmp,firstDiff]
  | cons a as ih =>
    have hne : a ≠ 0 := fun h => ha (h ▸ List.mem_cons_self)
    cases bs with
    | nil =>
      have hdiff : ¬(char a-char 0 = 0 ∧ a ≠ 0) := fun h => hne (char_inj.mp h.1)
      simp only [List.nil_append,List.cons_append,hoStrcmp,if_neg hdiff,firstDiff]
    | cons b bs =>
      simp only [List.cons_append,hoStrcmp,firstDiff,char_inj]
      by_cases hab : a = b
      · rw [if_pos ⟨hab,hne⟩,if_pos hab]
        exact ih (fun h => ha (List.mem_cons_of_mem _ h)) fun h => hb (List.mem_cons_of_mem _ h)
      · rw [if_neg fun h => hab h.1,if_neg hab]

theorem block_diff (ha : 0 ∉ as) (hb : 0 ∉ bs) (al cl : UInt8) :
    Returns block (.ho_strcmp_loop_begin,⟨as++0::ra,bs++0::rb,al,cl⟩)
      (.ok (((firstDiff as bs).1-(firstDiff as bs).2).toBitVec.signExtend 32)) := by
  induction as generalizing bs al cl with
  | nil =>
    cases bs with
    | nil => exact .next rfl (.ret rfl)
    | cons b bs => exact .next rfl (.ret rfl)
  | cons a as ih =>
    have hne : a ≠ 0 := fun h => ha (h ▸ List.mem_cons_self)
    cases bs with
    | nil =>
      refine .next (t:=(.ho_strcmp_loop_end,⟨a::as++0::ra,0::rb,a,0⟩)) ?_ (.ret rfl)
      simp only [List.nil_append,List.cons_append,block,if_neg hne]
      exact if_pos (Ne.symm hne)
    | cons b bs =>
      by_cases hab : a = b
      · subst hab
        have hnext := ih (fun h => ha (List.mem_cons_of_mem _ h))
          (fun h => hb (List.mem_cons_of_mem _ h)) a a
        refine .next ?_ (by rw [firstDiff,if_pos rfl]; exact hnext)
        simp only [List.cons_append,block,if_neg hne,ne_eq,not_true_eq_false,if_false]
      · refine .next (t:=(.ho_strcmp_loop_end,⟨a::as++0::ra,b::bs++0::rb,a,b⟩)) ?_
          (.ret (by rw [firstDiff,if_neg hab]; rfl))
        simp only [List.cons_append,block,if_neg hne]
        exact if_pos (Ne.symm hab)

end Texts

/-- The bytes at the first difference are equal for equal strings only. -/
theorem firstDiff_eq {as bs : Bytes} (ha : 0 ∉ as) (hb : 0 ∉ bs) :
    (firstDiff as bs).1 = (firstDiff as bs).2 ↔ as = bs := by
  induction as generalizing bs with
  | nil =>
    cases bs with
    | nil => simp [firstDiff]
    | cons b bs =>
      have hne : (0 : UInt8) ≠ b := fun h => hb (h ▸ List.mem_cons_self)
      simp [firstDiff,hne]
  | cons a as ih =>
    have hne : a ≠ 0 := fun h => ha (h ▸ List.mem_cons_self)
    cases bs with
    | nil => simp [firstDiff,hne]
    | cons b bs =>
      rw [firstDiff]
      by_cases hab : a = b
      · rw [if_pos hab,ih (fun h => ha (List.mem_cons_of_mem _ h))
          (fun h => hb (List.mem_cons_of_mem _ h)),hab]
        simp
      · rw [if_neg hab]
        simp [hab]

/-- Two results that order strings alike. -/
def SameSign (c v : ℤ) : Prop := (c < 0 ↔ v < 0) ∧ (0 < c ↔ 0 < v)

/-- The bytes of a difference are less than a `char` apart. -/
def Close (d : UInt8 × UInt8) : Prop :=
  -128 ≤ (d.1.toNat : ℤ)-d.2.toNat ∧ (d.1.toNat : ℤ)-d.2.toNat ≤ 127

/-- Both versions of `ho_strcmp` tell equal strings from different ones. The sign of the result
is that of `strcmp` in C exactly when the bytes at the first difference are on the same side of
128, and in assembly exactly when they are close. -/
theorem hoStrcmp_signs (a b : Text) (ra rb : Bytes) (al cl : UInt8) :
    ∃ (v c : ℤ) (w : Word),strcmp (a.bytes++0::ra) (b.bytes++0::rb) = .ok v ∧
      hoStrcmp (a.bytes++0::ra) (b.bytes++0::rb) = .ok c ∧
      Returns block (.ho_strcmp_loop_begin,⟨a.bytes++0::ra,b.bytes++0::rb,al,cl⟩) (.ok w) ∧
      (c = 0 ↔ a.bytes = b.bytes) ∧ (w.toInt = 0 ↔ a.bytes = b.bytes) ∧
      (SameSign c v ↔ ((firstDiff a.bytes b.bytes).1 < 128 ↔
        (firstDiff a.bytes b.bytes).2 < 128)) ∧
      (SameSign w.toInt v ↔ Close (firstDiff a.bytes b.bytes)) := by
  refine ⟨_,_,_,strcmp_diff ra rb a.noNul b.noNul,hoStrcmp_diff ra rb a.noNul b.noNul,
    block_diff ra rb a.noNul b.noNul al cl,?_,?_,?_,?_⟩
  · rw [char_inj]
    exact firstDiff_eq a.noNul b.noNul
  · rw [spread_eq,← firstDiff_eq a.noNul b.noNul,← UInt8.toNat_inj]
    generalize firstDiff a.bytes b.bytes = d
    have h₁ := d.1.toNat_lt
    have h₂ := d.2.toNat_lt
    rw [Int.bmod_def]
    omega
  · generalize firstDiff a.bytes b.bytes = d
    have h₁ := d.1.toNat_lt
    have h₂ := d.2.toNat_lt
    have h128 : ((128 : UInt8).toNat) = 128 := rfl
    rw [SameSign,char_eq,char_eq,UInt8.lt_iff_toNat_lt,UInt8.lt_iff_toNat_lt,h128]
    split_ifs <;> omega
  · generalize firstDiff a.bytes b.bytes = d
    have h₁ := d.1.toNat_lt
    have h₂ := d.2.toNat_lt
    rw [SameSign,Close,spread_eq,Int.bmod_def]
    omega

/-! ## Comparisons of a number of bytes -/

section Texts
variable {as bs : Bytes} (ra rb : Bytes)

theorem strncmpLoop_diff (ha : 0 ∉ as) (hb : 0 ∉ bs) (n : ℕ) (c : Option ℤ)
    (hc : n = 0 → c = some 0) : strncmpLoop (as++0::ra) (bs++0::rb) n c =
      .ok (char (firstDiff (as.take n) (bs.take n)).1-char (firstDiff (as.take n) (bs.take n)).2) := by
  induction n generalizing as bs c with
  | zero =>
    rw [hc rfl,strncmpLoop]
    rfl
  | succ n ih =>
    cases as with
    | nil =>
      cases bs with
      | nil => rfl
      | cons b bs => simp [strncmpLoop,firstDiff]
    | cons a as =>
      have hne : a ≠ 0 := fun h => ha (h ▸ List.mem_cons_self)
      cases bs with
      | nil =>
        have hdiff : ¬(char a-char 0 = 0 ∧ a ≠ 0) := fun h => hne (char_inj.mp h.1)
        simp only [List.nil_append,List.cons_append,strncmpLoop,if_neg hdiff,List.take_succ_cons,
          List.take_nil,firstDiff]
      | cons b bs =>
        simp only [List.cons_append,strncmpLoop,List.take_succ_cons,firstDiff]
        by_cases hab : a = b
        · have hzero : char a-char b = 0 := char_inj.mpr hab
          rw [if_pos ⟨hzero,hne⟩,if_pos hab]
          exact ih (fun h => ha (List.mem_cons_of_mem _ h)) (fun h => hb (List.mem_cons_of_mem _ h))
            _ fun _ => congrArg some hzero
        · rw [if_neg fun h => hab (char_inj.mp h.1),if_neg hab]

end Texts

/-- `ho_strncmp` compares the strings cut to `n` bytes as `ho_strcmp` compares strings, whatever
stands behind the terminators. Of no bytes at all it returns what it never set. -/
theorem hoStrncmp_cut (a b : Text) (ra rb : Bytes) (n : ℕ) :
    hoStrncmp (a.bytes++0::ra) (b.bytes++0::rb) n =
      if n = 0 then .error .undefined
      else hoStrcmp (a.bytes.take n++[0]) (b.bytes.take n++[0]) := by
  split_ifs with h
  · rw [h,hoStrncmp,strncmpLoop]
  · have ha : 0 ∉ a.bytes.take n := fun hmem => a.noNul (List.mem_of_mem_take hmem)
    have hb : 0 ∉ b.bytes.take n := fun hmem => b.noNul (List.mem_of_mem_take hmem)
    rw [hoStrcmp_diff [] [] ha hb]
    exact strncmpLoop_diff ra rb a.noNul b.noNul n none fun h0 => absurd h0 h

/-- What stands behind two blocks is equal too, as far as one byte. -/
def NextAlike : Bytes → Bytes → Prop
  | a::_,b::_ => a = b
  | _,_ => False

section Blocks
variable {u v ru rv : Bytes}

theorem memcmp_blocks (h : u.length = v.length) : memcmp u.length (u++ru) (v++rv) =
    .ok (((firstDiff u v).1.toNat : ℤ)-(firstDiff u v).2.toNat) := by
  induction u generalizing v with
  | nil =>
    cases v with
    | nil => rfl
    | cons b v => cases h
  | cons a u ih =>
    cases v with
    | nil => cases h
    | cons b v =>
      simp only [List.length_cons,List.cons_append,memcmp,firstDiff]
      split_ifs
      · exact ih (Nat.succ.inj h)
      · rfl

theorem firstDiff_self (u : Bytes) : firstDiff u u = (0,0) := by
  induction u with
  | nil => rfl
  | cons a u ih => rw [firstDiff,if_pos rfl,ih]

theorem sub_eq_zero_byte {a b : UInt8} : a-b = 0 ↔ a = b := by
  rw [UInt8.sub_eq_iff_eq_add,UInt8.zero_add]

/-- Behind equal blocks one more byte is compared. -/
theorem hoMemcmp_blocks (h : u.length = v.length) : hoMemcmp (u++ru) (v++rv) u.length =
    if u = v then
      match ru,rv with
      | a::_,b::_ => .ok (char (a-b))
      | _,_ => .error .undefined
    else .ok (char ((firstDiff u v).1-(firstDiff u v).2)) := by
  induction u generalizing v with
  | nil =>
    cases v with
    | cons b v => cases h
    | nil =>
      rw [if_pos rfl,List.nil_append,List.nil_append]
      cases ru with
      | nil => rfl
      | cons a ru =>
        cases rv with
        | nil => rfl
        | cons b rv =>
          simp only [List.length_nil,hoMemcmp]
          exact ite_self _
  | cons a u ih =>
    cases v with
    | nil => cases h
    | cons b v =>
      simp only [List.length_cons,List.cons_append,hoMemcmp,sub_eq_zero_byte,firstDiff]
      by_cases hab : a = b
      · rw [if_pos hab,if_pos hab,ih (Nat.succ.inj h)]
        simp [hab]
      · rw [if_neg hab,if_neg hab,if_neg]
        exact fun heq => hab (List.cons_eq_cons.mp heq).1

/-- `ho_memcmp` orders two blocks as `memcmp` does exactly when they differ and the bytes at the
first difference are close, or when they are equal and so are the bytes behind them. -/
theorem hoMemcmp_iff (h : u.length = v.length) :
    (∃ c w,hoMemcmp (u++ru) (v++rv) u.length = .ok c ∧
        memcmp u.length (u++ru) (v++rv) = .ok w ∧ SameSign c w) ↔
      if u = v then NextAlike ru rv else Close (firstDiff u v) := by
  rw [memcmp_blocks h,hoMemcmp_blocks h]
  have hchar : ∀ a b : UInt8,char (a-b) = Int.bmod ((a.toNat : ℤ)-b.toNat) 256 := by
    intro a b
    rw [← spread_eq,BitVec.toInt_signExtend_of_le (by decide)]
    rfl
  split_ifs with huv
  · subst huv
    have hzero : ((firstDiff u u).1.toNat : ℤ)-(firstDiff u u).2.toNat = 0 := by
      rw [firstDiff_self,sub_self]
    rw [hzero]
    cases ru with
    | nil => exact iff_of_false (fun ⟨c,w,hc,_⟩ => by cases hc) id
    | cons a ru =>
      cases rv with
      | nil => exact iff_of_false (fun ⟨c,w,hc,_⟩ => by cases hc) id
      | cons b rv =>
        simp only [NextAlike,hchar,← UInt8.toNat_inj]
        have ha := a.toNat_lt
        have hb := b.toNat_lt
        constructor
        · rintro ⟨c,w,hc,hw,hsame⟩
          cases hc
          cases hw
          rw [SameSign,Int.bmod_def] at hsame
          omega
        · intro hab
          refine ⟨_,_,rfl,rfl,?_⟩
          rw [hab,sub_self]
          exact ⟨Iff.rfl,Iff.rfl⟩
  · generalize firstDiff u v = d
    have h₁ := d.1.toNat_lt
    have h₂ := d.2.toNat_lt
    rw [Close,hchar]
    constructor
    · rintro ⟨c,w,hc,hw,hsame⟩
      cases hc
      cases hw
      rw [SameSign,Int.bmod_def] at hsame
      omega
    · intro hclose
      refine ⟨_,_,rfl,rfl,?_⟩
      rw [SameSign,Int.bmod_def]
      omega

end Blocks

/-- Two blocks of one byte that differ in it. -/
theorem hoMemcmp_iff_one : ∃ c w,hoMemcmp [1] [2] 1 = .ok c ∧ memcmp 1 [1] [2] = .ok w ∧ SameSign c w :=
  (@hoMemcmp_iff [1] [2] [] [] rfl).mpr (by
    rw [if_neg (by decide),Close]
    decide)

end HoCompare
end RecycleBin
