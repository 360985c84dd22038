import RecycleBin.Refinement

/-! The growing table of `ant_array.c`. An element is the value of its bytes; the zero
value stands for an empty slot. -/
namespace RecycleBin
namespace AntArray

/-- `ant_array_t`; `length` is the length of the list. -/
structure Table (α : Type) where
  array : List α
  ncurr : ℤ
  deriving DecidableEq

variable {α : Type} [Zero α] [DecidableEq α]

/-- `ant_array_new` when `calloc` succeeds. -/
def antArrayNew (length : ℕ) : Table α := ⟨List.replicate length 0,0⟩

/-- The length after the expansion for index `i`: a multiple of the old one. -/
def grown (length i : ℕ) : ℕ :=
  if length ≤ i then
    let n := (i+length-1)/length
    length*(if n = 1 then 2 else n)
  else length

/-- `ant_array_put` when `calloc` succeeds. The new length is an `int`; a write behind the
table is undefined. -/
def antArrayPut (a : Table α) (i : ℕ) (elem : α) : Except Fault (Table α) :=
  let length := grown a.array.length i
  if 2^31 ≤ length then .error .undefined
  else
    let array := a.array++List.replicate (length-a.array.length) 0
    if i < length then
      .ok ⟨array.set i elem,if array[i]? = some 0 then a.ncurr+1 else a.ncurr⟩
    else .error .undefined

/-- The element `ant_array_get` points to, behind its assertion. -/
def antArrayGet (a : Table α) (i : ℕ) : Except Fault α :=
  match a.array[i]? with
  | some elem => .ok elem
  | none => .error .panic

def antArrayClear (a : Table α) (i : ℕ) : Except Fault (Table α) :=
  if i < a.array.length then .ok ⟨a.array.set i 0,a.ncurr-1⟩ else .error .panic

/-- The expansion for index `i` covers the index, and its length is an `int`. -/
def Fits (length i : ℕ) : Prop := i < grown length i ∧ grown length i < 2^31

instance (length i : ℕ) : Decidable (Fits length i) := inferInstanceAs (Decidable (_ ∧ _))

theorem length_le_grown (length i : ℕ) : length ≤ grown length i := by
  unfold grown
  split_ifs with hi
  · rcases Nat.eq_zero_or_pos length with rfl | hpos
    · simp
    · have hn : 1 ≤ (i+length-1)/length := (Nat.one_le_div_iff hpos).mpr (by omega)
      simp only []
      split_ifs
      · omega
      · exact Nat.le_mul_of_pos_right length hn
  · exact le_refl _

/-- The expansion misses exactly the multiples of the old length from twice it on. -/
theorem lt_grown_iff {length i : ℕ} (hpos : 0 < length) :
    i < grown length i ↔ ¬(length ∣ i ∧ 2*length ≤ i) := by
  unfold grown
  split_ifs with hi
  · have hdiv := Nat.div_add_mod i length
    have hmod := Nat.mod_lt i hpos
    by_cases hd : length ∣ i
    · obtain ⟨k,rfl⟩ := hd
      have hk : (length*k+length-1)/length = k := by
        rw [Nat.add_sub_assoc hpos,Nat.mul_add_div hpos,Nat.div_eq_of_lt (by omega),Nat.add_zero]
      have hk1 : 1 ≤ k := by
        by_contra h0
        have : k = 0 := by omega
        subst this
        omega
      simp only [hk,dvd_mul_right,true_and,not_le]
      by_cases h1 : k = 1
      · subst h1
        simp only [if_true]
        omega
      · rw [if_neg h1]
        constructor
        · intro h
          omega
        · intro h
          have h2 : 2 ≤ k := by omega
          have := Nat.mul_le_mul_left length h2
          omega
    · have hrest : 0 < i%length := Nat.pos_of_ne_zero fun h => hd (Nat.dvd_of_mod_eq_zero h)
      have hn : (i+length-1)/length = i/length+1 := by
        have heq : i+length-1 = length*(i/length+1)+(i%length-1) := by
          rw [Nat.mul_add_one]
          omega
        have hzero : (i%length-1)/length = 0 := Nat.div_eq_of_lt (by omega)
        rw [heq,Nat.mul_add_div hpos,hzero]
      have hq : 1 ≤ i/length := (Nat.one_le_div_iff hpos).mpr hi
      have hne : ¬(i/length+1 = 1) := by omega
      simp only [hn,if_neg hne,hd,false_and,not_false_eq_true,iff_true]
      rw [Nat.mul_add_one]
      omega
  · simp only [not_le] at hi
    constructor
    · rintro _ ⟨_,h⟩
      omega
    · intro _
      exact hi

section Ops
variable {a t : Table α} {i : ℕ} {e : α}

omit [DecidableEq α] in
/-- The slots after a clear. -/
theorem getElem?_antArrayClear (h : antArrayClear a i = .ok t) (j : ℕ) :
    t.array[j]? = if j = i then some 0 else a.array[j]? := by
  unfold antArrayClear at h
  split_ifs at h with hi
  cases h
  by_cases hj : j = i
  · subst hj
    rw [List.getElem?_set_self hi,if_pos rfl]
  · rw [List.getElem?_set_ne (Ne.symm hj),if_neg hj]

/-- A put that covers its index. -/
theorem antArrayPut_eq (h : Fits a.array.length i) :
    ∃ ncurr,antArrayPut a i e =
      .ok ⟨(a.array++List.replicate (grown a.array.length i-a.array.length) 0).set i e,ncurr⟩ := by
  exact ⟨_,by rw [antArrayPut,if_neg (not_le.mpr h.2),if_pos h.1]⟩

theorem antArrayPut_undefined (h : ¬Fits a.array.length i) :
    antArrayPut a i e = .error .undefined := by
  unfold antArrayPut
  by_cases hbig : 2^31 ≤ grown a.array.length i
  · rw [if_pos hbig]
  · have hmiss : ¬i < grown a.array.length i := fun hi => h ⟨hi,not_le.mp hbig⟩
    rw [if_neg hbig,if_neg hmiss]

/-- The slots after a put: the one written, the old ones, and zeroed ones. -/
theorem getElem?_antArrayPut (h : antArrayPut a i e = .ok t) (j : ℕ) :
    t.array[j]? = if j = i then some e
      else if j < a.array.length then a.array[j]?
      else if j < t.array.length then some 0 else none := by
  by_cases hf : Fits a.array.length i
  case neg =>
    rw [antArrayPut_undefined hf] at h
    cases h
  obtain ⟨ncurr,hput⟩ := antArrayPut_eq (a := a) (e := e) hf
  rw [hput] at h
  cases h
  have hle := length_le_grown a.array.length i
  have hlen : (a.array++List.replicate (grown a.array.length i-a.array.length) 0).length =
      grown a.array.length i := by simp; omega
  by_cases hj : j = i
  · subst hj
    rw [List.getElem?_set_self (by rw [hlen]; exact hf.1),if_pos rfl]
  · simp only [List.getElem?_set_ne (Ne.symm hj),if_neg hj,List.length_set,hlen]
    split_ifs with h₁ h₂
    · exact List.getElem?_append_left h₁
    · rw [List.getElem?_append_right (not_lt.mp h₁),List.getElem?_replicate,if_pos (by omega)]
    · rw [List.getElem?_append_right (not_lt.mp h₁),List.getElem?_replicate,if_neg (by omega)]

end Ops
end AntArray
end RecycleBin
