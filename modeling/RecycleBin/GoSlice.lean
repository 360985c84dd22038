import Mathlib.Data.List.Basic
import RecycleBin.Refinement

/-! Slice expressions and searches with `int` offsets; a search that finds nothing gives
`-1`, and a slice expression out of range panics. -/
namespace RecycleBin
namespace GoSlice

variable {α : Type} {s a b m : List α} {c : α}

/-- `s[i:j]`. -/
def slice (s : List α) (i j : ℤ) : Except Fault (List α) :=
  if 0 ≤ i ∧ i ≤ j ∧ j ≤ s.length then .ok ((s.take j.toNat).drop i.toNat) else .error .panic

/-- `s[i:]`. -/
def sliceFrom (s : List α) (i : ℤ) : Except Fault (List α) := slice s i s.length

/-- `s[:j]`. -/
def sliceTo (s : List α) (j : ℤ) : Except Fault (List α) := slice s 0 j

/-- `s[i]`. -/
def elem (s : List α) (i : ℤ) : Except Fault α :=
  if 0 ≤ i then (s[i.toNat]?).elim (.error .panic) .ok else .error .panic

/-- The first position of `c`. -/
def index [BEq α] (s : List α) (c : α) : ℤ := (s.idxOf? c).elim (-1) fun i => i

/-- The last position of `c`. -/
def lastIndex [BEq α] (s : List α) (c : α) : ℤ :=
  (s.reverse.idxOf? c).elim (-1) fun i => s.length-1-i

/-! ### Slices of a list in parts -/

theorem slice_append {i j : ℤ} (hi : i = a.length) (hj : j = a.length+m.length) :
    slice (a++(m++b)) i j = .ok m := by
  subst hi hj
  have hle : (0 : ℤ) ≤ a.length ∧ (a.length : ℤ) ≤ a.length+m.length ∧
      (a.length : ℤ)+m.length ≤ (a++(m++b)).length := by
    simp only [List.length_append]
    omega
  have hto : ((a.length : ℤ)+m.length).toNat = (a++m).length := by
    rw [List.length_append]
    omega
  rw [slice,if_pos hle,hto,← List.append_assoc,List.take_left,Int.toNat_natCast,List.drop_left]

theorem sliceFrom_append {i : ℤ} (hi : i = a.length) : sliceFrom (a++b) i = .ok b := by
  have h := slice_append (a:=a) (m:=b) (b:=[]) hi (j:=(a++b).length)
    (by rw [List.length_append,Nat.cast_add])
  rwa [List.append_nil] at h

@[simp] theorem sliceFrom_zero (s : List α) : sliceFrom s 0 = .ok s := sliceFrom_append (a:=[]) rfl

/-- The offset at which a suffix begins. -/
theorem sliceFrom_ok {i : ℤ} (hi : 0 ≤ i) (hle : i ≤ s.length) :
    sliceFrom s i = .ok (s.drop i.toNat) := by
  rw [sliceFrom,slice,if_pos ⟨hi,hle,le_rfl⟩,Int.toNat_natCast,List.take_length]

theorem sliceTo_ok {j : ℤ} (hj : 0 ≤ j) (hle : j ≤ s.length) : sliceTo s j = .ok (s.take j.toNat) := by
  rw [sliceTo,slice,if_pos ⟨le_rfl,hj,hle⟩]
  rfl

theorem elem_append {i : ℤ} (hi : i = a.length) : elem (a++c::b) i = .ok c := by
  subst hi
  rw [elem,if_pos (Int.natCast_nonneg _),Int.toNat_natCast,List.getElem?_append_right le_rfl,
    Nat.sub_self]
  rfl

/-! ### Searches -/

variable [BEq α] [LawfulBEq α]

theorem index_of_notMem (h : c ∉ s) : index s c = -1 := by
  rw [index,List.idxOf?_eq_none_iff.mpr h]
  rfl

theorem index_append (h : c ∉ a) : index (a++c::b) c = a.length := by
  have hidx : (a++c::b).idxOf? c = some a.length := by
    induction a with
    | nil => simp [List.idxOf?_cons]
    | cons x a ih =>
      simp only [List.mem_cons,not_or] at h
      have hne : (x == c) = false := by simpa using Ne.symm h.1
      simp [List.idxOf?_cons,hne,ih h.2]
  rw [index,hidx]
  rfl

/-- A list has no `c`, or it is cut at the first one. -/
theorem index_cases (s : List α) (c : α) :
    c ∉ s ∧ index s c = -1 ∨ ∃ a b, s = a++c::b ∧ c ∉ a ∧ index s c = a.length := by
  by_cases h : c ∈ s
  · obtain ⟨a,b,rfl,ha⟩ := List.eq_append_cons_of_mem h
    exact .inr ⟨a,b,rfl,ha,index_append ha⟩
  · exact .inl ⟨h,index_of_notMem h⟩

theorem index_lt (s : List α) (c : α) : index s c = -1 ∨ 0 ≤ index s c ∧ index s c < s.length := by
  rcases index_cases s c with ⟨-,h⟩ | ⟨a,b,rfl,-,h⟩
  · exact .inl h
  · right
    rw [h,List.length_append,List.length_cons]
    omega

theorem lastIndex_of_notMem (h : c ∉ s) : lastIndex s c = -1 := by
  rw [lastIndex,List.idxOf?_eq_none_iff.mpr (by simpa using h)]
  rfl

theorem lastIndex_append (h : c ∉ b) : lastIndex (a++c::b) c = a.length := by
  have hrev : (a++c::b).reverse = b.reverse++c::a.reverse := by simp
  have hidx := index_append (a:=b.reverse) (b:=a.reverse) (c:=c) (by simpa using h)
  rw [lastIndex,hrev]
  rw [index] at hidx
  cases hi : (b.reverse++c::a.reverse).idxOf? c with
  | none =>
    rw [hi,Option.elim_none] at hidx
    omega
  | some i =>
    rw [hi,Option.elim_some,List.length_reverse] at hidx
    rw [Option.elim_some,hidx,List.length_append,List.length_cons]
    omega

end GoSlice
end RecycleBin
