import Mathlib.Tactic

/-! Windows of a circular buffer. `Holds buf s l` says that the cells from
index `s` on, taken around the end of `buf`, contain the list `l` in order. -/
namespace RecycleBin
namespace Ring

variable {α : Type*}

def Holds (buf : List α) (s : ℕ) (l : List α) : Prop :=
  ∀ i (hi : i < l.length), buf[(s+i)%buf.length]? = some l[i]

theorem holds_nil (buf : List α) (s : ℕ) : Holds buf s [] := by
  intro i hi
  simp at hi

/-- Only the residue of the start index matters. -/
theorem holds_mod (buf : List α) (s : ℕ) (l : List α) :
    Holds buf (s%buf.length) l ↔ Holds buf s l := by
  simp only [Holds,Nat.mod_add_mod]

/-- Distinct positions of a window no longer than the buffer are distinct cells. -/
theorem cell_inj {n s i j : ℕ} (hi : i < n) (hj : j < n) (h : (s+i)%n = (s+j)%n) : i = j := by
  have hm : i ≡ j [MOD n] := Nat.ModEq.add_left_cancel' s h
  exact Nat.ModEq.eq_of_lt_of_lt hm hi hj

/-- Writing the first cell behind a window that is not full extends it. -/
theorem Holds.push {buf : List α} {s : ℕ} {l : List α} (h : Holds buf s l)
    (hl : l.length < buf.length) (v : α) :
    Holds (buf.set ((s+l.length)%buf.length) v) s (l++[v]) := by
  intro i hi
  rw [List.length_set]
  rw [List.length_append,List.length_singleton] at hi
  have hc : (s+l.length)%buf.length < buf.length := Nat.mod_lt _ (by omega)
  by_cases he : i = l.length
  · subst he
    rw [List.getElem?_set_self hc]
    simp
  · have hi' : i < l.length := by omega
    have hne : (s+l.length)%buf.length ≠ (s+i)%buf.length := by
      intro hcell
      exact he (cell_inj hl (by omega) hcell).symm
    rw [List.getElem?_set_ne hne,h i hi',List.getElem_append_left hi']

/-- The first cell of a window is its oldest element. -/
theorem Holds.head {buf : List α} {s : ℕ} {v : α} {l : List α} (h : Holds buf s (v::l)) :
    buf[s%buf.length]? = some v := by
  have hh := h 0 (by simp)
  rwa [Nat.add_zero,List.getElem_cons_zero] at hh

/-- Dropping the oldest element moves the start by one cell. -/
theorem Holds.tail {buf : List α} {s : ℕ} {v : α} {l : List α} (h : Holds buf s (v::l)) :
    Holds buf (s+1) l := by
  intro i hi
  have hh := h (i+1) (by simpa using hi)
  rw [List.getElem_cons_succ] at hh
  rw [← hh]
  congr 2
  omega

/-- Incrementing an index and wrapping it at the end is addition modulo the size. -/
theorem wrap_succ {n s : ℕ} (hs : s < n) : (if s+1 = n then 0 else s+1) = (s+1)%n := by
  split_ifs with he
  · rw [he,Nat.mod_self]
  · exact (Nat.mod_eq_of_lt (by omega)).symm

end Ring
end RecycleBin
