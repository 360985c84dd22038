import Mathlib.Tactic
import Mathlib.Data.List.Infix
import Mathlib.Logic.Relation

/-! The places where one list stands in another: the rightmost one, the occurrences within a
window, and what is left when the rightmost one is deleted as long as there is one. -/
namespace RecycleBin
namespace Occurrence

variable {α : Type*} {w s s' r : List α} {q : ℕ}

/-- `w` stands in `s` from index `q` on. -/
def OccursAt (w s : List α) (q : ℕ) : Prop := w <+: s.drop q

instance [DecidableEq α] : Decidable (OccursAt w s q) := inferInstanceAs (Decidable (_ <+: _))

theorem OccursAt.le (h : OccursAt w s q) (hw : w ≠ []) : q+w.length ≤ s.length := by
  have hlen := h.length_le
  have hpos := List.length_pos_of_ne_nil hw
  rw [List.length_drop] at hlen
  omega

theorem occursAt_iff : OccursAt w s q ↔ ∀ i,i < w.length → s[q+i]? = w[i]? := by
  rw [OccursAt,List.prefix_iff_getElem?]
  refine forall₂_congr fun i hi => ?_
  rw [List.getElem?_drop,List.getElem?_eq_getElem hi]

/-- An occurrence splits the list. -/
theorem OccursAt.eq_append (h : OccursAt w s q) :
    s = s.take q++(w++s.drop (q+w.length)) := by
  obtain ⟨t,ht⟩ := h
  have hrest : s.drop (q+w.length) = t := by
    rw [← List.drop_drop,← ht,List.drop_left]
  rw [hrest,ht,List.take_append_drop]

/-- The occurrences in a window are those of the list that end in it. -/
theorem occursAt_window {a h : ℕ} (hw : w ≠ []) (hh : h ≤ s.length) :
    OccursAt w ((s.take h).drop a) q ↔ OccursAt w s (a+q) ∧ a+q+w.length ≤ h := by
  have hdrop : ((s.take h).drop a).drop q = (s.drop (a+q)).take (h-(a+q)) := by
    rw [List.drop_drop,List.drop_take]
  constructor
  · intro hq
    have hle : q+w.length ≤ ((s.take h).drop a).length := hq.le hw
    have hpos := List.length_pos_of_ne_nil hw
    rw [List.length_drop,List.length_take_of_le hh] at hle
    rw [OccursAt,hdrop] at hq
    exact ⟨hq.trans (List.take_prefix _ _),by omega⟩
  · rintro ⟨hq,hle⟩
    rw [OccursAt,hdrop,List.prefix_take_iff]
    exact ⟨hq,by omega⟩

/-- A rightmost occurrence exists where there is one. -/
theorem exists_rightmost (hw : w ≠ []) (h : OccursAt w s q) :
    ∃ q,OccursAt w s q ∧ ∀ q',OccursAt w s q' → q' ≤ q := by
  classical
  have hbound : ∀ q',OccursAt w s q' → q' ≤ s.length := fun q' h' => by
    have hle := h'.le hw
    omega
  exact ⟨Nat.findGreatest (OccursAt w s) s.length,Nat.findGreatest_spec (hbound q h) h,
    fun q' h' => Nat.le_findGreatest (hbound q' h') h'⟩

/-- A list longer than `s` does not occur in it. -/
theorem not_occursAt_of_lt (h : s.length < w.length) (q : ℕ) : ¬ OccursAt w s q := by
  intro hq
  have hw : w ≠ [] := List.ne_nil_of_length_pos (by omega)
  have hle := hq.le hw
  omega

/-- The index of the last occurrence. -/
def lastIndex [DecidableEq α] (s w : List α) : Option ℕ :=
  (List.range (s.length+1)).reverse.find? fun q => decide (OccursAt w s q)

section LastIndex
variable [DecidableEq α]

theorem lastIndex_eq_none (hw : w ≠ []) : lastIndex s w = none ↔ ∀ q,¬ OccursAt w s q := by
  rw [lastIndex,List.find?_eq_none]
  constructor
  · intro h q hq
    have hle := hq.le hw
    exact h q (by rw [List.mem_reverse,List.mem_range]; omega) (decide_eq_true hq)
  · exact fun h q _ hq => h q (of_decide_eq_true hq)

theorem lastIndex_eq_some (h : lastIndex s w = some q) (hw : w ≠ []) :
    OccursAt w s q ∧ ∀ q',OccursAt w s q' → q' ≤ q := by
  rw [lastIndex,List.find?_eq_some_iff_append] at h
  obtain ⟨hq,as,bs,hsplit,has⟩ := h
  refine ⟨of_decide_eq_true hq,fun q' hq' => ?_⟩
  have hle := hq'.le hw
  have hmem : q' ∈ (List.range (s.length+1)).reverse := by
    rw [List.mem_reverse,List.mem_range]
    omega
  have hdesc : (List.range (s.length+1)).reverse.Pairwise (· > ·) :=
    List.pairwise_reverse.mpr List.pairwise_lt_range
  rw [hsplit] at hmem hdesc
  rcases List.mem_append.mp hmem with hmem | hmem
  · have hnot := has q' hmem
    rw [decide_eq_true hq'] at hnot
    exact nomatch hnot
  · rcases List.mem_cons.mp hmem with rfl | hmem
    · exact le_rfl
    · exact (List.rel_of_pairwise_cons (List.pairwise_append.mp hdesc).2.1 hmem).le

end LastIndex

/-! ### Deletion -/

/-- `s` without its elements from `q` on, `k` of them. -/
def cut (s : List α) (q k : ℕ) : List α := s.take q++s.drop (q+k)

/-- The rightmost occurrence of `w` is deleted. -/
def Deletes (w s s' : List α) : Prop :=
  ∃ q,OccursAt w s q ∧ (∀ q',OccursAt w s q' → q' ≤ q) ∧ s' = cut s q w.length

/-- Occurrences of `w` are deleted until there is none. -/
def Reduces (w s r : List α) : Prop :=
  Relation.ReflTransGen (Deletes w) s r ∧ ∀ q,¬ OccursAt w r q

theorem cut_length (h : OccursAt w s q) (hw : w ≠ []) :
    (cut s q w.length).length+w.length = s.length := by
  have hle := h.le hw
  rw [cut,List.length_append,List.length_take,List.length_drop]
  omega

theorem mem_of_mem_cut {k : ℕ} {a : α} (h : a ∈ cut s q k) : a ∈ s := by
  rcases List.mem_append.mp h with h | h
  · exact List.mem_of_mem_take h
  · exact List.mem_of_mem_drop h

/-- What is not in `w` stays. -/
theorem mem_cut {a : α} (h : OccursAt w s q) (ha : a ∈ s) (hw : a ∉ w) : a ∈ cut s q w.length := by
  rw [h.eq_append,List.mem_append,List.mem_append] at ha
  rcases ha with ha | ha | ha
  · exact List.mem_append_left _ ha
  · exact absurd ha hw
  · exact List.mem_append_right _ ha

theorem Reduces.refl (h : ∀ q,¬ OccursAt w s q) : Reduces w s s := ⟨.refl,h⟩

theorem Reduces.head (h : Deletes w s s') (hr : Reduces w s' r) : Reduces w s r :=
  ⟨hr.1.head h,hr.2⟩

theorem Reduces.eq_of_none (h : Reduces w s r) (hs : ∀ q,¬ OccursAt w s q) : r = s := by
  rcases Relation.ReflTransGen.cases_head h.1 with hr | ⟨s',⟨q,hq,-⟩,-⟩
  · exact hr.symm
  · exact absurd hq (hs q)

/-- The list that is left is determined. -/
theorem Reduces.unique {r' : List α} (h : Reduces w s r) (h' : Reduces w s r') : r = r' := by
  obtain ⟨hsteps,hr⟩ := h
  induction hsteps using Relation.ReflTransGen.head_induction_on with
  | refl => exact (h'.eq_of_none hr).symm
  | head hd _ ih =>
    obtain ⟨q,hq,hmax,rfl⟩ := hd
    rcases Relation.ReflTransGen.cases_head h'.1 with heq | ⟨s₁,⟨q',hq',hmax',rfl⟩,hsteps'⟩
    · rw [← heq] at h'
      exact absurd hq (h'.2 q)
    · have heq : q' = q := Nat.le_antisymm (hmax q' hq') (hmax' q hq)
      rw [heq] at hsteps'
      exact ih ⟨hsteps',h'.2⟩

end Occurrence
end RecycleBin
