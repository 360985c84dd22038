import Mathlib.Tactic

/-! Greedy apportionment. In every round each party is credited with its weight and
the party with the most credit is picked and pays the sum of all weights. After as
many rounds as that sum, each party was picked as often as its weight says. -/
namespace RecycleBin.Apportion

variable {ι : Type*} (E : Finset ι) (w : ι → ℤ)

/-- What the picked party pays. -/
def price : ℤ := ∑ i ∈ E, w i

/-- No party has more credit than `p`, the weights of this round included. -/
def Picks (c : ι → ℤ) (p : ι) : Prop := p ∈ E ∧ ∀ i ∈ E, c i+w i ≤ c p+w p

/-- The credits sum to zero and nobody owes the whole price. -/
structure Balanced (c : ι → ℤ) : Prop where
  sum : ∑ i ∈ E, c i = 0
  owes : ∀ i ∈ E, -price E w < c i

section
variable {E w}

/-- The picked party has positive credit: the credits of the round sum to the price. -/
theorem Balanced.picked_pos {c : ι → ℤ} {p : ι} (hb : Balanced E w c) (hp : Picks E w c p)
    (hw : 0 < price E w) : 0 < c p+w p := by
  by_contra hn
  have hle : ∑ i ∈ E, (c i+w i) ≤ 0 :=
    Finset.sum_nonpos fun i hi => (hp.2 i hi).trans (not_lt.mp hn)
  simp only [Finset.sum_add_distrib,hb.sum] at hle
  rw [price] at hw
  omega

theorem balanced_zero {c : ι → ℤ} (hc : ∀ i ∈ E, c i = 0) (hw : 0 < price E w) : Balanced E w c where
  sum := Finset.sum_eq_zero hc
  owes := by
    intro i hi
    have := hc i hi
    omega

end

variable [DecidableEq ι]

/-- The credits after a round in which `p` is picked. -/
def next (c : ι → ℤ) (p : ι) (i : ι) : ℤ := c i+w i-if i = p then price E w else 0

/-- The parties are picked in this order, each by its credit. -/
def Greedy (c : ι → ℤ) : List ι → Prop
  | [] => True
  | p::l => Picks E w c p ∧ Greedy (next E w c p) l

def after (c : ι → ℤ) : List ι → ι → ℤ
  | [] => c
  | p::l => after (next E w c p) l

variable {E w}

theorem after_eq (c : ι → ℤ) (l : List ι) (i : ι) :
    after E w c l i = c i+l.length*w i-price E w*l.count i := by
  induction l generalizing c with
  | nil => simp [after]
  | cons p l ih =>
    simp only [after,ih,next,List.length_cons,List.count_cons,beq_iff_eq]
    by_cases h : i = p
    · simp only [h,if_true]
      push_cast
      ring
    · simp only [h,Ne.symm h,if_false]
      push_cast
      ring

theorem sum_next {c : ι → ℤ} {p : ι} (hp : p ∈ E) : ∑ i ∈ E, next E w c p i = ∑ i ∈ E, c i := by
  simp only [next,Finset.sum_sub_distrib,Finset.sum_add_distrib,Finset.sum_ite_eq',hp,if_true]
  rw [price]
  ring

theorem Balanced.next {c : ι → ℤ} {p : ι} (hb : Balanced E w c) (hp : Picks E w c p)
    (h0 : ∀ i ∈ E, 0 ≤ w i) (hw : 0 < price E w) : Balanced E w (next E w c p) where
  sum := (sum_next hp.1).trans hb.sum
  owes := by
    intro i hi
    have hc := hb.owes i hi
    have hi0 := h0 i hi
    by_cases h : i = p
    · have hpos := hb.picked_pos hp hw
      simp only [Apportion.next,h,if_true]
      omega
    · simp only [Apportion.next,h,if_false]
      omega

theorem Balanced.after {c : ι → ℤ} {l : List ι} (hb : Balanced E w c) (hl : Greedy E w c l)
    (h0 : ∀ i ∈ E, 0 ≤ w i) (hw : 0 < price E w) : Balanced E w (after E w c l) := by
  induction l generalizing c with
  | nil => exact hb
  | cons p l ih => exact ih (hb.next hl.1 h0 hw) hl.2

theorem Greedy.mem {c : ι → ℤ} {l : List ι} (hl : Greedy E w c l) : ∀ i ∈ l, i ∈ E := by
  induction l generalizing c with
  | nil => simp
  | cons p l ih =>
    intro i hi
    cases List.mem_cons.mp hi with
    | inl h => exact h ▸ hl.1.1
    | inr h => exact ih hl.2 i h

/-- Every round picks one of the parties. -/
theorem sum_count {l : List ι} (h : ∀ i ∈ l, i ∈ E) : ∑ i ∈ E, l.count i = l.length := by
  induction l with
  | nil => simp
  | cons p l ih =>
    have hp : p ∈ E := h p (by simp)
    have ht := ih fun i hi => h i (by simp [hi])
    simp only [List.count_cons,Finset.sum_add_distrib,ht,beq_iff_eq,List.length_cons]
    simp [hp]

/-- From no credit, as many rounds as the price pick each party as often as its weight. -/
theorem Greedy.count_eq {c : ι → ℤ} {l : List ι} (hl : Greedy E w c l) (hc : ∀ i ∈ E, c i = 0)
    (h0 : ∀ i ∈ E, 0 ≤ w i) (hw : 0 < price E w) (hlen : (l.length : ℤ) = price E w) :
    ∀ i ∈ E, (l.count i : ℤ) = w i := by
  have hb := (balanced_zero hc hw).after hl h0 hw
  -- nobody is picked too often, since nobody owes the price
  have hle : ∀ i ∈ E, (l.count i : ℤ) ≤ w i := by
    intro i hi
    have ho := hb.owes i hi
    rw [after_eq,hc i hi,hlen] at ho
    by_contra hn
    have h1 : w i+1 ≤ l.count i := by omega
    have h2 : price E w*(w i+1) ≤ price E w*l.count i := mul_le_mul_of_nonneg_left h1 hw.le
    linarith [h2,ho]
  have hsum : ∑ i ∈ E, (l.count i : ℤ) = ∑ i ∈ E, w i := by
    have h := congrArg (Nat.cast (R := ℤ)) (sum_count hl.mem)
    push_cast at h
    exact h.trans hlen
  exact (Finset.sum_eq_sum_iff_of_le hle).mp hsum

end RecycleBin.Apportion
