import Mathlib.Tactic

/-! Deterministic machines that go on or return a value, and what they return: with enough
fuel, and then with any more. -/
namespace RecycleBin
namespace Halting

variable {σ α : Type}

/-- Run for at most `fuel` steps. -/
def run (step : σ → σ ⊕ α) : ℕ → σ → Option α
  | 0,_ => none
  | fuel+1,s =>
    match step s with
    | .inl t => run step fuel t
    | .inr v => some v

/-- The machine returns `v` from `s`. -/
def Returns (step : σ → σ ⊕ α) (s : σ) (v : α) : Prop :=
  ∃ n, ∀ fuel, n ≤ fuel → run step fuel s = some v

namespace Returns
variable {step : σ → σ ⊕ α} {s t : σ} {v w : α}

theorem ret (h : step s = .inr v) : Returns step s v := by
  refine ⟨1,?_⟩
  intro fuel hfuel
  obtain ⟨f,rfl⟩ : ∃ f, fuel = f+1 := ⟨fuel-1,by omega⟩
  simp only [run,h]

theorem next (h : step s = .inl t) (ht : Returns step t v) : Returns step s v := by
  obtain ⟨n,hn⟩ := ht
  refine ⟨n+1,?_⟩
  intro fuel hfuel
  obtain ⟨f,rfl⟩ : ∃ f, fuel = f+1 := ⟨fuel-1,by omega⟩
  simp only [run,h]
  exact hn f (by omega)

/-- A loop of `k` turns, each of one step, whose invariant says how many turns are left. -/
theorem countdown {I : ℕ → σ → Prop} (hnext : ∀ k s,I (k+1) s → ∃ t,step s = .inl t ∧ I k t)
    (hend : ∀ s,I 0 s → Returns step s v) {k : ℕ} {s : σ} (h : I k s) : Returns step s v := by
  induction k generalizing s with
  | zero => exact hend s h
  | succ k ih =>
    obtain ⟨t,hst,ht⟩ := hnext k s h
    exact next hst (ih ht)

/-- A machine returns at most one value. -/
theorem unique (h : Returns step s v) (h' : Returns step s w) : v = w := by
  obtain ⟨n,hn⟩ := h
  obtain ⟨m,hm⟩ := h'
  have heq := (hn (n+m) (Nat.le_add_right n m)).symm.trans (hm (n+m) (Nat.le_add_left m n))
  exact Option.some.inj heq

end Returns
end Halting
end RecycleBin
