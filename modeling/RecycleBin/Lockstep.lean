import Mathlib.Tactic

/-! Programs with state and exceptions: what every value they return satisfies, and programs
that run in lockstep, which from every state stop with the same exception or return related
values in the same state. -/
namespace RecycleBin
namespace Lockstep

universe u

variable {σ ε : Type u} {α β γ δ : Type u}

section Steps
variable {m : StateT σ (Except ε) α} {f : α → StateT σ (Except ε) γ}

theorem bind_apply (m : StateT σ (Except ε) α) (f : α → StateT σ (Except ε) γ) (s : σ) :
    (m >>= f) s = (m s >>= fun r => f r.1 r.2) := rfl

theorem bind_ok {s t : σ} {a : α} (h : m s = .ok (a,t)) : (m >>= f) s = f a t := by
  rw [bind_apply,h]
  rfl

theorem bind_error {s : σ} {e : ε} (h : m s = .error e) : (m >>= f) s = .error e := by
  rw [bind_apply,h]
  rfl

/-- A run of a sequence that returns: its two parts return. -/
theorem bind_eq_ok {s u : σ} {c : γ} (h : (m >>= f) s = .ok (c,u)) :
    ∃ a t, m s = .ok (a,t) ∧ f a t = .ok (c,u) := by
  rw [bind_apply] at h
  cases hm : m s with
  | error e =>
    rw [hm] at h
    cases h
  | ok r =>
    rw [hm] at h
    exact ⟨r.1,r.2,rfl,h⟩

end Steps

/-! ### What is returned -/

/-- Every value the program returns satisfies `P`. -/
def Yields (m : StateT σ (Except ε) α) (P : α → Prop) : Prop :=
  ∀ s a t, m s = .ok (a,t) → P a

namespace Yields
variable {m : StateT σ (Except ε) α} {P : α → Prop}

theorem pure {a : α} (h : P a) : Yields (Pure.pure a : StateT σ (Except ε) α) P := by
  intro s b t hb
  cases hb
  exact h

theorem bind {Q : γ → Prop} {f : α → StateT σ (Except ε) γ} (h : Yields m P)
    (hf : ∀ a, P a → Yields (f a) Q) : Yields (m >>= f) Q := by
  intro s c u hc
  obtain ⟨a,t,ha,hfa⟩ := bind_eq_ok hc
  exact hf a (h s a t ha) t c u hfa

/-- A program of which nothing is known. -/
theorem trivial (m : StateT σ (Except ε) α) : Yields m fun _ => True := fun _ _ _ _ => True.intro

/-- Continuations that agree on what is returned. -/
theorem bind_congr {f g : α → StateT σ (Except ε) γ} (h : Yields m P)
    (hfg : ∀ a, P a → f a = g a) : (m >>= f) = (m >>= g) := by
  funext s
  cases hm : m s with
  | error e => rw [bind_error hm,bind_error hm]
  | ok r => rw [bind_ok hm,bind_ok hm,hfg r.1 (h s r.1 r.2 hm)]

end Yields

/-! ### What is kept -/

/-- Every run that returns keeps the value of `f`. -/
def Preserves (f : σ → δ) (m : StateT σ (Except ε) α) : Prop := ∀ s a t, m s = .ok (a,t) → f t = f s

namespace Preserves
variable {f : σ → δ} {m m' : StateT σ (Except ε) α}

theorem pure (f : σ → δ) (a : α) : Preserves f (Pure.pure a : StateT σ (Except ε) α) := by
  intro s b t h
  cases h
  rfl

theorem throw (f : σ → δ) (e : ε) : Preserves f (MonadExcept.throw e : StateT σ (Except ε) α) := by
  intro s a t h
  cases h

theorem bind {g : α → StateT σ (Except ε) γ} (h : Preserves f m) (hg : ∀ a, Preserves f (g a)) :
    Preserves f (m >>= g) := by
  intro s c u hc
  obtain ⟨a,t,ha,hga⟩ := bind_eq_ok hc
  exact (hg a t c u hga).trans (h s a t ha)

theorem ite {c : Prop} [Decidable c] (h : Preserves f m) (h' : Preserves f m') :
    Preserves f (if c then m else m') := by
  split
  · exact h
  · exact h'

end Preserves

/-! ### Lockstep -/

/-- Outcomes with related values. -/
inductive Outcomes (R : α → β → Prop) : Except ε (α × σ) → Except ε (β × σ) → Prop
  | ok {a b} (s : σ) : R a b → Outcomes R (.ok (a,s)) (.ok (b,s))
  | error (e : ε) : Outcomes R (.error e) (.error e)

namespace Outcomes

theorem eq {x y : Except ε (α × σ)} (h : Outcomes (fun a b => a = b) x y) : x = y := by
  cases h with
  | ok s hab => rw [hab]
  | error e => rfl

end Outcomes

/-- The programs run in lockstep, with results related by `R`. -/
def Rel (R : α → β → Prop) (m : StateT σ (Except ε) α) (m' : StateT σ (Except ε) β) : Prop :=
  ∀ s, Outcomes R (m s) (m' s)

namespace Rel
variable {R : α → β → Prop} {S : γ → δ → Prop}
  {m : StateT σ (Except ε) α} {m' : StateT σ (Except ε) β}
  {f : α → StateT σ (Except ε) γ} {f' : β → StateT σ (Except ε) δ}

theorem pure {a : α} {b : β} (h : R a b) :
    Rel R (Pure.pure a : StateT σ (Except ε) α) (Pure.pure b : StateT σ (Except ε) β) :=
  fun s => .ok s h

/-- A program runs in lockstep with itself. -/
theorem refl (m : StateT σ (Except ε) α) : Rel (fun a b => a = b) m m := fun s => by
  cases m s with
  | error e => exact .error e
  | ok r => exact .ok r.2 rfl

/-- Sequences of two programs, the first of each from a state of its own. -/
theorem bind_at {s s' : σ} (h : Outcomes R (m s) (m' s'))
    (hf : ∀ a b, R a b → Rel S (f a) (f' b)) : Outcomes S ((m >>= f) s) ((m' >>= f') s') := by
  rw [bind_apply,bind_apply]
  generalize m s = x,m' s' = y at h
  cases h with
  | ok t hab => exact hf _ _ hab t
  | error e => exact .error e

theorem bind (h : Rel R m m') (hf : ∀ a b, R a b → Rel S (f a) (f' b)) :
    Rel S (m >>= f) (m' >>= f') := fun s => bind_at (h s) hf

/-- Programs in lockstep with equal results are equal. -/
theorem eq {m m' : StateT σ (Except ε) α} (h : Rel (fun a b => a = b) m m') : m = m' := by
  funext s
  exact (h s).eq

end Rel
end Lockstep
end RecycleBin
