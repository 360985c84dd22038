import Mathlib.Tactic

/-! Runs of a transition system, for interleavings of several threads. A guard
restricts the steps a run may take. Where the steps are labelled with actions, a list
of actions determines a run. -/
namespace RecycleBin

variable {σ : Type*}

/-- The states some run reaches from `init`. -/
inductive Reach (init : σ) (step : σ → σ → Prop) : σ → Prop
  | start : Reach init step init
  | next {s t} : Reach init step s → step s t → Reach init step t

/-- The steps of the system that meet the guard. -/
def Guarded (guard step : σ → σ → Prop) (s t : σ) : Prop := step s t ∧ guard s t

variable {Act : Type*}

/-- The steps of a machine that takes actions, with the actions the guard admits. -/
def Via (guard : Act → σ → Prop) (exec : Act → σ → Option σ) (s t : σ) : Prop :=
  ∃ a, guard a s ∧ exec a s = some t

/-- Take the actions in order, each admitted where it is taken. -/
def path (guard : Act → σ → Prop) [∀ a s, Decidable (guard a s)] (exec : Act → σ → Option σ) :
    List Act → σ → Option σ
  | [], s => some s
  | a::as, s => if guard a s then (exec a s).bind (path guard exec as) else none

namespace Reach
variable {init : σ} {step guard : σ → σ → Prop}

/-- What holds initially and is kept by every step holds of every reachable state. -/
theorem invariant {I : σ → Prop} (h0 : I init) (hs : ∀ s t, I s → step s t → I t) {s : σ}
    (h : Reach init step s) : I s := by
  induction h with
  | start => exact h0
  | next _ hst ih => exact hs _ _ ih hst

/-- A run of guarded steps is a run. -/
theorem of_guarded {s : σ} (h : Reach init (Guarded guard step) s) : Reach init step s := by
  induction h with
  | start => exact .start
  | next _ hst ih => exact .next ih hst.1

theorem mono {step' : σ → σ → Prop} (hs : ∀ s t, Reach init step s → step s t → step' s t) {s : σ}
    (h : Reach init step s) : Reach init step' s := by
  induction h with
  | start => exact .start
  | next hr hst ih => exact .next ih (hs _ _ hr hst)

/-- A list of admitted actions is a run. -/
theorem of_path {guard : Act → σ → Prop} [∀ a s, Decidable (guard a s)]
    {exec : Act → σ → Option σ} {l : List Act} {s t : σ} (h : Reach init (Via guard exec) s)
    (hp : path guard exec l s = some t) : Reach init (Via guard exec) t := by
  induction l generalizing s with
  | nil =>
    cases hp
    exact h
  | cons a l ih =>
    rw [path] at hp
    split_ifs at hp with hg
    obtain ⟨u,hu,hut⟩ := Option.bind_eq_some_iff.mp hp
    exact ih (.next h ⟨a,hg,hu⟩) hut

end Reach
end RecycleBin
