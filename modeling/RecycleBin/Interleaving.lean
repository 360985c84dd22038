import Mathlib.Data.List.Induction

/-! Traces that interleave the events of several parties, and properties of all prefixes of a
trace. -/
namespace RecycleBin
namespace Interleaving

section Parties
variable {E K S : Type*} [DecidableEq K] (key : E → K) (step : S → E → S) (init : S)

/-- The state a party is in after its own events of the trace. -/
def own (a : K) (es : List E) : S := (es.filter fun e => key e = a).foldl step init

variable {step init}

theorem own_concat_self {a : K} {e : E} (h : key e = a) (es : List E) :
    own key step init a (es++[e]) = step (own key step init a es) e := by
  simp [own,h]

theorem own_concat_ne {a : K} {e : E} (h : key e ≠ a) (es : List E) :
    own key step init a (es++[e]) = own key step init a es := by
  simp [own,h]

/-- What a step keeps, the state of every party has. -/
theorem own_invariant {I : S → Prop} (h0 : I init) (hs : ∀ s e, I s → I (step s e)) (a : K)
    (es : List E) : I (own key step init a es) := by
  induction es using List.reverseRecOn with
  | nil => exact h0
  | append_singleton es e ih =>
    by_cases h : key e = a
    · rw [own_concat_self key h]
      exact hs _ _ ih
    · rwa [own_concat_ne key h]

end Parties

section Prefixes
variable {E : Type*} {P : List E → Prop} {C : List E → E → Prop}

/-- Every prefix of a trace has a property exactly if every step meets its condition. -/
theorem forall_prefix_iff (h0 : P []) (hstep : ∀ pre e, P pre → (P (pre++[e]) ↔ C pre e))
    (es : List E) :
    (∀ pre, pre <+: es → P pre) ↔ ∀ pre e, pre++[e] <+: es → C pre e := by
  constructor
  · intro h pre e hpre
    have hp := h pre ((List.prefix_append pre [e]).trans hpre)
    exact (hstep pre e hp).mp (h _ hpre)
  · intro h pre hpre
    induction pre using List.reverseRecOn with
    | nil => exact h0
    | append_singleton pre e ih =>
      have hp := ih ((List.prefix_append pre [e]).trans hpre)
      exact (hstep pre e hp).mpr (h pre e hpre)

end Prefixes
end Interleaving
end RecycleBin
