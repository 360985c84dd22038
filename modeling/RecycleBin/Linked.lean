import Mathlib.Tactic

/-! Singly linked chains in a heap of cells. A cell holds a datum and the address
of the next cell; the heap is a partial function from addresses to cells. -/
namespace RecycleBin
namespace Linked

variable {A D : Type*}

/-- The cells of `l`, with their data, form the chain that starts at `p`. -/
def Chain (cell : A → Option (D × Option A)) : List (A × D) → Option A → Prop
  | [], p => p = none
  | (a,d)::l, p => p = some a ∧ ∃ n, cell a = some (d,n) ∧ Chain cell l n

variable {cell cell' : A → Option (D × Option A)} {l l₁ l₂ l₃ : List (A × D)} {p : Option A}

@[simp] theorem chain_nil : Chain cell [] p ↔ p = none := Iff.rfl

theorem chain_cons {x : A × D} :
    Chain cell (x::l) p ↔ p = some x.1 ∧ ∃ n, cell x.1 = some (x.2,n) ∧ Chain cell l n := Iff.rfl

namespace Chain

/-- A chain reads only its own cells. -/
theorem frame (h : Chain cell l p) (hc : ∀ a ∈ l.map Prod.fst, cell' a = cell a) :
    Chain cell' l p := by
  induction l generalizing p with
  | nil => exact h
  | cons x l ih =>
    obtain ⟨hp,n,hx,hl⟩ := chain_cons.mp h
    refine chain_cons.mpr ⟨hp,n,?_,ih hl fun a ha => hc a ?_⟩
    · rw [hc x.1 (by simp),hx]
    · exact List.mem_cons_of_mem _ ha

/-- The cell at a split of the chain, and the chain that follows it. -/
theorem cell_of_split {x : A × D} (h : Chain cell (l₁++x::l₂) p) :
    ∃ n, cell x.1 = some (x.2,n) ∧ Chain cell l₂ n := by
  induction l₁ generalizing p with
  | nil => exact (chain_cons.mp h).2
  | cons y l₁ ih =>
    obtain ⟨-,n,-,hl⟩ := chain_cons.mp h
    exact ih hl

theorem cell_of_mem {x : A × D} (h : Chain cell l p) (hx : x ∈ l) :
    ∃ n, cell x.1 = some (x.2,n) := by
  obtain ⟨l₁,l₂,rfl⟩ := List.append_of_mem hx
  obtain ⟨n,hn,-⟩ := h.cell_of_split
  exact ⟨n,hn⟩

variable [DecidableEq A]

/-- Rewriting one cell outside the chain keeps it. -/
theorem update_of_notMem {a : A} {c : Option (D × Option A)} (h : Chain cell l p)
    (ha : a ∉ l.map Prod.fst) : Chain (Function.update cell a c) l p := by
  refine h.frame fun b hb => Function.update_of_ne ?_ _ _
  rintro rfl
  exact ha hb

/-- Rewriting a cell of the chain replaces its datum and all that follows it. -/
theorem splice {x : A × D} {d : D} {n : Option A} (h : Chain cell (l₁++x::l₂) p)
    (h₃ : Chain cell l₃ n) (ha₁ : x.1 ∉ l₁.map Prod.fst) (ha₃ : x.1 ∉ l₃.map Prod.fst) :
    Chain (Function.update cell x.1 (some (d,n))) (l₁++(x.1,d)::l₃) p := by
  induction l₁ generalizing p with
  | nil =>
    exact ⟨(chain_cons.mp h).1,n,Function.update_self _ _ _,h₃.update_of_notMem ha₃⟩
  | cons y l₁ ih =>
    obtain ⟨hp,n',hy,hl⟩ := chain_cons.mp h
    rw [List.map_cons,List.mem_cons,not_or] at ha₁
    refine chain_cons.mpr ⟨hp,n',?_,ih hl ha₁.2⟩
    rw [Function.update_of_ne (Ne.symm ha₁.1),hy]

/-- A new cell in front of the chain. -/
theorem push {a : A} {d : D} (h : Chain cell l p) (ha : a ∉ l.map Prod.fst) :
    Chain (Function.update cell a (some (d,p))) ((a,d)::l) (some a) :=
  ⟨rfl,p,Function.update_self _ _ _,h.update_of_notMem ha⟩

end Chain
end Linked
end RecycleBin
