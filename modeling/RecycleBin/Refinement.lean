import Mathlib.Tactic

/-! Outcomes of imperative code, and refinement of an executable state machine
by an abstract one over whole runs. An operation of the concrete machine may
stop at a fault; an operation of the abstract machine always has a result. -/
namespace RecycleBin

universe u

/-- Why an execution did not return: a run-time panic, an access the language
leaves undefined, or a loop that was cut off by its fuel. -/
inductive Fault
  | panic | undefined | exhausted
  deriving DecidableEq,Repr

section Except
variable {ε : Type*} {α β : Type u}

@[simp] theorem ok_bind (a : α) (f : α → Except ε β) : (Except.ok a >>= f) = f a := rfl
@[simp] theorem error_bind (e : ε) (f : α → Except ε β) :
    (Except.error e >>= f) = Except.error e := rfl
@[simp] theorem pure_eq_ok (a : α) : (pure a : Except ε α) = .ok a := rfl

theorem bind_eq_ok {x : Except ε α} {f : α → Except ε β} {b : β} :
    (x >>= f) = .ok b ↔ ∃ a, x = .ok a ∧ f a = .ok b := by
  cases x <;> simp

end Except

variable {σ Res : Type u} {A Op : Type*}

/-- Execute the operations in order and collect their results. -/
def runs (exec : Op → σ → Except Fault (Res × σ)) : List Op → σ → Except Fault (List Res × σ)
  | [], s => .ok ([],s)
  | op::ops, s => do
    let r ← exec op s
    let rs ← runs exec ops r.2
    .ok (r.1::rs.1,rs.2)

/-- The same sequence on the abstract machine. -/
def replay (spec : Op → A → Res × A) : List Op → A → List Res × A
  | [], a => ([],a)
  | op::ops, a =>
    let r := spec op a
    let rs := replay spec ops r.2
    (r.1::rs.1,rs.2)

/-- Every operation of the sequence is legal in the abstract state it meets. -/
def LegalRun (legal : Op → A → Prop) (spec : Op → A → Res × A) : List Op → A → Prop
  | [], _ => True
  | op::ops, a => legal op a ∧ LegalRun legal spec ops (spec op a).2

/-- One legal operation keeps the refinement relation and has the abstract result. -/
def Refines (exec : Op → σ → Except Fault (Res × σ)) (spec : Op → A → Res × A)
    (legal : Op → A → Prop) (R : σ → A → Prop) : Prop :=
  ∀ op s a, R s a → legal op a → ∃ s', exec op s = .ok ((spec op a).1,s') ∧ R s' (spec op a).2

section Runs
variable {exec : Op → σ → Except Fault (Res × σ)} {spec : Op → A → Res × A}
  {legal : Op → A → Prop} {R : σ → A → Prop}

@[simp] theorem runs_nil (s : σ) : runs exec [] s = .ok ([],s) := rfl

theorem runs_cons (op : Op) (ops : List Op) (s : σ) :
    runs exec (op::ops) s =
      (exec op s >>= fun r => runs exec ops r.2 >>= fun rs => .ok (r.1::rs.1,rs.2)) := rfl

/-- A run is a first operation followed by a run from the state it left. -/
theorem runs_cons_eq_ok {op : Op} {ops : List Op} {s s' : σ} {rs : List Res} :
    runs exec (op::ops) s = .ok (rs,s') ↔
      ∃ r s₁ rs', exec op s = .ok (r,s₁) ∧ runs exec ops s₁ = .ok (rs',s') ∧ rs = r::rs' := by
  rw [runs_cons,bind_eq_ok]
  constructor
  · rintro ⟨⟨r,s₁⟩,h₁,h⟩
    obtain ⟨⟨rs',s₂⟩,h₂,h₃⟩ := bind_eq_ok.mp h
    simp only [Except.ok.injEq,Prod.mk.injEq] at h₃
    obtain ⟨rfl,rfl⟩ := h₃
    exact ⟨r,s₁,rs',h₁,h₂,rfl⟩
  · rintro ⟨r,s₁,rs',h₁,h₂,rfl⟩
    exact ⟨(r,s₁),h₁,by simp [h₂]⟩

/-- A refinement of single operations is a refinement of every legal run. -/
theorem Refines.runs (h : Refines exec spec legal R) (ops : List Op) (s : σ) (a : A)
    (hR : R s a) (hl : LegalRun legal spec ops a) :
    ∃ s', RecycleBin.runs exec ops s = .ok ((replay spec ops a).1,s') ∧
      R s' (replay spec ops a).2 := by
  induction ops generalizing s a with
  | nil => exact ⟨s,rfl,hR⟩
  | cons op ops ih =>
    obtain ⟨s₁,h₁,hR₁⟩ := h op s a hR hl.1
    obtain ⟨s₂,h₂,hR₂⟩ := ih s₁ (spec op a).2 hR₁ hl.2
    exact ⟨s₂,runs_cons_eq_ok.mpr ⟨_,s₁,_,h₁,h₂,rfl⟩,hR₂⟩

theorem runs_append (ops₁ ops₂ : List Op) (s : σ) :
    RecycleBin.runs exec (ops₁++ops₂) s = (do
      let r ← RecycleBin.runs exec ops₁ s
      let rs ← RecycleBin.runs exec ops₂ r.2
      .ok (r.1++rs.1,rs.2)) := by
  induction ops₁ generalizing s with
  | nil =>
    rcases h : RecycleBin.runs exec ops₂ s with e | r <;> simp [h]
  | cons op ops₁ ih =>
    rw [List.cons_append,runs_cons,runs_cons]
    rcases exec op s with e | r
    · rfl
    simp only [ok_bind,ih]
    rcases RecycleBin.runs exec ops₁ r.2 with e | r₁
    · rfl
    simp only [ok_bind]
    rcases RecycleBin.runs exec ops₂ r₁.2 with e | r₂ <;> rfl

theorem replay_append (ops₁ ops₂ : List Op) (a : A) :
    replay spec (ops₁++ops₂) a =
      ((replay spec ops₁ a).1++(replay spec ops₂ (replay spec ops₁ a).2).1,
        (replay spec ops₂ (replay spec ops₁ a).2).2) := by
  induction ops₁ generalizing a with
  | nil => rfl
  | cons op ops₁ ih => simp only [List.cons_append,replay,ih]

theorem legalRun_append (ops₁ ops₂ : List Op) (a : A) :
    LegalRun legal spec (ops₁++ops₂) a ↔
      LegalRun legal spec ops₁ a ∧ LegalRun legal spec ops₂ (replay spec ops₁ a).2 := by
  induction ops₁ generalizing a with
  | nil => simp [LegalRun,replay]
  | cons op ops₁ ih => simp only [List.cons_append,LegalRun,replay,ih,and_assoc]

theorem LegalRun.and {legal' : Op → A → Prop} {ops : List Op} {a : A}
    (h : LegalRun legal spec ops a) (h' : LegalRun legal' spec ops a) :
    LegalRun (fun op a => legal op a ∧ legal' op a) spec ops a := by
  induction ops generalizing a with
  | nil => trivial
  | cons op ops ih => exact ⟨⟨h.1,h'.1⟩,ih h.2 h'.2⟩

theorem LegalRun.mono {legal' : Op → A → Prop} (hm : ∀ op a, legal op a → legal' op a)
    {ops : List Op} {a : A} (h : LegalRun legal spec ops a) : LegalRun legal' spec ops a := by
  induction ops generalizing a with
  | nil => trivial
  | cons op ops ih => exact ⟨hm op a h.1,ih h.2⟩

/-- The run returns, with exactly the results of the abstract machine. -/
def Agrees (exec : Op → σ → Except Fault (Res × σ)) (spec : Op → A → Res × A) (ops : List Op)
    (s : σ) (a : A) : Prop :=
  ∃ s', RecycleBin.runs exec ops s = .ok ((replay spec ops a).1,s')

theorem agrees_nil (s : σ) (a : A) : Agrees exec spec [] s a := ⟨s,rfl⟩

/-- A first operation that returns has to have the abstract result. -/
theorem agrees_cons_ok {op : Op} {ops : List Op} {s t : σ} {a : A} {r : Res}
    (h : exec op s = .ok (r,t)) :
    Agrees exec spec (op::ops) s a ↔
      r = (spec op a).1 ∧ Agrees exec spec ops t (spec op a).2 := by
  constructor
  · rintro ⟨s',hs'⟩
    obtain ⟨r',t',rs,h₁,h₂,h₃⟩ := runs_cons_eq_ok.mp hs'
    rw [h] at h₁
    cases h₁
    obtain ⟨hr,hrs⟩ := List.cons_eq_cons.mp h₃
    exact ⟨hr.symm,s',hrs ▸ h₂⟩
  · rintro ⟨hr,s',hs'⟩
    refine ⟨s',runs_cons_eq_ok.mpr ⟨r,t,_,h,hs',?_⟩⟩
    rw [hr]
    rfl

theorem not_agrees_cons {op : Op} {ops : List Op} {s : σ} {a : A} {e : Fault}
    (h : exec op s = .error e) : ¬Agrees exec spec (op::ops) s a := by
  rintro ⟨s',hs'⟩
  rw [runs_cons,h] at hs'
  cases hs'

theorem legalRun_true (ops : List Op) (a : A) : LegalRun (fun _ _ => True) spec ops a := by
  induction ops generalizing a with
  | nil => trivial
  | cons op ops ih => exact ⟨trivial,ih _⟩

end Runs
end RecycleBin
