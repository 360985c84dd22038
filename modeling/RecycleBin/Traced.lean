import Mathlib.Data.List.Basic

/-! Runs that leave a trace and may stop before they have a result. -/
namespace RecycleBin
namespace Traced

abbrev Run (E α : Type*) := List E × Option α

variable {E α β γ : Type*}

def ret (a : α) : Run E α := ([],some a)

def halt : Run E α := ([],none)

/-- One event, and what it ends with. -/
def emit (e : E) (r : Option α) : Run E α := ([e],r)

/-- A step without events. -/
def lift (r : Option α) : Run E α := ([],r)

/-- The second run begins where the first ends, unless that stops. -/
def Run.bind (r : Run E α) (f : α → Run E β) : Run E β :=
  match r with
  | (es,none) => (es,none)
  | (es,some a) => (es++(f a).1,(f a).2)

@[simp] theorem ret_fst (a : α) : (ret a : Run E α).1 = [] := rfl

@[simp] theorem ret_snd (a : α) : (ret a : Run E α).2 = some a := rfl

@[simp] theorem halt_snd : (halt : Run E α).2 = none := rfl

@[simp] theorem ret_bind (a : α) (f : α → Run E β) : (ret a : Run E α).bind f = f a := rfl

@[simp] theorem halt_bind (f : α → Run E β) : (halt : Run E α).bind f = halt := rfl

@[simp] theorem emit_none_bind (e : E) (f : α → Run E β) :
    (emit e none).bind f = emit e none := rfl

@[simp] theorem emit_some_bind (e : E) (a : α) (f : α → Run E β) :
    (emit e (some a)).bind f = (e::(f a).1,(f a).2) := rfl

theorem bind_bind (r : Run E α) (f : α → Run E β) (g : β → Run E γ) :
    (r.bind f).bind g = r.bind fun a => (f a).bind g := by
  obtain ⟨es,_ | a⟩ := r
  · rfl
  · rcases hf : f a with ⟨es',_ | b⟩
    · simp [Run.bind,hf]
    · simp [Run.bind,hf]

theorem bind_nil_fst (r : Run E α) (f : α → Run E β) (hf : ∀ a, (f a).1 = []) :
    (r.bind f).1 = r.1 := by
  obtain ⟨es,_ | a⟩ := r
  · rfl
  · simp [Run.bind,hf a]

@[simp] theorem bind_snd (r : Run E α) (f : α → Run E β) :
    (r.bind f).2 = r.2.bind fun a => (f a).2 := by
  obtain ⟨es,_ | a⟩ := r <;> rfl

/-! ### Conditions on the events and on the result -/

/-- Every event satisfies `P`, and so does the result, if there is one, `Q`. -/
def Run.Meets (P : E → Prop) (Q : α → Prop) (r : Run E α) : Prop :=
  (∀ e ∈ r.1, P e) ∧ ∀ a, r.2 = some a → Q a

variable {P : E → Prop} {Q : α → Prop} {R : β → Prop}

theorem meets_lift {r : Option α} (h : ∀ a, r = some a → Q a) : (lift r).Meets P Q :=
  ⟨fun _ he => absurd he List.not_mem_nil,h⟩

theorem meets_ret {a : α} (h : Q a) : (ret a).Meets P Q :=
  meets_lift (r:=some a) fun _ hb => Option.some.inj hb ▸ h

theorem meets_halt : (halt : Run E α).Meets P Q :=
  meets_lift (r:=none) fun a ha => by cases ha

theorem meets_emit {e : E} {a : α} (he : P e) (ha : Q a) : (emit e (some a)).Meets P Q := by
  constructor
  · intro e' he'
    exact List.mem_singleton.mp he' ▸ he
  · intro b hb
    exact Option.some.inj hb ▸ ha

theorem Run.Meets.bind {r : Run E α} {f : α → Run E β} (h : r.Meets P Q)
    (hf : ∀ a, Q a → (f a).Meets P R) : (r.bind f).Meets P R := by
  obtain ⟨es,_ | a⟩ := r
  · exact ⟨h.1,fun b hb => by cases hb⟩
  · have ha := hf a (h.2 a rfl)
    refine ⟨fun e he => ?_,ha.2⟩
    rcases List.mem_append.mp he with he | he
    · exact h.1 e he
    · exact ha.1 e he

end Traced
end RecycleBin
