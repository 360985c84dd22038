import Mathlib.Data.List.Infix
import Mathlib.Tactic

/-!
# Lexical resolution of paths

A path is a list of components. Resolving it step by step from a place is the same as
climbing a number of levels once and going down once; this gives a condition for
the result to lie below the place.
-/

namespace RecycleBin
namespace Paths

variable {α : Type}

/-- `.`, `..` or a name. -/
inductive Comp (α : Type)
  | cur | up | name (a : α)
  deriving DecidableEq

/-- A number of levels above the start, and the names below that, innermost first. -/
@[ext] structure Place (α : Type) where
  ups : ℕ
  names : List α
  deriving DecidableEq

/-- One component. Where paths are rooted, `..` stays at the root. -/
def step (rooted : Bool) (p : Place α) : Comp α → Place α
  | .cur => p
  | .name a => ⟨p.ups,a::p.names⟩
  | .up =>
    match p.names with
    | _::ns => ⟨p.ups,ns⟩
    | [] => if rooted then p else ⟨p.ups+1,[]⟩

def resolve (rooted : Bool) (p : Place α) (cs : List (Comp α)) : Place α :=
  cs.foldl (step rooted) p

def start : Place α := ⟨0,[]⟩

/-- How far the components climb in all, and what they go down to from there. -/
def reduce (cs : List (Comp α)) : Place α :=
  resolve false start cs

/-- `n` is `d` or lies below it. -/
def Under (d n : Place α) : Prop :=
  n.ups = d.ups ∧ d.names <:+ n.names

instance [DecidableEq α] (d n : Place α) : Decidable (Under d n) :=
  inferInstanceAs (Decidable (_ ∧ _))

/-- Climb `q.ups` levels from `p`, then go down to `q.names`. -/
def land (rooted : Bool) (p q : Place α) : Place α where
  ups := if rooted ∨ q.ups ≤ p.names.length then p.ups else p.ups+(q.ups-p.names.length)
  names := q.names++p.names.drop q.ups

theorem resolve_append (rooted : Bool) (p : Place α) (cs cs' : List (Comp α)) :
    resolve rooted p (cs++cs') = resolve rooted (resolve rooted p cs) cs' :=
  List.foldl_append

@[simp] theorem resolve_cons (rooted : Bool) (p : Place α) (c : Comp α) (cs : List (Comp α)) :
    resolve rooted p (c::cs) = resolve rooted (step rooted p c) cs := rfl

theorem land_start (rooted : Bool) (p : Place α) : land rooted p start = p := by
  simp [land,start]

theorem step_up_nil (p : Place α) (h : p.names = []) (rooted : Bool) :
    step rooted p .up = if rooted then p else ⟨p.ups+1,[]⟩ := by
  simp only [step,h]

theorem step_up_cons {p : Place α} {n : α} {ns : List α} (h : p.names = n::ns) (rooted : Bool) :
    step rooted p .up = ⟨p.ups,ns⟩ := by
  simp only [step,h]

/-- A step after landing is a step of what is still to be landed. -/
theorem step_land (rooted : Bool) (p q : Place α) (c : Comp α) :
    step rooted (land rooted p q) c = land rooted p (step false q c) := by
  cases c with
  | cur => rfl
  | name a => rfl
  | up =>
    rcases hq : q.names with _ | ⟨n,ns⟩
    · have hnames : (land rooted p q).names = p.names.drop q.ups := by simp [land,hq]
      rw [step_up_nil q hq false]
      rcases lt_or_ge q.ups p.names.length with hlt | hge
      · -- the climb takes a name of `p`
        rw [List.drop_eq_getElem_cons hlt] at hnames
        rw [step_up_cons hnames]
        simp only [land,Bool.false_eq_true,if_false,List.nil_append]
        rw [if_pos (Or.inr hlt.le),if_pos (Or.inr (by omega))]
      · rw [List.drop_eq_nil_of_le hge] at hnames
        rw [step_up_nil _ hnames]
        have hdrop : p.names.drop (q.ups+1) = [] := List.drop_eq_nil_of_le (by omega)
        cases rooted with
        | true =>
          have hdrop' : p.names.drop q.ups = [] := List.drop_eq_nil_of_le hge
          simp only [land,hq,hdrop,hdrop',true_or,if_true,Bool.false_eq_true,if_false]
        | false =>
          have hups : (land false p q).ups = p.ups+(q.ups-p.names.length) := by
            simp only [land,Bool.false_eq_true,false_or]
            split_ifs <;> omega
          have hups' : (land false p ⟨q.ups+1,[]⟩).ups = p.ups+(q.ups+1-p.names.length) := by
            simp only [land,Bool.false_eq_true,false_or]
            split_ifs <;> omega
          apply Place.ext
          · simp only [Bool.false_eq_true,if_false,hups,hups']
            omega
          · simp only [Bool.false_eq_true,if_false,land,hdrop,List.append_nil]
    · have hnames : (land rooted p q).names = n::(ns++p.names.drop q.ups) := by simp [land,hq]
      rw [step_up_cons hnames,step_up_cons hq]
      rfl

/-- Resolving is climbing once and going down once. -/
theorem resolve_eq_land (rooted : Bool) (p : Place α) (cs : List (Comp α)) :
    resolve rooted p cs = land rooted p (reduce cs) := by
  have hgen : ∀ q : Place α, resolve rooted (land rooted p q) cs = land rooted p (resolve false q cs) := by
    induction cs with
    | nil => exact fun q => rfl
    | cons c cs ih =>
      intro q
      rw [resolve_cons,resolve_cons,step_land]
      exact ih (step false q c)
  have h := hgen start
  rwa [land_start] at h

theorem suffix_append_cancel {a w b : List α} : a++b <:+ w++b ↔ a <:+ w := by
  rw [← List.reverse_prefix,← List.reverse_prefix,List.reverse_append,List.reverse_append]
  exact List.prefix_append_right_inj b.reverse

/-- The condition to come back: what goes down begins with the names that were climbed. -/
def Returns (rooted : Bool) (p : Place α) (c : Comp α) (q : Place α) : Prop :=
  match c with
  | .cur => p.names.take q.ups <:+ q.names ∧ (rooted = true ∨ q.ups ≤ p.names.length)
  | .name a => a::p.names.take q.ups <:+ q.names ∧ (rooted = true ∨ q.ups ≤ p.names.length)
  | .up =>
    match p.names with
    | _::ns => q.ups = 0 ∨
        ns.take (q.ups-1) <:+ q.names ∧ (rooted = true ∨ q.ups ≤ ns.length+1)
    | [] => rooted = true ∨ q.ups = 1

theorem land_ups_eq_iff {rooted : Bool} {p q : Place α} :
    (land rooted p q).ups = p.ups ↔ rooted = true ∨ q.ups ≤ p.names.length := by
  simp only [land]
  split_ifs with h
  · exact iff_of_true rfl h
  · refine iff_of_false ?_ h
    push Not at h
    omega

/-- Where a walk from `p` ends below the place one component `c` leads to. -/
theorem under_step_iff (rooted : Bool) (p : Place α) (c : Comp α) (cs : List (Comp α)) :
    Under (step rooted p c) (resolve rooted p cs) ↔ Returns rooted p c (reduce cs) := by
  rw [resolve_eq_land]
  generalize reduce cs = q
  have hcancel : ∀ l : List α, l++p.names.drop q.ups <:+ (land rooted p q).names ↔ l <:+ q.names :=
    fun l => suffix_append_cancel
  cases c with
  | cur =>
    have h := hcancel (p.names.take q.ups)
    rw [List.take_append_drop] at h
    rw [Under,and_comm]
    exact and_congr h land_ups_eq_iff
  | name a =>
    have h := hcancel (a::p.names.take q.ups)
    rw [List.cons_append,List.take_append_drop] at h
    rw [Under,and_comm]
    exact and_congr h land_ups_eq_iff
  | up =>
    rcases hp : p.names with _ | ⟨n,ns⟩
    · have hnil : ∀ n : Place α, [] <:+ n.names := fun n => List.nil_suffix
      rw [step_up_nil p hp]
      cases rooted with
      | true =>
        rw [if_pos rfl,Under,hp]
        exact iff_of_true ⟨land_ups_eq_iff.mpr (Or.inl rfl),hnil _⟩ (by simp [Returns,hp])
      | false =>
        have hups : (land false p q).ups = p.ups+q.ups := by
          simp only [land,hp,List.length_nil,Nat.le_zero,Nat.sub_zero,Bool.false_eq_true,false_or]
          split_ifs <;> omega
        simp only [Bool.false_eq_true,if_false,Under,hups,Returns,hp,hnil,and_true,false_or]
        omega
    · rw [step_up_cons hp,Under]
      have hups : (land rooted p q).ups = p.ups ↔ rooted = true ∨ q.ups ≤ ns.length+1 := by
        rw [land_ups_eq_iff,hp,List.length_cons]
      have hnames : (land rooted p q).names = q.names++(n::ns).drop q.ups := by rw [land,hp]
      simp only [Returns,hp]
      rcases hk : q.ups with _ | k
      · refine iff_of_true ⟨hups.mpr (Or.inr (by omega)),?_⟩ (Or.inl rfl)
        rw [hnames,hk]
        exact ⟨q.names++[n],by simp⟩
      · have h : ns.take k++ns.drop k <:+ q.names++ns.drop k ↔ ns.take k <:+ q.names :=
          suffix_append_cancel
        rw [List.take_append_drop] at h
        rw [hnames,hk,List.drop_succ_cons,h,hups,hk,and_comm]
        simp

end Paths
end RecycleBin
