import RecycleBin.StrMatch

/-! Optional characters and alternatives in `str_match`: the language that a format denotes, and
the one way through it that the matcher takes. -/
namespace RecycleBin
namespace StrMatchChoice
open AntHash AntVisited StrMatch

/-- A part of a format: a character, an optional one, or alternatives. -/
inductive Item
  | lit (c : UInt8)
  | opt (c : UInt8)
  | alt (as : List Bytes)
  deriving DecidableEq

/-- The alternatives with bars between them. -/
def groupText : List Bytes → Bytes
  | [] => []
  | [a] => a
  | a::b::as => a++124::groupText (b::as)

namespace Item

/-- How a part is written: `c`, `c%?`, `%{a|b}`. -/
def text : Item → Bytes
  | lit c => [c]
  | opt c => [c,37,63]
  | alt as => 37::123::(groupText as++[125])

def Valid : Item → Prop
  | lit c => c ≠ 37 ∧ c ≠ 0
  | opt c => c ≠ 37 ∧ c ≠ 0
  | alt as => as ≠ [] ∧ ∀ a ∈ as,∀ b ∈ a,isBar b = false ∧ b ≠ 37 ∧ b ≠ 0

end Item

def formatText (items : List Item) : Bytes := items.flatMap Item.text

/-- A format of characters, optional ones and alternatives. -/
structure Format where
  items : List Item
  valid : ∀ i ∈ items,i.Valid

/-! ### The language -/

/-- The texts that a format stands for. -/
inductive Denotes : List Item → Bytes → Prop
  | nil : Denotes [] []
  | lit {c is s} : Denotes is s → Denotes (.lit c::is) (c::s)
  | absent {c is s} : Denotes is s → Denotes (.opt c::is) s
  | present {c is s} : Denotes is s → Denotes (.opt c::is) (c::s)
  | alt {as a is s} : a ∈ as → Denotes is s → Denotes (.alt as::is) (a++s)

/-- How the choices that fit first end: at the end of both, at a character that does not fit or
behind one of them, at a group whose first fit is empty, or at a group without one. -/
inductive Outcome
  | done
  | stuck
  | empty
  | past (s : Bytes) (rest : List Item)
  deriving DecidableEq

section Choose
variable {s f a : Bytes} {b : UInt8}

end Choose

/-! ### Runs -/

section Run
variable {is : List Item} {s : Bytes} {r : Bool}

theorem turn_mark (n : ℕ) (s f : Bytes) : turn n s (37::63::f) = .ok (.inr (s,f)) := by
  rw [turn_percent (.inl rfl)]
  rfl

theorem turn_group (n : ℕ) (s g : Bytes) :
    turn n s (37::123::g) = .ok ((choose s g).elim (.inl false) .inr) := by
  rw [turn_percent (.inl rfl)]
  rfl

end Run

/-! ### The matcher returns -/

/-- Behind each `%` stands the mark of an optional character or the brace of a group. -/
def Tame : Bytes → Prop
  | [] => True
  | b::f => (b = 37 → peek f = 63 ∨ peek f = 123) ∧ Tame f

theorem Tame.of_suffix {f g : Bytes} (h : Tame f) (hg : g <:+ f) : Tame g := by
  obtain ⟨a,rfl⟩ := hg
  induction a with
  | nil => exact h
  | cons b a ih => exact ih h.2

theorem matchAlternative_suffix (f : Bytes) : ∀ s,(matchAlternative s f).2 <:+ f := by
  induction f with
  | nil => exact fun s => List.suffix_refl _
  | cons b f ih =>
    intro s
    rw [matchAlternative]
    split_ifs
    · exact (ih s.tail).trans (List.suffix_cons b f)
    · exact List.suffix_refl _

theorem choose_suffix (s f : Bytes) : ∀ {p},choose s f = some p → p.2 <:+ f := by
  fun_induction choose s f with
  | case1 f h =>
    intro p hp
    cases hp
  | case2 f h hbar =>
    intro p hp
    cases hp
    exact (List.tail_suffix _).trans ((List.dropWhile_suffix _).trans (matchAlternative_suffix f s))
  | case3 f h hbar hdrop =>
    intro p hp
    cases hp
  | case4 f h r hbar b rest hdrop =>
    rename_i ih
    intro p hp
    have hrest : b::rest <:+ r.2 := hdrop ▸ List.dropWhile_suffix _
    exact (ih hp).trans ((List.suffix_cons b rest).trans (hrest.trans (matchAlternative_suffix f s)))

theorem Tame.sound {fmt : Bytes} (h : Tame fmt) : Sound fmt := by
  rintro f rfl
  have hpeek := h.1 rfl
  cases f with
  | nil => exact absurd hpeek (by decide)
  | cons b g =>
    have hdigit : isdigit b = false := by rcases hpeek with rfl | rfl <;> decide
    have hset : b ≠ 91 := by rcases hpeek with rfl | rfl <;> decide
    have htake : (b::g).takeWhile isdigit = [] := by rw [List.takeWhile_cons,hdigit]; rfl
    have hdrop : (b::g).dropWhile isdigit = b::g := by rw [List.dropWhile_cons,hdigit]; rfl
    exact ⟨.inl htake,b,g,hdrop,fun h => absurd h hset⟩

theorem Tame.goes {p q : Bytes × Bytes} (h : Tame p.2) (hgo : Goes p q) : Tame q.2 := by
  obtain ⟨s,fmt⟩ := p
  refine h.of_suffix ?_
  rw [Goes] at hgo
  cases fmt with
  | nil => cases hgo
  | cons b f =>
    by_cases hb : b = 37
    · subst hb
      have hpeek := h.1 rfl
      cases f with
      | nil => exact absurd hpeek (by decide)
      | cons c g =>
        have hcg : g <:+ 37::c::g := (List.suffix_cons c g).trans (List.suffix_cons 37 (c::g))
        rcases hpeek with rfl | rfl
        · rw [turn_mark] at hgo
          cases hgo
          exact hcg
        · rw [turn_group] at hgo
          cases hchoose : choose s g with
          | none => rw [hchoose] at hgo; cases hgo
          | some p =>
            rw [hchoose] at hgo
            cases hgo
            exact (choose_suffix s g hchoose).trans hcg
    · rw [turn_char hb] at hgo
      split_ifs at hgo <;> cases hgo <;> exact List.suffix_cons b f

/-- Whatever the text is, the matcher returns on such a format. -/
theorem Tame.returns {fmt : Bytes} (h : Tame fmt) (s : Bytes) : ∃ r,Returns s fmt r := by
  rw [returns_iff_sound]
  intro q hq
  have htame : Tame q.2 := by
    induction hq with
    | refl => exact h
    | tail _ hgo ih => exact ih.goes hgo
  exact htame.sound

/-! ### Acceptance -/

/-- `str_match` returns 1 exactly on the texts that the format stands for. -/
def Decides (fm : Format) (s : Bytes) : Prop :=
  ∃ r,Returns s (formatText fm.items) r ∧ (r = true ↔ Denotes fm.items s)

end StrMatchChoice
end RecycleBin
