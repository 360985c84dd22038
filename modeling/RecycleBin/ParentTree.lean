import Mathlib.Tactic

/-! Trees of linked cells in which every cell points back to its parent. Only the pointers
and the keys of the cells are seen here. -/
namespace RecycleBin
namespace ParentTree

universe u v

/-- Where the pointers of the cells lead. -/
structure Wiring (A : Type u) (K : Type v) where
  root : Option A
  left : A → Option A
  right : A → Option A
  parent : A → Option A
  key : A → Option K

variable {A : Type u} {K : Type v}

namespace Wiring
variable [DecidableEq A]

@[simps] def setLeft (w : Wiring A K) (a : A) (x : Option A) : Wiring A K :=
  { w with left := Function.update w.left a x }

@[simps] def setRight (w : Wiring A K) (a : A) (x : Option A) : Wiring A K :=
  { w with right := Function.update w.right a x }

@[simps] def setParent (w : Wiring A K) (a : A) (x : Option A) : Wiring A K :=
  { w with parent := Function.update w.parent a x }

@[simps] def setRoot (w : Wiring A K) (x : Option A) : Wiring A K := { w with root := x }

/-- A child that may be nil gets a parent. -/
def adopt (w : Wiring A K) (c x : Option A) : Wiring A K :=
  match c with
  | none => w
  | some a => w.setParent a x

section Lemmas
variable {w : Wiring A K} {a : A} {c x : Option A}

theorem setParent_same (h : w.parent a = x) : w.setParent a x = w := by
  rw [setParent,← h,Function.update_eq_self]

@[simp] theorem adopt_root : (w.adopt c x).root = w.root := by cases c <;> rfl
@[simp] theorem adopt_left : (w.adopt c x).left = w.left := by cases c <;> rfl
@[simp] theorem adopt_right : (w.adopt c x).right = w.right := by cases c <;> rfl
@[simp] theorem adopt_key : (w.adopt c x).key = w.key := by cases c <;> rfl

theorem adopt_parent (h : c ≠ some a) : (w.adopt c x).parent a = w.parent a := by
  rcases c with _ | b
  · rfl
  · exact Function.update_of_ne (fun hab => h (by rw [hab])) _ _

end Lemmas

end Wiring

/-- The cells below `p` hold these keys in order; the parent of the topmost is `q`. -/
inductive Wired (w : Wiring A K) : Option A → Option A → List K → Prop
  | nil {q : Option A} : Wired w q none []
  | node {q : Option A} {a : A} {k : K} {l r : List K} (key : w.key a = some k)
      (parent : w.parent a = q) (left : Wired w (some a) (w.left a) l)
      (right : Wired w (some a) (w.right a) r) : Wired w q (some a) (l++k::r)

/-- The child pointers lead from `p` to the cell. -/
inductive Below (w : Wiring A K) : Option A → A → Prop
  | here (a : A) : Below w (some a) a
  | left {a b : A} (h : Below w (w.left a) b) : Below w (some a) b
  | right {a b : A} (h : Below w (w.right a) b) : Below w (some a) b

/-- One cell is a child of the other. -/
def Child (w : Wiring A K) (a x : A) : Prop := w.left a = some x ∨ w.right a = some x

variable {w : Wiring A K} {p q : Option A} {a b x : A} {k : K} {ks : List K}

namespace Below

theorem child (h : Below w p a) (hx : Child w a x) : Below w p x := by
  induction h with
  | here a =>
    rcases hx with hx | hx
    · exact .left (hx ▸ .here x)
    · exact .right (hx ▸ .here x)
  | left h ih => exact .left (ih hx)
  | right h ih => exact .right (ih hx)

/-- A set that is closed under the child pointers contains what is below its members. -/
theorem mem {S : Set A} (h : Below w p a) (hp : ∀ b, p = some b → b ∈ S)
    (hS : ∀ b ∈ S, ∀ x, Child w b x → x ∈ S) : a ∈ S := by
  induction h with
  | here a => exact hp a rfl
  | @left a b h ih => exact ih fun x hx => hS a (hp a rfl) x (.inl hx)
  | @right a b h ih => exact ih fun x hx => hS a (hp a rfl) x (.inr hx)

end Below

namespace Wired

/-- Every cell below holds one of the keys. -/
theorem key_mem (h : Wired w q p ks) (ha : Below w p a) : ∃ k ∈ ks, w.key a = some k := by
  induction h with
  | nil => cases ha
  | node key parent left right ihl ihr =>
    cases ha with
    | here => exact ⟨_,by simp,key⟩
    | left ha =>
      obtain ⟨k,hk,he⟩ := ihl ha
      exact ⟨k,by simp [hk],he⟩
    | right ha =>
      obtain ⟨k,hk,he⟩ := ihr ha
      exact ⟨k,by simp [hk],he⟩

/-- Every key is held by a cell below. -/
theorem exists_below (h : Wired w q p ks) (hk : k ∈ ks) : ∃ a, Below w p a ∧ w.key a = some k := by
  induction h with
  | nil => cases hk
  | @node q a k' l r key parent left right ihl ihr =>
    rcases List.mem_append.mp hk with hk | hk
    · obtain ⟨b,hb,he⟩ := ihl hk
      exact ⟨b,.left hb,he⟩
    · rcases List.mem_cons.mp hk with rfl | hk
      · exact ⟨a,.here a,key⟩
      · obtain ⟨b,hb,he⟩ := ihr hk
        exact ⟨b,.right hb,he⟩

/-- No two cells below hold the same key. -/
theorem key_inj (h : Wired w q p ks) (hks : ks.Nodup) (ha : Below w p a) (hb : Below w p b)
    (hab : w.key a = w.key b) : a = b := by
  induction h with
  | nil => cases ha
  | @node q c k l r key parent left right ihl ihr =>
    obtain ⟨hl,hkr,hdisj⟩ := List.nodup_append.mp hks
    obtain ⟨hk,hr⟩ := List.nodup_cons.mp hkr
    have hcl : ∀ {y : A}, Below w (w.left c) y → w.key y ≠ some k := by
      intro y hy he
      obtain ⟨k',hk',he'⟩ := left.key_mem hy
      exact hdisj k' hk' k (by simp) (Option.some.inj (he'.symm.trans he))
    have hcr : ∀ {y : A}, Below w (w.right c) y → w.key y ≠ some k := by
      intro y hy he
      obtain ⟨k',hk',he'⟩ := right.key_mem hy
      exact hk (Option.some.inj (he'.symm.trans he) ▸ hk')
    have hlr : ∀ {y z : A}, Below w (w.left c) y → Below w (w.right c) z → w.key y ≠ w.key z := by
      intro y z hy hz he
      obtain ⟨k₁,hk₁,he₁⟩ := left.key_mem hy
      obtain ⟨k₂,hk₂,he₂⟩ := right.key_mem hz
      have hkk : k₁ = k₂ := Option.some.inj (he₁.symm.trans (he.trans he₂))
      exact hdisj k₁ hk₁ k₂ (List.mem_cons_of_mem _ hk₂) hkk
    cases ha with
    | here =>
      cases hb with
      | here => rfl
      | left hb => exact absurd (hab.symm.trans key) (hcl hb)
      | right hb => exact absurd (hab.symm.trans key) (hcr hb)
    | left ha =>
      cases hb with
      | here => exact absurd (hab.trans key) (hcl ha)
      | left hb => exact ihl hl ha hb
      | right hb => exact absurd hab (hlr ha hb)
    | right ha =>
      cases hb with
      | here => exact absurd (hab.trans key) (hcr ha)
      | left hb => exact absurd hab.symm (hlr hb ha)
      | right hb => exact ihr hr ha hb

/-- A cell and its two subtrees have no cell in common. -/
theorem disjoint (h : Wired w q (some a) ks) (hks : ks.Nodup) :
    ¬Below w (w.left a) a ∧ ¬Below w (w.right a) a ∧
      ∀ c, Below w (w.left a) c → ¬Below w (w.right a) c := by
  cases h with
  | @node _ _ k l r key parent left right =>
    obtain ⟨hl,hkr,hdisj⟩ := List.nodup_append.mp hks
    obtain ⟨hk,hr⟩ := List.nodup_cons.mp hkr
    refine ⟨fun hb => ?_,fun hb => ?_,fun c hcl hcr => ?_⟩
    · obtain ⟨y,hy,he⟩ := left.key_mem hb
      exact hdisj y hy k (by simp) (Option.some.inj (he.symm.trans key))
    · obtain ⟨y,hy,he⟩ := right.key_mem hb
      exact hk (Option.some.inj (he.symm.trans key) ▸ hy)
    · obtain ⟨y,hy,he⟩ := left.key_mem hcl
      obtain ⟨z,hz,he'⟩ := right.key_mem hcr
      exact hdisj y hy z (List.mem_cons_of_mem _ hz) (Option.some.inj (he.symm.trans he'))

theorem parent_top (h : Wired w q (some a) ks) : w.parent a = q := by
  cases h with
  | node key parent left right => exact parent

/-- A child points back to its parent. -/
theorem parent_child (h : Wired w q p ks) (ha : Below w p a) (hx : Child w a x) :
    w.parent x = some a := by
  induction h with
  | nil => cases ha
  | node key parent left right ihl ihr =>
    cases ha with
    | here =>
      rcases hx with hx | hx
      · exact (hx ▸ left).parent_top
      · exact (hx ▸ right).parent_top
    | left ha => exact ihl ha
    | right ha => exact ihr ha

/-- A cell is the topmost one or a child of its parent. -/
theorem parent_cases (h : Wired w q p ks) (ha : Below w p a) :
    p = some a ∧ w.parent a = q ∨ ∃ b, w.parent a = some b ∧ Below w p b ∧ Child w b a := by
  induction h with
  | nil => cases ha
  | @node q c k l r key parent left right ihl ihr =>
    cases ha with
    | here => exact .inl ⟨rfl,parent⟩
    | left ha =>
      rcases ihl ha with ⟨hp,hq⟩ | ⟨b,hb,hbelow,hchild⟩
      · exact .inr ⟨c,hq,.here c,.inl hp⟩
      · exact .inr ⟨b,hb,.left hbelow,hchild⟩
    | right ha =>
      rcases ihr ha with ⟨hp,hq⟩ | ⟨b,hb,hbelow,hchild⟩
      · exact .inr ⟨c,hq,.here c,.inr hp⟩
      · exact .inr ⟨b,hb,.right hbelow,hchild⟩

/-- The parent of a cell of the tree is a cell of the tree. -/
theorem parent_below (h : Wired w none p ks) (ha : Below w p a) (hb : w.parent a = some b) :
    Below w p b ∧ Child w b a := by
  rcases h.parent_cases ha with ⟨-,hq⟩ | ⟨c,hc,hbelow,hchild⟩
  · cases hb.symm.trans hq
  · obtain rfl : b = c := Option.some.inj (hb.symm.trans hc)
    exact ⟨hbelow,hchild⟩

end Wired

/-! ### Depth -/

/-- The parent pointers lead from the cell to nil in `n` steps. -/
inductive Depth (w : Wiring A K) : A → ℕ → Prop
  | root {a : A} (h : w.parent a = none) : Depth w a 0
  | step {a b : A} {n : ℕ} (h : w.parent a = some b) (hb : Depth w b n) : Depth w a (n+1)

theorem Depth.parent {n : ℕ} (h : Depth w a n) (hb : w.parent a = some b) :
    ∃ m, n = m+1 ∧ Depth w b m := by
  cases h with
  | root h => cases h.symm.trans hb
  | @step _ c m h hc =>
    obtain rfl : c = b := Option.some.inj (h.symm.trans hb)
    exact ⟨m,rfl,hc⟩

theorem Depth.unique {m n : ℕ} (hm : Depth w a m) (hn : Depth w a n) : m = n := by
  induction hm generalizing n with
  | root h =>
    cases hn with
    | root => rfl
    | step h' => cases h.symm.trans h'
  | step h hb ih =>
    obtain ⟨k,rfl,hk⟩ := hn.parent h
    rw [ih hk]

theorem Wired.exists_depth (h : Wired w q p ks) (hq : ∀ b, q = some b → ∃ n, Depth w b n)
    (ha : Below w p a) : ∃ n, Depth w a n := by
  induction h with
  | nil => cases ha
  | @node q c k l r key parent left right ihl ihr =>
    have hc : ∃ n, Depth w c n := by
      rcases q with _ | b
      · exact ⟨0,.root parent⟩
      · obtain ⟨n,hn⟩ := hq b rfl
        exact ⟨n+1,.step parent hn⟩
    have hsome : ∀ b, some c = some b → ∃ n, Depth w b n := by
      rintro b hb
      exact Option.some.inj hb ▸ hc
    cases ha with
    | here => exact hc
    | left ha => exact ihl hsome ha
    | right ha => exact ihr hsome ha

/-- The cells of a tree have ranks that grow by one from parent to child. -/
theorem Wired.exists_rank (h : Wired w none p ks) :
    ∃ rank : A → ℕ, ∀ a, Below w p a → ∀ b, w.parent a = some b → rank a = rank b+1 := by
  classical
  refine ⟨fun a => if ha : ∃ n, Depth w a n then ha.choose else 0,fun a ha b hb => ?_⟩
  have hdepth : ∃ n, Depth w a n := h.exists_depth (by simp) ha
  obtain ⟨m,hm,hd⟩ := hdepth.choose_spec.parent hb
  have hparent : ∃ n, Depth w b n := ⟨m,hd⟩
  simp only [dif_pos hdepth,dif_pos hparent]
  rw [hm,hparent.choose_spec.unique hd]

/-! ### Changing the pointers of a tree -/

/-- The root and the child pointers of the cells of `S` stay within `S`. -/
def Closed (w : Wiring A K) (S : Set A) : Prop :=
  (∀ a, w.root = some a → a ∈ S) ∧ ∀ a ∈ S, ∀ x, Child w a x → x ∈ S

theorem closed_below : Closed w { a | Below w w.root a } := by
  constructor
  · intro a ha
    change Below w w.root a
    rw [ha]
    exact .here a
  · intro a ha x hx
    exact ha.child hx

namespace Closed
variable {S : Set A}

theorem left (h : Closed w S) (ha : a ∈ S) : ∀ x, w.left a = some x → x ∈ S :=
  fun x hx => h.2 a ha x (.inl hx)

theorem right (h : Closed w S) (ha : a ∈ S) : ∀ x, w.right a = some x → x ∈ S :=
  fun x hx => h.2 a ha x (.inr hx)

variable [DecidableEq A]

theorem setLeft (h : Closed w S) (b : A) (hp : ∀ x, p = some x → x ∈ S) :
    Closed (w.setLeft b p) S := by
  refine ⟨h.1,fun a ha x hx => ?_⟩
  rcases hx with hx | hx
  · change Function.update w.left b p a = some x at hx
    by_cases hab : a = b
    · rw [hab,Function.update_self] at hx
      exact hp x hx
    · rw [Function.update_of_ne hab] at hx
      exact h.left ha x hx
  · exact h.right ha x hx

theorem setRight (h : Closed w S) (b : A) (hp : ∀ x, p = some x → x ∈ S) :
    Closed (w.setRight b p) S := by
  refine ⟨h.1,fun a ha x hx => ?_⟩
  rcases hx with hx | hx
  · exact h.left ha x hx
  · change Function.update w.right b p a = some x at hx
    by_cases hab : a = b
    · rw [hab,Function.update_self] at hx
      exact hp x hx
    · rw [Function.update_of_ne hab] at hx
      exact h.right ha x hx

theorem setParent (h : Closed w S) (b : A) (p : Option A) : Closed (w.setParent b p) S := h

theorem adopt (h : Closed w S) (c x : Option A) : Closed (w.adopt c x) S := by
  rcases c with _ | b
  · exact h
  · exact h.setParent b x

omit [DecidableEq A] in
theorem setRoot (h : Closed w S) (hp : ∀ x, p = some x → x ∈ S) : Closed (w.setRoot p) S :=
  ⟨hp,h.2⟩

end Closed

/-- A tree with the same keys, wired within the cells of another, has all its cells. -/
theorem Wired.below_of_closed {w' : Wiring A K} (h : Wired w q w.root ks) (hks : ks.Nodup)
    (hclosed : Closed w' { a | Below w w.root a }) (hkey : w'.key = w.key)
    (h' : Wired w' p w'.root ks) (ha : Below w w.root a) : Below w' w'.root a := by
  obtain ⟨k,hk,hka⟩ := h.key_mem ha
  obtain ⟨b,hb,hkb⟩ := h'.exists_below hk
  have hbelow : Below w w.root b := hb.mem hclosed.1 hclosed.2
  rw [hkey] at hkb
  rwa [h.key_inj hks ha hbelow (hka.trans hkb.symm)]

/-- Two cells of a tree are not each other's parents. -/
theorem Wired.not_cycle (h : Wired w none p ks) (ha : Below w p a) (hab : w.parent a = some b)
    (hba : w.parent b = some a) : False := by
  obtain ⟨rank,hrank⟩ := h.exists_rank
  have hra := hrank a ha b hab
  have hrb := hrank b (h.parent_below ha hab).1 a hba
  omega

end ParentTree
end RecycleBin
