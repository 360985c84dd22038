import RecycleBin.Lockstep
import RecycleBin.ParentTree
import RecycleBin.RbTreeRuns

/-! What `root.insert` does to a tree in which a red leaf is linked at its search position.
The setters colour the parent instead of the node, and the rotations leave the cells they
turn without a way from the root or with a wrong parent. -/
namespace RecycleBin
namespace RbTree

open ParentTree

variable {K V : Type} {s t u : RBTree K V}

/-- The pointers and keys of the tree, without the colours. -/
def wiring (s : RBTree K V) : Wiring ℕ K where
  root := s.root
  left a := (s.nodes a).bind Node.left
  right a := (s.nodes a).bind Node.right
  parent a := (s.nodes a).bind fun n => n.pc.parent
  key a := (s.nodes a).map Node.key

/-! ### What a statement does to the pointers -/

section Statements
variable {p x y : Option ℕ} {a : ℕ} {n : Node K V} {r : Unit}

theorem load_ok (h : load p s = .ok (n,t)) : t = s ∧ ∃ a, p = some a ∧ s.nodes a = some n := by
  rcases p with _ | a
  · cases h
  · rw [load] at h
    cases hn : s.nodes a with
    | none =>
      rw [hn] at h
      cases h
    | some m =>
      rw [hn] at h
      cases h
      exact ⟨rfl,a,rfl,hn⟩

theorem load_bind_ok {α : Type} {f : Node K V → Prog K V α} {c : α}
    (h : (load p >>= f) s = .ok (c,u)) :
    ∃ a n, p = some a ∧ s.nodes a = some n ∧ f n s = .ok (c,u) := by
  obtain ⟨n,v,hl,hf⟩ := Lockstep.bind_eq_ok h
  obtain ⟨rfl,a,hp,hn⟩ := load_ok hl
  exact ⟨a,n,hp,hn,hf⟩

theorem store_ok {f : Node K V → Node K V} (h : store p f s = .ok (r,t)) :
    ∃ a n, p = some a ∧ s.nodes a = some n ∧
      t = { s with nodes := Function.update s.nodes a (some (f n)) } := by
  rcases p with _ | a
  · cases h
  · rw [store] at h
    cases hn : s.nodes a with
    | none =>
      rw [hn] at h
      cases h
    | some m =>
      rw [hn] at h
      cases h
      exact ⟨a,m,rfl,hn,rfl⟩

/-- A field of the nodes after a store. -/
theorem field_store {β : Type} (g : Option (Node K V) → β) (m : Node K V) :
    (fun b => g (Function.update s.nodes a (some m) b)) =
      Function.update (fun b => g (s.nodes b)) a (g (some m)) := by
  funext b
  by_cases hb : b = a
  · rw [hb,Function.update_self,Function.update_self]
  · rw [Function.update_of_ne hb,Function.update_of_ne hb]

/-- A field that the store keeps. -/
theorem field_store_same {β : Type} (g : Option (Node K V) → β) {m : Node K V}
    (hn : s.nodes a = some n) (hg : g (some m) = g (some n)) :
    (fun b => g (Function.update s.nodes a (some m) b)) = fun b => g (s.nodes b) := by
  rw [field_store,hg,← hn,Function.update_eq_self a fun b => g (s.nodes b)]

theorem setLeft_ok (h : setLeft p x s = .ok (r,t)) :
    ∃ a, p = some a ∧ wiring t = (wiring s).setLeft a x := by
  obtain ⟨a,n,hp,hn,rfl⟩ := store_ok h
  refine ⟨a,hp,?_⟩
  simp only [wiring,Wiring.setLeft,Wiring.mk.injEq,true_and]
  exact ⟨field_store (fun m => m.bind Node.left) _,field_store_same (fun m => m.bind Node.right) hn rfl,
    field_store_same (fun m => m.bind fun n => n.pc.parent) hn rfl,
    field_store_same (fun m => m.map Node.key) hn rfl⟩

theorem setRight_ok (h : setRight p x s = .ok (r,t)) :
    ∃ a, p = some a ∧ wiring t = (wiring s).setRight a x := by
  obtain ⟨a,n,hp,hn,rfl⟩ := store_ok h
  refine ⟨a,hp,?_⟩
  simp only [wiring,Wiring.setRight,Wiring.mk.injEq,true_and]
  exact ⟨field_store_same (fun m => m.bind Node.left) hn rfl,field_store (fun m => m.bind Node.right) _,
    field_store_same (fun m => m.bind fun n => n.pc.parent) hn rfl,
    field_store_same (fun m => m.map Node.key) hn rfl⟩

theorem setParent_ok (h : setParent p x s = .ok (r,t)) :
    ∃ a, p = some a ∧ wiring t = (wiring s).setParent a x ∧
      ∀ b, (t.nodes b).map (fun n => n.pc.black) = (s.nodes b).map fun n => n.pc.black := by
  obtain ⟨a,n,hp,hn,rfl⟩ := store_ok h
  have hblack := field_store_same (fun m => m.map fun n => n.pc.black)
    (m:={ n with pc := { n.pc with parent := x } }) hn rfl
  refine ⟨a,hp,?_,congrFun hblack⟩
  simp only [wiring,Wiring.setParent,Wiring.mk.injEq,true_and]
  exact ⟨field_store_same (fun m => m.bind Node.left) hn rfl,
    field_store_same (fun m => m.bind Node.right) hn rfl,
    field_store (fun m => m.bind fun n => n.pc.parent) _,
    field_store_same (fun m => m.map Node.key) hn rfl⟩

theorem setColor_ok {red black : Bool} (h : setColor p red black s = .ok (r,t)) :
    ∃ a, p = some a ∧ wiring t = wiring s ∧ (t.nodes a).map (fun n => n.pc.black) = some black := by
  obtain ⟨a,n,hp,hn,rfl⟩ := store_ok h
  refine ⟨a,hp,?_,?_⟩
  · simp only [wiring,Wiring.mk.injEq,true_and]
    exact ⟨field_store_same (fun m => m.bind Node.left) hn rfl,
      field_store_same (fun m => m.bind Node.right) hn rfl,
      field_store_same (fun m => m.bind fun n => n.pc.parent) hn rfl,
      field_store_same (fun m => m.map Node.key) hn rfl⟩
  · simp

/-- Both setters colour the parent, which must not be nil. -/
theorem setParentRed_ok (h : setParentRed x p s = .ok (r,t)) :
    ∃ a b, x = some a ∧ p = some b ∧ wiring t = (wiring s).setParent a p ∧
      (t.nodes b).map (fun n => n.pc.black) = some false := by
  obtain ⟨_,v,hc,hs⟩ := Lockstep.bind_eq_ok h
  obtain ⟨b,hb,hwc,hblack⟩ := setColor_ok hc
  obtain ⟨a,ha,hw,hkeep⟩ := setParent_ok hs
  exact ⟨a,b,ha,hb,hw.trans (by rw [hwc]),(hkeep b).trans hblack⟩

theorem setParentBlack_ok (h : setParentBlack x p s = .ok (r,t)) :
    ∃ a, x = some a ∧ wiring t = (wiring s).setParent a p := by
  obtain ⟨_,v,hc,hs⟩ := Lockstep.bind_eq_ok h
  obtain ⟨b,hb,hwc,-⟩ := setColor_ok hc
  obtain ⟨a,ha,hw,-⟩ := setParent_ok hs
  exact ⟨a,ha,hw.trans (by rw [hwc])⟩

theorem adopt_ok (h : adopt x p s = .ok (r,t)) : wiring t = (wiring s).adopt x p := by
  rcases x with _ | c
  · cases h
    rfl
  · obtain ⟨a,ha,hw⟩ := setParentBlack_ok h
    cases ha
    exact hw

theorem isRed_ok {b : Bool} (h : isRed x s = .ok (b,t)) : t = s ∧ (b = true → ∃ a, x = some a) := by
  rcases x with _ | a
  · cases h
    exact ⟨rfl,fun hb => by cases hb⟩
  · obtain ⟨n,v,hl,hp⟩ := Lockstep.bind_eq_ok h
    obtain ⟨rfl,-⟩ := load_ok hl
    cases hp
    exact ⟨rfl,fun _ => ⟨a,rfl⟩⟩

/-- The other pointer of the parent is not touched; without a parent it is the root. -/
theorem changeChild_ok (h : changeChild x y p s = .ok (r,t)) :
    p = none ∧ wiring t = (wiring s).setRoot y ∨ ∃ q, p = some q ∧
      (wiring t = (wiring s).setLeft q y ∨ wiring t = (wiring s).setRight q y) := by
  rcases p with _ | q
  · cases h
    exact .inl ⟨rfl,rfl⟩
  · refine .inr ⟨q,rfl,?_⟩
    obtain ⟨n,v,hl,hc⟩ := Lockstep.bind_eq_ok h
    obtain ⟨rfl,-⟩ := load_ok hl
    by_cases hx : n.left = x
    · rw [if_pos hx] at hc
      obtain ⟨a,ha,hw⟩ := setLeft_ok hc
      cases ha
      exact .inl hw
    · rw [if_neg hx] at hc
      obtain ⟨a,ha,hw⟩ := setRight_ok hc
      cases ha
      exact .inr hw

/-- A red rotation gives both nodes the parent of the old one, which must not be nil. -/
theorem rotateSetParents_ok {g a : ℕ} (h : rotateSetParents (some g) (some a) .red s = .ok (r,t)) :
    ∃ q w, (wiring s).parent g = some q ∧
      w = ((wiring s).setParent a (some q)).setParent g (some q) ∧
      (wiring t = w.setLeft q (some a) ∨ wiring t = w.setRight q (some a)) := by
  obtain ⟨o,v,hl,h₀⟩ := Lockstep.bind_eq_ok h
  obtain ⟨rfl,b,hb,ho⟩ := load_ok hl
  cases hb
  obtain ⟨_,v₁,h₁,h'⟩ := Lockstep.bind_eq_ok h₀
  obtain ⟨_,v₂,h₂,h₃⟩ := Lockstep.bind_eq_ok h'
  obtain ⟨b,hb,hw₁,-⟩ := setParent_ok h₁
  cases hb
  obtain ⟨b,q,hb,hq,hw₂,-⟩ := setParentRed_ok h₂
  cases hb
  refine ⟨q,_,?_,rfl,?_⟩
  · simp [wiring,ho,hq]
  · rw [hq] at hw₁ hw₂ h₃
    rw [← hw₁,← hw₂]
    rcases changeChild_ok h₃ with ⟨hnone,-⟩ | ⟨q',hq',hw⟩
    · cases hnone
    · cases hq'
      exact hw

end Statements

/-! ### What the rotations leave -/

section Lost
variable {w : Wiring ℕ K} {p g c q : ℕ} {ks : List K}

/-- The rotation at the grandparent leaves the parent below it, and below the parent. -/
theorem not_wired_right (h : Wired w none w.root ks) (hks : ks.Nodup) (hp : Below w w.root p)
    (hg : w.parent p = some g) :
    ¬Wired (((w.setLeft g (w.right p)).setRight p (some g)).adopt (w.right p) (some g))
      none w.root ks := by
  generalize hw' : ((w.setLeft g (w.right p)).setRight p (some g)).adopt (w.right p) (some g) = w'
  intro h'
  have hgb : Below w w.root g := (h.parent_below hp hg).1
  have hS := closed_below (w:=w)
  have hclosed : Closed w' { a | Below w w.root a } := by
    rw [← hw']
    exact ((hS.setLeft g (hS.right hp)).setRight p (by rintro x ⟨⟩; exact hgb)).adopt _ _
  have hroot : w'.root = w.root := by simp [← hw']
  have hkey : w'.key = w.key := by
    rw [← hw',Wiring.adopt_key]
    rfl
  have hp' : Below w' w'.root p := h.below_of_closed hks hclosed hkey (hroot ▸ h') hp
  have hright : w'.right p = some g := by simp [← hw']
  have hparent : w'.parent p = some g := by
    by_cases hc : w.right p = some p
    · simp [← hw',hc,Wiring.adopt]
    · rw [← hw',Wiring.adopt_parent hc]
      exact hg
  rw [hroot] at hp'
  exact h'.not_cycle hp' hparent (h'.parent_child hp' (.inr hright))

/-- When the node was turned first, it and its parent are each other's parents. -/
theorem not_wired_turnedRight {v : Wiring ℕ K} (h : Wired w none w.root ks) (hks : ks.Nodup)
    (hp : Below w w.root p) (hg : w.parent p = some g) (hc : w.right p = some c)
    (hv : v = (((w.setRight p (w.left c)).setLeft c (some p)).adopt (w.left c) (some p)).setParent
      p (some c)) :
    ¬Wired (((v.setLeft g (v.right c)).setRight c (some g)).adopt (v.right c) (some g))
      none w.root ks := by
  generalize hw' : ((v.setLeft g (v.right c)).setRight c (some g)).adopt (v.right c) (some g) = w'
  intro h'
  have hgb : Below w w.root g := (h.parent_below hp hg).1
  have hcb : Below w w.root c := hp.child (.inr hc)
  have hcp : w.parent c = some p := h.parent_child hp (.inr hc)
  obtain ⟨rank,hrank⟩ := h.exists_rank
  have hrp := hrank p hp g hg
  have hrc := hrank c hcb p hcp
  have hne : c ≠ p := by
    rintro rfl
    omega
  have hvr : v.right c = w.right c := by simp [hv,hne]
  have hd : ∀ x, w.right c = some x → rank x = rank c+1 := fun x hx =>
    hrank x (hcb.child (.inr hx)) c (h.parent_child hcb (.inr hx))
  have hS := closed_below (w:=w)
  have hp₁ : ∀ x, some p = some x → Below w w.root x := by rintro x ⟨⟩; exact hp
  have hg₁ : ∀ x, some g = some x → Below w w.root x := by rintro x ⟨⟩; exact hgb
  have hclosed : Closed w' { a | Below w w.root a } := by
    have hv' : Closed v { a | Below w w.root a } := by
      rw [hv]
      exact (((hS.setRight p (hS.left hcb)).setLeft c hp₁).adopt _ _).setParent _ _
    rw [← hw']
    exact ((hv'.setLeft g (hv'.right hcb)).setRight c hg₁).adopt _ _
  have hroot : w'.root = w.root := by simp [← hw',hv]
  have hkey : w'.key = w.key := by
    rw [← hw',Wiring.adopt_key]
    change v.key = w.key
    rw [hv]
    change (Wiring.adopt _ _ _).key = w.key
    rw [Wiring.adopt_key]
    rfl
  have hp' : Below w' w'.root p := h.below_of_closed hks hclosed hkey (hroot ▸ h') hp
  have hpc : w'.parent p = some c := by
    rw [← hw',hvr,Wiring.adopt_parent fun hx => by have := hd p hx; omega]
    simp [hv]
  have hcp' : w'.parent c = some p := by
    rw [← hw',hvr,Wiring.adopt_parent fun hx => by have := hd c hx; omega]
    by_cases hx : w.left c = some c
    · simp [hv,hne,hx,Wiring.adopt]
    · simp [hv,hne,Wiring.adopt_parent hx,hcp]
  rw [hroot] at hp'
  exact h'.not_cycle hp' hpc hcp'

/-- The parent gets the grandparent as a child, which keeps its own parent. -/
theorem not_wired_left {v x w' : Wiring ℕ K} (h : Wired w none w.root ks) (hks : ks.Nodup)
    (hp : Below w w.root p) (hg : w.parent p = some g)
    (hv : v = ((w.setRight g (w.left p)).setLeft p (some g)).adopt (w.left p) (some g))
    (hq : v.parent g = some q) (hx : x = (v.setParent p (some q)).setParent g (some q))
    (hw' : w' = x.setLeft q (some p) ∨ w' = x.setRight q (some p)) :
    ¬Wired w' none w'.root ks := by
  intro h'
  obtain ⟨hgb,-⟩ := h.parent_below hp hg
  obtain ⟨rank,hrank⟩ := h.exists_rank
  have hrp := hrank p hp g hg
  have hvg : v.parent g = w.parent g := by
    rw [hv,Wiring.adopt_parent fun hx => ?_]
    · rfl
    · have hrg := hrank g hgb p (h.parent_child hp (.inl hx))
      omega
  have hgq : w.parent g = some q := hvg.symm.trans hq
  have hrg := hrank g hgb q hgq
  have hqp : p ≠ q := by
    rintro rfl
    omega
  have hS := closed_below (w:=w)
  have hg₁ : ∀ y, some g = some y → Below w w.root y := by rintro y ⟨⟩; exact hgb
  have hp₁ : ∀ y, some p = some y → Below w w.root y := by rintro y ⟨⟩; exact hp
  have hx₁ : Closed x { a | Below w w.root a } := by
    rw [hx,hv]
    exact ((((hS.setRight g (hS.left hp)).setLeft p hg₁).adopt _ _).setParent _ _).setParent _ _
  have hkey : x.key = w.key := by
    rw [hx,hv]
    change (Wiring.adopt _ _ _).key = w.key
    rw [Wiring.adopt_key]
    rfl
  have hxl : x.left p = some g := by simp [hx,hv]
  have hxp : x.parent g = some q := by simp [hx]
  rcases hw' with rfl | rfl
  · have hp' := h.below_of_closed hks (hx₁.setLeft q hp₁) hkey h' hp
    have hleft : (x.setLeft q (some p)).left p = some g := by simpa [hqp] using hxl
    have hchild := h'.parent_child hp' (.inl hleft)
    exact hqp (Option.some.inj (hchild.symm.trans hxp))
  · have hp' := h.below_of_closed hks (hx₁.setRight q hp₁) hkey h' hp
    have hchild := h'.parent_child hp' (.inl hxl)
    exact hqp (Option.some.inj (hchild.symm.trans hxp))

/-- When the node was turned first, the parent is its own child. -/
theorem not_wired_turnedLeft {v y x w' : Wiring ℕ K} (h : Wired w none w.root ks) (hks : ks.Nodup)
    (hp : Below w w.root p) (hg : w.parent p = some g) (hc : w.left p = some c)
    (hv : v = (((w.setLeft p (w.right c)).setRight p (some p)).adopt (w.right c) (some p)).setParent
      p (some c))
    (hy : y = ((v.setRight g (v.left c)).setLeft c (some g)).adopt (v.left c) (some g))
    (hq : y.parent g = some q) (hx : x = (y.setParent c (some q)).setParent g (some q))
    (hw' : w' = x.setLeft q (some c) ∨ w' = x.setRight q (some c)) :
    ¬Wired w' none w'.root ks := by
  intro h'
  obtain ⟨hgb,-⟩ := h.parent_below hp hg
  have hcb : Below w w.root c := hp.child (.inl hc)
  have hcp : w.parent c = some p := h.parent_child hp (.inl hc)
  obtain ⟨rank,hrank⟩ := h.exists_rank
  have hrp := hrank p hp g hg
  have hrc := hrank c hcb p hcp
  have hne : c ≠ p := by
    rintro rfl
    omega
  have hgp : p ≠ g := by
    rintro rfl
    omega
  have hchild : ∀ z, Child w c z → rank z = rank c+1 := fun z hz =>
    hrank z (hcb.child hz) c (h.parent_child hcb hz)
  have hvl : v.left c = w.left c := by simp [hv,hne]
  have hyg : y.parent g = w.parent g := by
    rw [hy,hvl,Wiring.adopt_parent fun hz => by have := hchild g (.inl hz); omega]
    change v.parent g = _
    rw [hv,Wiring.setParent_parent,Function.update_of_ne hgp.symm,
      Wiring.adopt_parent fun hz => by have := hchild g (.inr hz); omega]
    rfl
  have hgq : w.parent g = some q := hyg.symm.trans hq
  have hrg := hrank g hgb q hgq
  have hqp : p ≠ q := by
    rintro rfl
    omega
  have hS := closed_below (w:=w)
  have hg₁ : ∀ z, some g = some z → Below w w.root z := by rintro z ⟨⟩; exact hgb
  have hp₁ : ∀ z, some p = some z → Below w w.root z := by rintro z ⟨⟩; exact hp
  have hc₁ : ∀ z, some c = some z → Below w w.root z := by rintro z ⟨⟩; exact hcb
  have hv₁ : Closed v { a | Below w w.root a } := by
    rw [hv]
    exact (((hS.setLeft p (hS.right hcb)).setRight p hp₁).adopt _ _).setParent _ _
  have hx₁ : Closed x { a | Below w w.root a } := by
    rw [hx,hy]
    exact ((((hv₁.setRight g (hv₁.left hcb)).setLeft c hg₁).adopt _ _).setParent _ _).setParent _ _
  have hkey : x.key = w.key := by
    rw [hx,hy]
    change (Wiring.adopt _ _ _).key = w.key
    rw [Wiring.adopt_key,hv]
    change (Wiring.adopt _ _ _).key = w.key
    rw [Wiring.adopt_key]
    rfl
  have hxr : x.right p = some p := by simp [hx,hy,hv,hgp]
  rcases hw' with rfl | rfl
  · have hp' := h.below_of_closed hks (hx₁.setLeft q hc₁) hkey h' hp
    have hself := h'.parent_child hp' (.inr hxr)
    exact h'.not_cycle hp' hself hself
  · have hp' := h.below_of_closed hks (hx₁.setRight q hc₁) hkey h' hp
    have hright : (x.setRight q (some c)).right p = some p := by simpa [hqp] using hxr
    have hself := h'.parent_child hp' (.inr hright)
    exact h'.not_cycle hp' hself hself

end Lost

/-! ### One round of the loop -/

section Loop
variable {p g : ℕ} {n : Option ℕ} {ks : List K}

/-- A red uncle: only colours change, and the next parent is red. -/
theorem flip_ok {c : Option ℕ} {k : Option ℕ → Prog K V Unit}
    (hc : ∀ a, c = some a → (wiring s).parent a = some g) (hp : (wiring s).parent p = some g)
    (h : (do
      setParentBlack c (some g)
      setParentRed (some p) (some g)
      let x ← load (some g)
      setParentRed (some g) x.pc.parent
      k x.pc.parent) s = .ok ((),u)) :
    ∃ q v, (wiring s).parent g = some q ∧ wiring v = wiring s ∧
      (v.nodes q).map (fun n => n.pc.black) = some false ∧ k (some q) v = .ok ((),u) := by
  obtain ⟨_,v₁,h₁,h⟩ := Lockstep.bind_eq_ok h
  obtain ⟨a,ha,hw₁⟩ := setParentBlack_ok h₁
  rw [Wiring.setParent_same (hc a ha)] at hw₁
  obtain ⟨_,v₂,h₂,h⟩ := Lockstep.bind_eq_ok h
  obtain ⟨b,_,hb,_,hw₂,-⟩ := setParentRed_ok h₂
  cases hb
  rw [hw₁,Wiring.setParent_same hp] at hw₂
  obtain ⟨b,x,hb,hx,h⟩ := load_bind_ok h
  cases hb
  obtain ⟨_,v,h₃,h⟩ := Lockstep.bind_eq_ok h
  obtain ⟨b,q,hb,hq,hw,hblack⟩ := setParentRed_ok h₃
  cases hb
  have hgq : (wiring s).parent g = some q := by
    rw [← hw₂]
    simp [wiring,hx,hq]
  rw [hw₂,hq,Wiring.setParent_same hgq] at hw
  rw [hq] at h
  exact ⟨q,v,hgq,hw,hblack,h⟩

/-- The pointers after the first rotation when the node is the right child of its parent. -/
theorem turnRight_ok {tmp : Option ℕ} {k : Option ℕ × Option ℕ → Prog K V Unit}
    (h : (if n = tmp then (do
        let x ← load n
        let tmp := x.left
        setRight (some p) tmp
        setLeft n (some p)
        adopt tmp (some p)
        setParentRed (some p) n
        let parent := n
        let x ← load n
        let r ← pure (parent,x.right)
        k r)
      else do
        let r ← pure (some p,tmp)
        k r) s = .ok ((),u)) :
    ∃ v, wiring v = wiring s ∧ k (some p,tmp) v = .ok ((),u) ∨
      ∃ c, tmp = some c ∧ k (some c,(wiring v).right c) v = .ok ((),u) ∧ wiring v =
        ((((wiring s).setRight p ((wiring s).left c)).setLeft c (some p)).adopt
        ((wiring s).left c) (some p)).setParent p (some c) := by
  by_cases hn : n = tmp
  · rw [if_pos hn] at h
    obtain ⟨c,x,rfl,hx,h⟩ := load_bind_ok h
    have hleft : x.left = (wiring s).left c := by simp [wiring,hx]
    rw [hleft] at h
    obtain ⟨_,v₁,h₁,h⟩ := Lockstep.bind_eq_ok h
    obtain ⟨b,hb,hw₁⟩ := setRight_ok h₁
    cases hb
    obtain ⟨_,v₂,h₂,h⟩ := Lockstep.bind_eq_ok h
    obtain ⟨b,hb,hw₂⟩ := setLeft_ok h₂
    cases hb
    obtain ⟨_,v₃,h₃,h⟩ := Lockstep.bind_eq_ok h
    have hw₃ := adopt_ok h₃
    obtain ⟨_,v₄,h₄,h⟩ := Lockstep.bind_eq_ok h
    obtain ⟨b,_,hb,_,hw₄,-⟩ := setParentRed_ok h₄
    cases hb
    obtain ⟨b,y,hb,hy,h⟩ := load_bind_ok h
    cases hb
    refine ⟨v₄,.inr ⟨c,hn.symm,?_,?_⟩⟩
    · have hright : (wiring v₄).right c = y.right := by simp [wiring,hy]
      rw [hright]
      exact h
    · rw [hw₄,hw₃,hw₂,hw₁]
  · rw [if_neg hn] at h
    exact ⟨s,.inl ⟨rfl,h⟩⟩

/-- Its mirror image, in which the parent becomes its own child. -/
theorem turnLeft_ok {tmp : Option ℕ} {k : Option ℕ × Option ℕ → Prog K V Unit}
    (h : (if n = tmp then (do
        let x ← load n
        let tmp := x.right
        setLeft (some p) tmp
        setRight (some p) (some p)
        adopt tmp (some p)
        setParentRed (some p) n
        let parent := n
        let x ← load n
        let r ← pure (parent,x.left)
        k r)
      else do
        let r ← pure (some p,tmp)
        k r) s = .ok ((),u)) :
    ∃ v, wiring v = wiring s ∧ k (some p,tmp) v = .ok ((),u) ∨
      ∃ c, tmp = some c ∧ k (some c,(wiring v).left c) v = .ok ((),u) ∧ wiring v =
        ((((wiring s).setLeft p ((wiring s).right c)).setRight p (some p)).adopt
        ((wiring s).right c) (some p)).setParent p (some c) := by
  by_cases hn : n = tmp
  · rw [if_pos hn] at h
    obtain ⟨c,x,rfl,hx,h⟩ := load_bind_ok h
    have hright : x.right = (wiring s).right c := by simp [wiring,hx]
    rw [hright] at h
    obtain ⟨_,v₁,h₁,h⟩ := Lockstep.bind_eq_ok h
    obtain ⟨b,hb,hw₁⟩ := setLeft_ok h₁
    cases hb
    obtain ⟨_,v₂,h₂,h⟩ := Lockstep.bind_eq_ok h
    obtain ⟨b,hb,hw₂⟩ := setRight_ok h₂
    cases hb
    obtain ⟨_,v₃,h₃,h⟩ := Lockstep.bind_eq_ok h
    have hw₃ := adopt_ok h₃
    obtain ⟨_,v₄,h₄,h⟩ := Lockstep.bind_eq_ok h
    obtain ⟨b,_,hb,_,hw₄,-⟩ := setParentRed_ok h₄
    cases hb
    obtain ⟨b,y,hb,hy,h⟩ := load_bind_ok h
    cases hb
    refine ⟨v₄,.inr ⟨c,hn.symm,?_,?_⟩⟩
    · have hleft : (wiring v₄).left c = y.left := by simp [wiring,hy]
      rw [hleft]
      exact h
    · rw [hw₄,hw₃,hw₂,hw₁]
  · rw [if_neg hn] at h
    exact ⟨s,.inl ⟨rfl,h⟩⟩

/-- The rotation at a grandparent whose left child is the parent: the cells that are turned
have no way from the root. -/
theorem rotateRight_lost (h : Wired (wiring s) none s.root ks) (hks : ks.Nodup)
    (hp : Below (wiring s) s.root p) (hg : (wiring s).parent p = some g)
    (hrun : (do
      let x ← load (some p)
      let tmp := x.right
      let (parent,tmp) ←
        if n = tmp then do
          let x ← load n
          let tmp := x.left
          setRight (some p) tmp
          setLeft n (some p)
          adopt tmp (some p)
          setParentRed (some p) n
          let parent := n
          let x ← load n
          pure (parent,x.right)
        else pure (some p,tmp)
      setLeft (some g) tmp
      setRight parent (some g)
      adopt tmp (some g)) s = .ok ((),u)) : ¬Wired (wiring u) none u.root ks := by
  obtain ⟨b,x,hb,hx,hrun⟩ := load_bind_ok hrun
  cases hb
  have hright : x.right = (wiring s).right p := by simp [wiring,hx]
  rw [hright] at hrun
  have hrotate : ∀ {a : ℕ} {tmp : Option ℕ} {v : RBTree K V},
      (do
        setLeft (some g) tmp
        setRight (some a) (some g)
        adopt tmp (some g)) v = .ok ((),u) →
      wiring u = (((wiring v).setLeft g tmp).setRight a (some g)).adopt tmp (some g) := by
    intro a tmp v hrot
    obtain ⟨_,v₁,h₁,hrot⟩ := Lockstep.bind_eq_ok hrot
    obtain ⟨_,v₂,h₂,h₃⟩ := Lockstep.bind_eq_ok hrot
    obtain ⟨b,hb,hw₁⟩ := setLeft_ok h₁
    cases hb
    obtain ⟨b,hb,hw₂⟩ := setRight_ok h₂
    cases hb
    rw [adopt_ok h₃,hw₂,hw₁]
  have hroot : u.root = (wiring u).root := rfl
  obtain ⟨v,⟨hv,hk⟩ | ⟨c,hc,hk,hv⟩⟩ := turnRight_ok (k:=fun r => do
    setLeft (some g) r.2
    setRight r.1 (some g)
    adopt r.2 (some g)) hrun
  · rw [hroot,hrotate hk,hv,Wiring.adopt_root]
    exact not_wired_right h hks hp hg
  · have hvr : (wiring v).root = (wiring s).root := by simp [hv]
    rw [hroot,hrotate hk,Wiring.adopt_root]
    change ¬Wired _ none (wiring v).root ks
    rw [hvr]
    exact not_wired_turnedRight h hks hp hg hc hv

/-- The rotation at a grandparent whose right child is the parent. -/
theorem rotateLeft_lost (h : Wired (wiring s) none s.root ks) (hks : ks.Nodup)
    (hp : Below (wiring s) s.root p) (hg : (wiring s).parent p = some g)
    (hrun : (do
      let x ← load (some p)
      let tmp := x.left
      let (parent,tmp) ←
        if n = tmp then do
          let x ← load n
          let tmp := x.right
          setLeft (some p) tmp
          setRight (some p) (some p)
          adopt tmp (some p)
          setParentRed (some p) n
          let parent := n
          let x ← load n
          pure (parent,x.left)
        else pure (some p,tmp)
      setRight (some g) tmp
      setLeft parent (some g)
      adopt tmp (some g)
      rotateSetParents (some g) parent .red) s = .ok ((),u)) : ¬Wired (wiring u) none u.root ks := by
  obtain ⟨b,x,hb,hx,hrun⟩ := load_bind_ok hrun
  cases hb
  have hleft : x.left = (wiring s).left p := by simp [wiring,hx]
  rw [hleft] at hrun
  have hrotate : ∀ {a : ℕ} {tmp : Option ℕ} {v : RBTree K V},
      (do
        setRight (some g) tmp
        setLeft (some a) (some g)
        adopt tmp (some g)
        rotateSetParents (some g) (some a) .red) v = .ok ((),u) →
      ∃ q y, y = (((wiring v).setRight g tmp).setLeft a (some g)).adopt tmp (some g) ∧
        y.parent g = some q ∧
        (wiring u = ((y.setParent a (some q)).setParent g (some q)).setLeft q (some a) ∨
          wiring u = ((y.setParent a (some q)).setParent g (some q)).setRight q (some a)) := by
    intro a tmp v hrot
    obtain ⟨_,v₁,h₁,hrot⟩ := Lockstep.bind_eq_ok hrot
    obtain ⟨_,v₂,h₂,hrot⟩ := Lockstep.bind_eq_ok hrot
    obtain ⟨_,v₃,h₃,h₄⟩ := Lockstep.bind_eq_ok hrot
    obtain ⟨b,hb,hw₁⟩ := setRight_ok h₁
    cases hb
    obtain ⟨b,hb,hw₂⟩ := setLeft_ok h₂
    cases hb
    obtain ⟨q,y,hq,rfl,hw⟩ := rotateSetParents_ok h₄
    exact ⟨q,_,by rw [adopt_ok h₃,hw₂,hw₁],hq,hw⟩
  obtain ⟨v,⟨hv,hk⟩ | ⟨c,hc,hk,hv⟩⟩ := turnLeft_ok (k:=fun r => do
    setRight (some g) r.2
    setLeft r.1 (some g)
    adopt r.2 (some g)
    rotateSetParents (some g) r.1 .red) hrun
  · obtain ⟨q,y,hy,hq,hw⟩ := hrotate hk
    rw [hv] at hy
    exact not_wired_left h hks hp hg hy hq rfl hw
  · obtain ⟨q,y,hy,hq,hw⟩ := hrotate hk
    exact not_wired_turnedLeft h hks hp hg hc hv hy hq rfl hw

/-- From a parent that is not black the loop never leaves a tree with the same keys. -/
theorem insertLoop_lost {fuel : ℕ} (h : Wired (wiring s) none s.root ks) (hks : ks.Nodup)
    (hp : Below (wiring s) s.root p) (hblack : (s.nodes p).map (fun n => n.pc.black) = some false)
    (hrun : insertLoop fuel n (some p) s = .ok ((),u)) : ¬Wired (wiring u) none u.root ks := by
  induction fuel generalizing s n p with
  | zero => cases hrun
  | succ fuel ih =>
    rw [insertLoop,if_neg (Option.some_ne_none p)] at hrun
    obtain ⟨b,x,hb,hx,hrun⟩ := load_bind_ok hrun
    cases hb
    have hxb : x.pc.black = false := by simpa [hx] using hblack
    rw [hxb,if_neg Bool.false_ne_true] at hrun
    obtain ⟨g,y,hg,hy,hrun⟩ := load_bind_ok hrun
    have hpg : (wiring s).parent p = some g := by simp [wiring,hx,hg]
    have hgb := (h.parent_below hp hpg).1
    rw [hg] at hrun
    -- both branches climb alike when the uncle is red
    have hclimb : ∀ {c : Option ℕ} {v : RBTree K V}, v = s → (∀ a, c = some a → Child (wiring s) g a) →
        (do
          setParentBlack c (some g)
          setParentRed (some p) (some g)
          let x ← load (some g)
          setParentRed (some g) x.pc.parent
          insertLoop fuel (some g) x.pc.parent) v = .ok ((),u) →
        ¬Wired (wiring u) none u.root ks := by
      rintro c v rfl hc hflip
      obtain ⟨q,v',hgq,hw,hq,hloop⟩ :=
        flip_ok (k:=fun r => insertLoop fuel (some g) r) (fun a ha => h.parent_child hgb (hc a ha))
          hpg hflip
      have hroot : v'.root = v.root := congrArg Wiring.root hw
      refine ih ?_ ?_ hq hloop
      · rwa [hw,hroot]
      · rw [hw,hroot]
        exact (h.parent_below hgb hgq).1
    by_cases hside : some p = y.right
    · rw [if_neg (not_not_intro hside)] at hrun
      obtain ⟨red,v,hred,hrun⟩ := Lockstep.bind_eq_ok hrun
      have hv := (isRed_ok hred).1
      cases red with
      | true => exact hclimb hv (fun a ha => .inl (by simp [wiring,hy,ha])) hrun
      | false => exact rotateLeft_lost h hks hp hpg (hv ▸ hrun)
    · rw [if_pos hside] at hrun
      obtain ⟨red,v,hred,hrun⟩ := Lockstep.bind_eq_ok hrun
      have hv := (isRed_ok hred).1
      cases red with
      | true => exact hclimb hv (fun a ha => .inr (by simp [wiring,hy,ha])) hrun
      | false => exact rotateRight_lost h hks hp hpg (hv ▸ hrun)

end Loop

end RbTree
end RecycleBin
