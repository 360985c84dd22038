import RecycleBin.RbTreeInsert

/-! Linking a red leaf at its search position and calling `root.insert` on it. The call
leaves a red-black tree exactly when the leaf has a black parent. -/
namespace RecycleBin
namespace RbTree

open ParentTree

variable {K V : Type}

/-! ### The search position -/

/-- Where a pointer to a node is kept, the `link **node` of the source. -/
inductive Slot
  | root
  | left (p : ℕ)
  | right (p : ℕ)
  deriving DecidableEq

def Slot.owner : Slot → Option ℕ
  | .root => none
  | .left p | .right p => some p

/-- `*link`. -/
def content (s : RBTree K V) : Slot → Option ℕ
  | .root => s.root
  | .left p => (wiring s).left p
  | .right p => (wiring s).right p

def storeSlot : Slot → Option ℕ → Prog K V Unit
  | .root, n => storeRoot n
  | .left p, n => setLeft (some p) n
  | .right p, n => setRight (some p) n

/-- `link` at any slot. -/
def linkAt (n parent : Option ℕ) (slot : Slot) : Prog K V Unit := do
  setParentColor n ⟨parent,true,false⟩
  storeSlot slot n

theorem link_eq (n parent : Option ℕ) : (link n parent : Prog K V Unit) = linkAt n parent .root :=
  rfl

/-- A new node linked below `parent`, and `root.insert` on it. -/
def insertNew (fuel : ℕ) (k : K) (v : V) (parent : Option ℕ) (slot : Slot) : Prog K V Unit := do
  let node ← alloc ⟨none,none,v,k,⟨none,false,false⟩⟩
  linkAt node parent slot
  insert fuel node

section Position
variable [LinearOrder K]

/-- The search for a key that comes to a slot below `q` ends at a nil slot below `parent`. -/
inductive Position (s : RBTree K V) (k : K) : Option ℕ → Slot → Option ℕ → Slot → Prop
  | here {q : Option ℕ} {slot : Slot} (h : content s slot = none) : Position s k q slot q slot
  | left {q parent : Option ℕ} {slot last : Slot} {a : ℕ} {n : Node K V}
      (h : content s slot = some a) (hn : s.nodes a = some n) (hk : k < n.key)
      (rest : Position s k (some a) (.left a) parent last) : Position s k q slot parent last
  | right {q parent : Option ℕ} {slot last : Slot} {a : ℕ} {n : Node K V}
      (h : content s slot = some a) (hn : s.nodes a = some n) (hk : n.key < k)
      (rest : Position s k (some a) (.right a) parent last) : Position s k q slot parent last

end Position

/-- The black flag of a node that may be nil. -/
def blackAt (s : RBTree K V) : Option ℕ → Bool
  | none => false
  | some a => ((s.nodes a).map fun n => n.pc.black).getD false

/-! ### Shapes with a new leaf -/

namespace Shape
variable [LinearOrder K]

def insertLeaf (k : K) : Shape K → Shape K
  | nil => node nil true false k nil
  | node l red black x r =>
    if k < x then node (insertLeaf k l) red black x r else node l red black x (insertLeaf k r)

/-- The black flag of the last node the search for `k` passes, `b` being that of the node
above. -/
def lastBlack (k : K) : Bool → Shape K → Bool
  | b, nil => b
  | _, node l _ black x r => if k < x then lastBlack k black l else lastBlack k black r

variable {k : K} {t : Shape K}

theorem orderedInsert_left {l r : List K} {x : K} (h : k < x) :
    (l++x::r).orderedInsert (· ≤ ·) k = l.orderedInsert (· ≤ ·) k++x::r := by
  induction l with
  | nil => exact List.orderedInsert_cons_of_le _ r h.le
  | cons y l ih =>
    by_cases hy : k ≤ y
    · rw [List.cons_append,List.orderedInsert_cons_of_le _ _ hy,
        List.orderedInsert_cons_of_le _ _ hy]
      rfl
    · rw [List.cons_append,List.orderedInsert_of_not_le _ _ hy,List.orderedInsert_of_not_le _ _ hy,
        ih]
      rfl

theorem orderedInsert_right {l r : List K} {x : K} (hl : ∀ y ∈ l, y < k) (hx : x < k) :
    (l++x::r).orderedInsert (· ≤ ·) k = l++x::r.orderedInsert (· ≤ ·) k := by
  induction l with
  | nil => exact List.orderedInsert_of_not_le _ r hx.not_ge
  | cons y l ih =>
    have hy : ¬k ≤ y := (hl y List.mem_cons_self).not_ge
    rw [List.cons_append,List.orderedInsert_of_not_le _ _ hy,
      ih fun z hz => hl z (List.mem_cons_of_mem _ hz)]
    rfl

theorem keys_insertLeaf (hs : t.keys.Pairwise (· < ·)) (hk : k ∉ t.keys) :
    (t.insertLeaf k).keys = t.keys.orderedInsert (· ≤ ·) k := by
  induction t with
  | nil => rfl
  | node l red black x r ihl ihr =>
    obtain ⟨hl,hxr,hlx⟩ := List.pairwise_append.mp hs
    have hkl : k ∉ l.keys := fun h => hk (by simp [keys,h])
    have hkr : k ∉ r.keys := fun h => hk (by simp [keys,h])
    by_cases hkx : k < x
    · rw [insertLeaf,if_pos hkx,keys,ihl hl hkl,keys,orderedInsert_left hkx]
    · have hxk : x < k := lt_of_le_of_ne (not_lt.mp hkx) fun h => hk (by simp [keys,h])
      have hlk : ∀ y ∈ l.keys, y < k := fun y hy => (hlx y hy x (by simp)).trans hxk
      rw [insertLeaf,if_neg hkx,keys,ihr hxr.of_cons hkr,keys,orderedInsert_right hlk hxk]

theorem pairwise_orderedInsert {l : List K} (h : l.Pairwise (· < ·)) (hk : k ∉ l) :
    (l.orderedInsert (· ≤ ·) k).Pairwise (· < ·) := by
  induction l with
  | nil => simp
  | cons x l ih =>
    obtain ⟨hx,hl⟩ := List.pairwise_cons.mp h
    have hkl : k ∉ l := fun hm => hk (List.mem_cons_of_mem _ hm)
    by_cases hkx : k ≤ x
    · have hlt : k < x := lt_of_le_of_ne hkx fun he => hk (by simp [he])
      rw [List.orderedInsert_cons_of_le _ _ hkx]
      refine List.pairwise_cons.mpr ⟨fun y hy => ?_,h⟩
      rcases List.mem_cons.mp hy with rfl | hy
      · exact hlt
      · exact hlt.trans (hx y hy)
    · rw [List.orderedInsert_of_not_le _ _ hkx]
      refine List.pairwise_cons.mpr ⟨fun y hy => ?_,ih hl hkl⟩
      rcases (List.mem_orderedInsert _).mp hy with rfl | hy
      · exact not_le.mp hkx
      · exact hx y hy

theorem coloured_insertLeaf (h : t.Coloured) : (t.insertLeaf k).Coloured := by
  induction t with
  | nil => exact ⟨by decide,trivial,trivial⟩
  | node l red black x r ihl ihr =>
    obtain ⟨hc,hl,hr⟩ := h
    rw [insertLeaf]
    split
    · exact ⟨hc,ihl hl,hr⟩
    · exact ⟨hc,hl,ihr hr⟩

/-- A red leaf adds no black node to any path. -/
theorem blackHeight_insertLeaf {n : ℕ} (h : t.BlackHeight n) : (t.insertLeaf k).BlackHeight n := by
  induction t generalizing n with
  | nil => exact ⟨n,by simp,h,h⟩
  | node l red black x r ihl ihr =>
    obtain ⟨m,hm,hl,hr⟩ := h
    rw [insertLeaf]
    split
    · exact ⟨m,hm,ihl hl,hr⟩
    · exact ⟨m,hm,hl,ihr hr⟩

theorem rootBlack_insertLeaf (h : t.RootBlack) (ht : t ≠ nil) : (t.insertLeaf k).RootBlack := by
  cases t with
  | nil => exact absurd rfl ht
  | node l red black x r =>
    rw [insertLeaf]
    split <;> exact h

theorem isRed_insertLeaf (ht : t ≠ nil) : (t.insertLeaf k).isRed = t.isRed := by
  cases t with
  | nil => exact absurd rfl ht
  | node l red black x r =>
    rw [insertLeaf]
    split <;> rfl

/-- Below a black node the red leaf has no red parent. -/
theorem noRedRed_insertLeaf {b : Bool} (hc : t.Coloured) (h : t.NoRedRed)
    (hb : t.lastBlack k b = true) : (t.insertLeaf k).NoRedRed := by
  induction t generalizing b with
  | nil => exact ⟨fun _ => ⟨rfl,rfl⟩,trivial,trivial⟩
  | node l red black x r ihl ihr =>
    obtain ⟨hcol,hcl,hcr⟩ := hc
    obtain ⟨hred,hl,hr⟩ := h
    have hside : ∀ t : Shape K, t.lastBlack k black = true → (red = true → t.isRed = false) →
        red = true → (t.insertLeaf k).isRed = false := by
      intro t ht hrt hr
      cases t with
      | nil => exact absurd (hr.trans (show black = true from ht).symm) hcol
      | node => exact (isRed_insertLeaf (by simp)).trans (hrt hr)
    rw [lastBlack] at hb
    rw [insertLeaf]
    by_cases hk : k < x
    · rw [if_pos hk] at hb ⊢
      exact ⟨fun hr => ⟨hside l hb (fun h => (hred h).1) hr,(hred hr).2⟩,ihl hcl hl hb,hr⟩
    · rw [if_neg hk] at hb ⊢
      exact ⟨fun hr => ⟨(hred hr).1,hside r hb (fun h => (hred h).2) hr⟩,hl,ihr hcr hr hb⟩

end Shape

/-! ### The heap with a new leaf -/

section Heap
variable {s s' : RBTree K V} {p q : Option ℕ} {t : Shape K} {a b : ℕ} {slot last : Slot}

theorem Subtree.wired (h : Subtree s q p t) : Wired (wiring s) q p t.keys := by
  induction t generalizing p q with
  | nil =>
    cases h
    exact .nil
  | node l red black k r ihl ihr =>
    obtain ⟨a,n,rfl,hn,hk,hpc,hl,hr⟩ := h
    refine .node (by simp [wiring,hn,hk]) (by simp [wiring,hn,hpc]) ?_ ?_
    · have hleft : (wiring s).left a = n.left := by simp [wiring,hn]
      rw [hleft]
      exact ihl hl
    · have hright : (wiring s).right a = n.right := by simp [wiring,hn]
      rw [hright]
      exact ihr hr

/-- A store into a slot and a new node. -/
structure LinkedTo (s s' : RBTree K V) (b : ℕ) (k : K) (v : V) (parent : Option ℕ)
    (last : Slot) : Prop where
  node : s'.nodes b = some ⟨none,none,v,k,⟨parent,true,false⟩⟩
  slot : content s' last = some b
  other : ∀ slot, slot ≠ last → slot.owner ≠ some b → content s' slot = content s slot
  rest : ∀ a n, s.nodes a = some n → a ≠ b ∧
    ∃ n', s'.nodes a = some n' ∧ n'.key = n.key ∧ n'.pc = n.pc

/-- A new node at an address is not seen in the other slots. -/
theorem content_update {m : Node K V} {root : Option ℕ} {length : ℤ} {fresh : ℕ}
    (hslot : slot.owner ≠ some b) (hroot : slot = .root → root = s.root) :
    content ⟨length,root,Function.update s.nodes b (some m),fresh⟩ slot = content s slot := by
  cases slot with
  | root => exact hroot rfl
  | left p =>
    have hp : p ≠ b := fun h => hslot (by rw [h]; rfl)
    simp [content,wiring,hp]
  | right p =>
    have hp : p ≠ b := fun h => hslot (by rw [h]; rfl)
    simp [content,wiring,hp]

/-- A child of a node is stored into, and the rest is kept. -/
theorem linkedTo_store {k : K} {v : V} {parent : Option ℕ} {c : ℕ} {n m : Node K V}
    (hfresh : s.nodes s.fresh = none) (hc : last.owner = some c) (hn : s.nodes c = some n)
    (hm : m.key = n.key ∧ m.pc = n.pc)
    (hslot : content { s with nodes := Function.update s.nodes c (some m) } last = some s.fresh)
    (hother : ∀ slot, slot ≠ last → slot.owner = some c →
      content { s with nodes := Function.update s.nodes c (some m) } slot = content s slot) :
    LinkedTo s ⟨s.length,s.root,Function.update (Function.update s.nodes s.fresh
      (some ⟨none,none,v,k,⟨parent,true,false⟩⟩)) c (some m),s.fresh+1⟩ s.fresh k v parent last := by
  have hne : ∀ {a : ℕ} {x : Node K V}, s.nodes a = some x → a ≠ s.fresh := by
    rintro a x hx rfl
    cases hfresh.symm.trans hx
  have hcb := hne hn
  have hcomm := Function.update_comm hcb.symm
    (some (⟨none,none,v,k,⟨parent,true,false⟩⟩ : Node K V)) (some m) s.nodes
  rw [hcomm]
  have hlast : last.owner ≠ some s.fresh := by
    rw [hc]
    exact fun h => hcb (Option.some.inj h)
  refine ⟨Function.update_self _ _ _,?_,fun slot hs ho => ?_,fun a x hx => ⟨hne hx,?_⟩⟩
  · rw [← hslot]
    exact content_update (s:={ s with nodes := Function.update s.nodes c (some m) }) hlast
      fun _ => rfl
  · rw [content_update (s:={ s with nodes := Function.update s.nodes c (some m) }) ho fun _ => rfl]
    by_cases hoc : slot.owner = some c
    · exact hother slot hs hoc
    · exact content_update hoc fun _ => rfl
  · have hkeep := Function.update_of_ne (hne hx)
      (some (⟨none,none,v,k,⟨parent,true,false⟩⟩ : Node K V)) (Function.update s.nodes c (some m))
    by_cases hac : a = c
    · subst hac
      cases hn.symm.trans hx
      exact ⟨m,hkeep.trans (Function.update_self _ _ _),hm⟩
    · exact ⟨x,hkeep.trans ((Function.update_of_ne hac _ _).trans hx),rfl,rfl⟩

/-- The slot is the root, or a child slot of a node. -/
theorem linkNew_run {k : K} {v : V} {parent : Option ℕ} (hfresh : s.nodes s.fresh = none)
    (hlast : ∀ c, last.owner = some c → ∃ n, s.nodes c = some n) :
    ∃ s', LinkedTo s s' s.fresh k v parent last ∧ ∀ fuel,
      insertNew fuel k v parent last s = insert fuel (some s.fresh) s' := by
  have hne : ∀ {a : ℕ} {x : Node K V}, s.nodes a = some x → a ≠ s.fresh := by
    rintro a x hx rfl
    cases hfresh.symm.trans hx
  let node : Node K V := ⟨none,none,v,k,⟨parent,true,false⟩⟩
  let s₁ : RBTree K V :=
    { s with nodes := Function.update s.nodes s.fresh (some node), fresh := s.fresh+1 }
  have hstart : ∀ {fuel : ℕ}, insertNew fuel k v parent last s =
      (do
        storeSlot last (some s.fresh)
        insert fuel (some s.fresh)) s₁ := by
    intro fuel
    simp [insertNew,linkAt,setParentColor,alloc,store,s₁,node,Lockstep.bind_apply]
  cases last with
  | root =>
    refine ⟨{ s₁ with root := some s.fresh },⟨Function.update_self _ _ _,rfl,?_,?_⟩,fun fuel => ?_⟩
    · intro slot hs ho
      exact content_update ho fun h => absurd h hs
    · exact fun a x hx => ⟨hne hx,x,(Function.update_of_ne (hne hx) _ _).trans hx,rfl,rfl⟩
    · rw [hstart]
      rfl
  | left c =>
    obtain ⟨n,hn⟩ := hlast c rfl
    refine ⟨_,linkedTo_store (m:={ n with left := some s.fresh }) hfresh rfl hn ⟨rfl,rfl⟩ ?_ ?_,
      fun fuel => ?_⟩
    · simp [content,wiring]
    · intro slot hs ho
      cases slot with
      | root => cases ho
      | left p =>
        cases ho
        exact absurd rfl hs
      | right p =>
        cases ho
        simp [content,wiring,hn]
    · have hc : s₁.nodes c = some n := (Function.update_of_ne (hne hn) _ _).trans hn
      rw [hstart]
      exact Lockstep.bind_ok (run_store hc _)
  | right c =>
    obtain ⟨n,hn⟩ := hlast c rfl
    refine ⟨_,linkedTo_store (m:={ n with right := some s.fresh }) hfresh rfl hn ⟨rfl,rfl⟩ ?_ ?_,
      fun fuel => ?_⟩
    · simp [content,wiring]
    · intro slot hs ho
      cases slot with
      | root => cases ho
      | left p =>
        cases ho
        simp [content,wiring,hn]
      | right p =>
        cases ho
        exact absurd rfl hs
    · have hc : s₁.nodes c = some n := (Function.update_of_ne (hne hn) _ _).trans hn
      rw [hstart]
      exact Lockstep.bind_ok (run_store hc _)

/-- The shape below a node, and its children. -/
theorem Subtree.eq_node {n : Node K V} (h : Subtree s q (some a) t) (hn : s.nodes a = some n) :
    ∃ l red black r, t = .node l red black n.key r := by
  cases t with
  | nil => cases h
  | node l red black k r =>
    obtain ⟨b,m,hb,hm,rfl,-⟩ := h
    cases hb
    cases hn.symm.trans hm
    exact ⟨l,red,black,r,rfl⟩

theorem Subtree.children {n : Node K V} {l r : Shape K} {red black : Bool} {k : K}
    (h : Subtree s q (some a) (.node l red black k r)) (hn : s.nodes a = some n) :
    Subtree s (some a) (content s (.left a)) l ∧ Subtree s (some a) (content s (.right a)) r ∧
      n.pc = ⟨q,red,black⟩ := by
  obtain ⟨b,m,hb,hm,-,hpc,hl,hr⟩ := h
  cases hb
  cases hn.symm.trans hm
  exact ⟨by simpa [content,wiring,hn] using hl,by simpa [content,wiring,hn] using hr,hpc⟩

/-- A subtree is kept when the slot is not in it. -/
theorem Subtree.frame {k : K} {v : V} {parent : Option ℕ} (h : Subtree s q p t)
    (hlink : LinkedTo s s' b k v parent last)
    (hlast : ∀ c, Below (wiring s) p c → last.owner ≠ some c) : Subtree s' q p t := by
  induction t generalizing p q with
  | nil => exact h
  | node l red black x r ihl ihr =>
    obtain ⟨a,n,rfl,hn,hx,hpc,hl,hr⟩ := h
    obtain ⟨hab,n',hn',hkey,hpc'⟩ := hlink.rest a n hn
    have howner : some a ≠ some b := fun h => hab (Option.some.inj h)
    have hne : ∀ slot, slot.owner = some a → slot ≠ last := by
      rintro slot ho rfl
      exact hlast a (.here a) ho
    have hleft : n'.left = n.left := by
      have hcontent := hlink.other (.left a) (hne _ rfl) howner
      simpa [content,wiring,hn,hn'] using hcontent
    have hright : n'.right = n.right := by
      have hcontent := hlink.other (.right a) (hne _ rfl) howner
      simpa [content,wiring,hn,hn'] using hcontent
    refine ⟨a,n',rfl,hn',hkey.trans hx,hpc'.trans hpc,?_,?_⟩
    · rw [hleft]
      exact ihl hl fun c hc => hlast c (.left (by simpa [wiring,hn] using hc))
    · rw [hright]
      exact ihr hr fun c hc => hlast c (.right (by simpa [wiring,hn] using hc))

section Search
variable [LinearOrder K] {k : K} {v : V} {parent : Option ℕ}

theorem Position.owner (h : Position s k q slot parent last) :
    last = slot ∧ parent = q ∨
      ∃ c, parent = some c ∧ last.owner = some c ∧ Below (wiring s) (content s slot) c := by
  induction h with
  | here h => exact .inl ⟨rfl,rfl⟩
  | @left q parent slot last a n h hn hk rest ih =>
    rw [h]
    rcases ih with ⟨rfl,rfl⟩ | ⟨c,hc,ho,hb⟩
    · exact .inr ⟨a,rfl,rfl,.here a⟩
    · exact .inr ⟨c,hc,ho,.left hb⟩
  | @right q parent slot last a n h hn hk rest ih =>
    rw [h]
    rcases ih with ⟨rfl,rfl⟩ | ⟨c,hc,ho,hb⟩
    · exact .inr ⟨a,rfl,rfl,.here a⟩
    · exact .inr ⟨c,hc,ho,.right hb⟩

/-- Every new key has a search position. -/
theorem exists_position (slot : Slot) (h : Subtree s q (content s slot) t) (hk : k ∉ t.keys) :
    ∃ parent last, Position s k q slot parent last := by
  induction t generalizing q slot with
  | nil => exact ⟨q,slot,.here h⟩
  | node l red black x r ihl ihr =>
    obtain ⟨a,n,ha,hn,rfl,-,hl,hr⟩ := h
    rcases lt_trichotomy k n.key with hlt | heq | hgt
    · have hleft : content s (.left a) = n.left := by simp [content,wiring,hn]
      obtain ⟨parent,last,hpos⟩ := ihl (.left a) (hleft ▸ hl) fun hm =>
        hk (by simp [Shape.keys,hm])
      exact ⟨parent,last,.left ha hn hlt hpos⟩
    · exact absurd (by simp [Shape.keys,heq]) hk
    · have hright : content s (.right a) = n.right := by simp [content,wiring,hn]
      obtain ⟨parent,last,hpos⟩ := ihr (.right a) (hright ▸ hr) fun hm =>
        hk (by simp [Shape.keys,hm])
      exact ⟨parent,last,.right ha hn hgt hpos⟩

theorem Position.lastBlack (hpos : Position s k q slot parent last)
    (h : Subtree s q (content s slot) t) : blackAt s parent = t.lastBlack k (blackAt s q) := by
  induction hpos generalizing t with
  | here hnil =>
    rw [hnil] at h
    cases t with
    | nil => rfl
    | node l red black x r =>
      obtain ⟨a,n,ha,-⟩ := h
      cases ha
  | @left q parent slot last a n ha hn hk rest ih =>
    rw [ha] at h
    obtain ⟨l,red,black,r,rfl⟩ := h.eq_node hn
    obtain ⟨hl,-,hpc⟩ := h.children hn
    rw [ih hl,Shape.lastBlack,if_pos hk]
    simp [blackAt,hn,hpc]
  | @right q parent slot last a n ha hn hk rest ih =>
    rw [ha] at h
    obtain ⟨l,red,black,r,rfl⟩ := h.eq_node hn
    obtain ⟨-,hr,hpc⟩ := h.children hn
    rw [ih hr,Shape.lastBlack,if_neg hk.not_gt]
    simp [blackAt,hn,hpc]

/-- The slot at the end belongs to a node below the one whose slot the search came to. -/
theorem Position.owner_below (h : Position s k q slot parent last) (ha : slot.owner = some a)
    (hbelow : ∀ c, Below (wiring s) (content s slot) c → Below (wiring s) (some a) c) :
    ∃ c, last.owner = some c ∧ Below (wiring s) (some a) c := by
  rcases h.owner with ⟨rfl,-⟩ | ⟨c,-,ho,hc⟩
  · exact ⟨a,ha,.here a⟩
  · exact ⟨c,ho,hbelow c hc⟩

/-- The other child of a node the search passes is kept. -/
theorem LinkedTo.beside (hlink : LinkedTo s s' b k v parent last) (other : Slot)
    (hpos : Position s k q slot parent last) (hslot : slot.owner = some a)
    (hother : other.owner = some a) (hne : other ≠ slot) (hab : some a ≠ some b)
    (hself : ¬Below (wiring s) (content s slot) a)
    (hself' : ¬Below (wiring s) (content s other) a)
    (hdisj : ∀ c, Below (wiring s) (content s slot) c → ¬Below (wiring s) (content s other) c) :
    content s' other = content s other ∧
      ∀ c, Below (wiring s) (content s other) c → last.owner ≠ some c := by
  have hkeep : content s' other = content s other := by
    refine hlink.other other ?_ (by rwa [hother])
    rintro rfl
    rcases hpos.owner with ⟨he,-⟩ | ⟨c,-,ho,hc⟩
    · exact hne he
    · cases ho.symm.trans hother
      exact hself hc
  refine ⟨hkeep,fun c hc ho => ?_⟩
  rcases hpos.owner with ⟨rfl,-⟩ | ⟨d,-,ho',hd⟩
  · cases ho.symm.trans hslot
    exact hself' hc
  · cases ho.symm.trans ho'
    exact hdisj c hd hc

/-- The leaf is a new node of the tree. -/
theorem Subtree.linkLeaf (h : Subtree s q (content s slot) t) (hs : t.keys.Pairwise (· < ·))
    (hpos : Position s k q slot parent last) (hlink : LinkedTo s s' b k v parent last)
    (hout : ∀ c, slot.owner = some c → ¬Below (wiring s) (content s slot) c)
    (hb : slot.owner ≠ some b) :
    Subtree s' q (content s' slot) (t.insertLeaf k) ∧
      Below (wiring s') (content s' slot) b := by
  induction hpos generalizing t with
  | here hnil =>
    rw [hnil] at h
    have ht : t = .nil := by
      cases t with
      | nil => rfl
      | node l red black x r =>
        obtain ⟨a,n,ha,-⟩ := h
        cases ha
    subst ht
    rw [hlink.slot]
    exact ⟨⟨b,_,rfl,hlink.node,rfl,rfl,rfl,rfl⟩,.here b⟩
  | @left q parent slot last a n ha hn hk rest ih =>
    rw [ha] at h hout
    obtain ⟨l,red,black,r,rfl⟩ := h.eq_node hn
    obtain ⟨hl,hr,hpc⟩ := h.children hn
    obtain ⟨hla,hra,hlr⟩ := h.wired.disjoint hs.nodup
    obtain ⟨hab,n',hn',hkey,hpc'⟩ := hlink.rest a n hn
    have hba : some a ≠ some b := fun h => hab (Option.some.inj h)
    obtain ⟨hsub,hbelow⟩ := ih hl (List.pairwise_append.mp hs).1 hlink
      (fun c hc hbl => by cases hc; exact hla hbl) hba
    have hslot : content s' slot = some a := by
      obtain ⟨c,ho,hc⟩ := rest.owner_below rfl fun _ => .left
      refine (hlink.other slot ?_ hb).trans ha
      rintro rfl
      exact hout c ho hc
    obtain ⟨hright,hframe⟩ := hlink.beside (.right a) rest rfl rfl (by simp) hba hla hra hlr
    have hkeep := hr.frame hlink hframe
    rw [← hright] at hkeep
    rw [hslot,Shape.insertLeaf,if_pos hk]
    refine ⟨⟨a,n',rfl,hn',hkey,hpc'.trans hpc,?_,?_⟩,.left hbelow⟩
    · simpa [content,wiring,hn'] using hsub
    · simpa [content,wiring,hn'] using hkeep
  | @right q parent slot last a n ha hn hk rest ih =>
    rw [ha] at h hout
    obtain ⟨l,red,black,r,rfl⟩ := h.eq_node hn
    obtain ⟨hl,hr,hpc⟩ := h.children hn
    obtain ⟨hla,hra,hlr⟩ := h.wired.disjoint hs.nodup
    obtain ⟨hab,n',hn',hkey,hpc'⟩ := hlink.rest a n hn
    have hba : some a ≠ some b := fun h => hab (Option.some.inj h)
    obtain ⟨hsub,hbelow⟩ := ih hr (List.pairwise_append.mp hs).2.1.of_cons hlink
      (fun c hc hbl => by cases hc; exact hra hbl) hba
    have hslot : content s' slot = some a := by
      obtain ⟨c,ho,hc⟩ := rest.owner_below rfl fun _ => .right
      refine (hlink.other slot ?_ hb).trans ha
      rintro rfl
      exact hout c ho hc
    obtain ⟨hleft,hframe⟩ := hlink.beside (.left a) rest rfl rfl (by simp) hba hra hla
      fun c hc hc' => hlr c hc' hc
    have hkeep := hl.frame hlink hframe
    rw [← hleft] at hkeep
    rw [hslot,Shape.insertLeaf,if_neg hk.not_gt]
    refine ⟨⟨a,n',rfl,hn',hkey,hpc'.trans hpc,?_,?_⟩,.right hbelow⟩
    · simpa [content,wiring,hn'] using hkeep
    · simpa [content,wiring,hn'] using hsub

end Search

end Heap

/-! ### When the insertion is right -/

section Insertion
variable [LinearOrder K] {s u : RBTree K V} {t : Shape K} {k : K}

/-- The tree has the properties of a red-black tree, and this shape. -/
structure Valid (s : RBTree K V) (t : Shape K) : Prop where
  tree : Subtree s none s.root t
  rootBlack : t.RootBlack
  coloured : t.Coloured
  noRedRed : t.NoRedRed
  blackHeight : ∃ n, t.BlackHeight n
  sorted : t.keys.Pairwise (· < ·)

theorem redBlack_iff_valid : RedBlack s ↔ ∃ t, Valid s t := by
  constructor
  · rintro ⟨t,h₁,h₂,h₃,h₄,h₅,h₆⟩
    exact ⟨t,h₁,h₂,h₃,h₄,h₅,h₆⟩
  · rintro ⟨t,h⟩
    exact ⟨t,h.tree,h.rootBlack,h.coloured,h.noRedRed,h.blackHeight,h.sorted⟩

/-- Linking a leaf with the new key at its search position and rebalancing leaves a red-black
tree with the new key among the old ones. -/
def Inserts (s : RBTree K V) (t : Shape K) (k : K) (v : V) : Prop :=
  ∀ parent last, Position s k none .root parent last → ∃ fuel u t',
    insertNew fuel k v parent last s = .ok ((),u) ∧ Valid u t' ∧
      t'.keys = t.keys.orderedInsert (· ≤ ·) k

/-- The heap between the linking and the rebalancing. -/
theorem Valid.linked (h : Valid s t) (hfresh : s.nodes s.fresh = none) (v : V) {parent : Option ℕ}
    {last : Slot} (hpos : Position s k none .root parent last) :
    ∃ s', LinkedTo s s' s.fresh k v parent last ∧
      Subtree s' none s'.root (t.insertLeaf k) ∧ Below (wiring s') s'.root s.fresh ∧
      ∀ fuel, insertNew fuel k v parent last s = insertLoop fuel (some s.fresh) parent s' := by
  have hlast : ∀ c, last.owner = some c → ∃ n, s.nodes c = some n := by
    intro c hc
    rcases hpos.owner with ⟨rfl,-⟩ | ⟨d,-,ho,hd⟩
    · cases hc
    · obtain rfl : d = c := Option.some.inj (ho.symm.trans hc)
      obtain ⟨x,-,hx⟩ := h.tree.wired.key_mem hd
      obtain ⟨n,hn,-⟩ := Option.map_eq_some_iff.mp hx
      exact ⟨n,hn⟩
  obtain ⟨s',hlink,hrun⟩ : ∃ s', LinkedTo s s' s.fresh k v parent last ∧ ∀ fuel,
      insertNew fuel k v parent last s = insert fuel (some s.fresh) s' :=
    linkNew_run hfresh hlast
  have hroot : Subtree s none (content s .root) t := h.tree
  obtain ⟨htree,hbelow⟩ := hroot.linkLeaf h.sorted hpos hlink (fun c hc => by cases hc)
    (by simp [Slot.owner])
  refine ⟨s',hlink,htree,hbelow,fun fuel => ?_⟩
  rw [hrun,insert]
  exact Lockstep.bind_ok (run_load hlink.node)

/-- Below a black node nothing is left to do. -/
theorem Valid.inserts_of_black (h : Valid s t) (hfresh : s.nodes s.fresh = none) (hk : k ∉ t.keys)
    (v : V) (hblack : t.lastBlack k false = true) : Inserts s t k v := by
  intro parent last hpos
  obtain ⟨s',hlink,htree,-,hrun⟩ := h.linked hfresh v hpos
  have hparent : blackAt s parent = true := (hpos.lastBlack h.tree).trans hblack
  have hne : t ≠ .nil := by
    rintro rfl
    cases hblack
  refine ⟨1,s',t.insertLeaf k,?_,⟨htree,Shape.rootBlack_insertLeaf h.rootBlack hne,
    Shape.coloured_insertLeaf h.coloured,Shape.noRedRed_insertLeaf h.coloured h.noRedRed hblack,
    ?_,?_⟩,Shape.keys_insertLeaf h.sorted hk⟩
  · rcases parent with _ | p
    · cases hparent
    · obtain ⟨n,hn,hb⟩ : ∃ n, s.nodes p = some n ∧ n.pc.black = true := by
        cases hn : s.nodes p with
        | none => simp [blackAt,hn] at hparent
        | some n => exact ⟨n,rfl,by simpa [blackAt,hn] using hparent⟩
      obtain ⟨-,n',hn',-,hpc⟩ := hlink.rest p n hn
      rw [hrun,insertLoop,if_neg (Option.some_ne_none p)]
      refine (Lockstep.bind_ok (run_load hn')).trans ?_
      rw [hpc,hb]
      rfl
  · obtain ⟨m,hm⟩ := h.blackHeight
    exact ⟨m,Shape.blackHeight_insertLeaf hm⟩
  · rw [Shape.keys_insertLeaf h.sorted hk]
    exact Shape.pairwise_orderedInsert h.sorted hk

/-- An empty tree gets a red root. -/
theorem Valid.not_inserts_root {s' : RBTree K V} {b : ℕ} {v : V} {t' : Shape K}
    (hlink : LinkedTo s s' b k v none .root) : ¬Valid s' t' := by
  intro h'
  have hroot : s'.root = some b := hlink.slot
  have htree := h'.tree
  rw [hroot] at htree
  obtain ⟨l,red,black,r,rfl⟩ := htree.eq_node hlink.node
  obtain ⟨-,-,hpc⟩ := htree.children hlink.node
  cases hpc
  exact Bool.false_ne_true h'.rootBlack

/-- Without a black node above the new leaf the insertion is never right. -/
theorem Valid.not_inserts (h : Valid s t) (hfresh : s.nodes s.fresh = none) (hk : k ∉ t.keys)
    (v : V) (hblack : t.lastBlack k false = false) : ¬Inserts s t k v := by
  intro hins
  obtain ⟨parent,last,hpos⟩ := exists_position .root h.tree hk
  obtain ⟨fuel,u,t',hok,hvalid,hkeys⟩ := hins parent last hpos
  obtain ⟨s',hlink,htree,hbelow,hrun⟩ := h.linked hfresh v hpos
  have hparent : blackAt s parent = false := (hpos.lastBlack h.tree).trans hblack
  rw [hrun] at hok
  rcases parent with _ | p
  · obtain rfl : last = .root := by
      rcases hpos.owner with ⟨hl,-⟩ | ⟨c,hc,-⟩
      · exact hl
      · cases hc
    rcases fuel with _ | fuel
    · cases hok
    · cases hok
      exact not_inserts_root hlink hvalid
  · have hsorted : (t.insertLeaf k).keys.Nodup := by
      rw [Shape.keys_insertLeaf h.sorted hk]
      exact (Shape.pairwise_orderedInsert h.sorted hk).nodup
    have hwired := htree.wired
    have hp : (wiring s').parent s.fresh = some p := by simp [wiring,hlink.node]
    have hred : (s'.nodes p).map (fun n => n.pc.black) = some false := by
      rcases hpos.owner with ⟨-,hp⟩ | ⟨c,hc,-,hbelow⟩
      · cases hp
      · cases hc
        obtain ⟨x,-,hx⟩ := h.tree.wired.key_mem hbelow
        obtain ⟨n,hn,-⟩ := Option.map_eq_some_iff.mp hx
        obtain ⟨-,n',hn',-,hpc⟩ := hlink.rest p n hn
        rw [hn',Option.map_some,hpc]
        exact congrArg some (by simpa [blackAt,hn] using hparent)
    refine insertLoop_lost hwired hsorted (hwired.parent_below hbelow hp).1 hred hok ?_
    rw [Shape.keys_insertLeaf h.sorted hk,← hkeys]
    exact hvalid.tree.wired

/-- Linking a new key in a valid tree and rebalancing is right exactly when the search for
the key passes a node and the last one it passes is black. -/
theorem inserts_iff (h : Valid s t) (hfresh : s.nodes s.fresh = none) (hk : k ∉ t.keys) (v : V) :
    Inserts s t k v ↔ ∃ p last, Position s k none .root (some p) last ∧
      blackAt s (some p) = true := by
  constructor
  · intro hins
    obtain ⟨parent,last,hpos⟩ := exists_position .root h.tree hk
    have hlast := hpos.lastBlack h.tree
    by_cases hb : blackAt s parent = true
    · rcases parent with _ | p
      · cases hb
      · exact ⟨p,last,hpos,hb⟩
    · exact absurd hins (h.not_inserts hfresh hk v (hlast.symm.trans (by simpa using hb)))
  · rintro ⟨p,last,hpos,hb⟩
    exact h.inserts_of_black hfresh hk v ((hpos.lastBlack h.tree).symm.trans hb)

/-- A black root with a red left child. -/
def redChild : RBTree ℕ ℕ where
  length := 2
  root := some 0
  nodes a :=
    if a = 0 then some ⟨some 1,none,20,2,⟨none,false,true⟩⟩
    else if a = 1 then some ⟨none,none,10,1,⟨some 0,true,false⟩⟩
    else none
  fresh := 2

def redChildShape : Shape ℕ := .node (.node .nil true false 1 .nil) false true 2 .nil

theorem valid_redChild : Valid redChild redChildShape where
  tree := ⟨0,_,rfl,rfl,rfl,rfl,⟨1,_,rfl,rfl,rfl,rfl,rfl,rfl⟩,rfl⟩
  rootBlack := rfl
  coloured := ⟨by decide,⟨by decide,trivial,trivial⟩,trivial⟩
  noRedRed := ⟨by simp,⟨fun _ => ⟨rfl,rfl⟩,trivial,trivial⟩,trivial⟩
  blackHeight := ⟨1,0,rfl,⟨0,rfl,rfl,rfl⟩,rfl⟩
  sorted := by decide

/-- The key 3 comes below the black root. -/
theorem inserts_three : Inserts redChild redChildShape 3 30 :=
  (inserts_iff valid_redChild rfl (by decide) 30).mpr
    ⟨0,.right 0,.right rfl rfl (by decide) (.here rfl),rfl⟩

/-- The key 0 comes below the red node, and the tree loses two nodes. -/
theorem not_inserts_zero : ¬∀ (s : RBTree ℕ ℕ) (t : Shape ℕ) (k v : ℕ), Valid s t →
    s.nodes s.fresh = none → k ∉ t.keys → Inserts s t k v :=
  fun h => valid_redChild.not_inserts rfl (by decide) 5 rfl
    (h redChild redChildShape 0 5 valid_redChild rfl (by decide))

end Insertion

end RbTree
end RecycleBin
