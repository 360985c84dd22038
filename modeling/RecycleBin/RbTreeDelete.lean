import RecycleBin.RbTreeLeaf

/-! What `Delete` does to the number of keys the tree says it has: nothing. -/
namespace RecycleBin
namespace RbTree

open Lockstep

variable {K V : Type}

/-! ### The length -/

section Length

/-- The program leaves the length alone. -/
abbrev KeepsLength {α : Type} (m : Prog K V α) : Prop := Preserves RBTree.length m

theorem keepsLength_load (p : Option ℕ) : KeepsLength (load p : Prog K V _) := by
  intro s n t h
  rw [(load_ok h).1]

theorem keepsLength_store (p : Option ℕ) (f : Node K V → Node K V) : KeepsLength (store p f) := by
  intro s r t h
  obtain ⟨a,n,-,-,rfl⟩ := store_ok h
  rfl

theorem keepsLength_setLeft (p x : Option ℕ) : KeepsLength (setLeft p x : Prog K V _) :=
  keepsLength_store _ _

theorem keepsLength_setRight (p x : Option ℕ) : KeepsLength (setRight p x : Prog K V _) :=
  keepsLength_store _ _

theorem keepsLength_setParent (p x : Option ℕ) : KeepsLength (setParent p x : Prog K V _) :=
  keepsLength_store _ _

theorem keepsLength_setParentColor (p : Option ℕ) (pc : ParentColor) :
    KeepsLength (setParentColor p pc : Prog K V _) :=
  keepsLength_store _ _

theorem keepsLength_setBlack (p : Option ℕ) : KeepsLength (setBlack p : Prog K V _) :=
  keepsLength_store _ _

theorem keepsLength_loadRoot : KeepsLength (loadRoot : Prog K V _) := by
  intro s r t h
  cases h
  rfl

theorem keepsLength_storeRoot (p : Option ℕ) : KeepsLength (storeRoot p : Prog K V _) := by
  intro s r t h
  cases h
  rfl

theorem keepsLength_setParentRed (n parent : Option ℕ) :
    KeepsLength (setParentRed n parent : Prog K V _) :=
  .bind (keepsLength_store _ _) fun _ => keepsLength_store _ _

theorem keepsLength_setParentBlack (n parent : Option ℕ) :
    KeepsLength (setParentBlack n parent : Prog K V _) :=
  .bind (keepsLength_store _ _) fun _ => keepsLength_store _ _

theorem keepsLength_adopt (n parent : Option ℕ) : KeepsLength (adopt n parent : Prog K V _) :=
  .ite (keepsLength_setParentBlack _ _) (.pure _ _)

theorem keepsLength_isBlack (n : Option ℕ) : KeepsLength (isBlack n : Prog K V _) :=
  .ite (.pure _ _) (.bind (keepsLength_load _) fun _ => .pure _ _)

theorem keepsLength_changeChild (old new parent : Option ℕ) :
    KeepsLength (changeChild old new parent : Prog K V _) :=
  .ite (.bind (keepsLength_load _) fun _ => .ite (keepsLength_store _ _) (keepsLength_store _ _))
    (keepsLength_storeRoot _)

theorem keepsLength_rotateSetParents (old new : Option ℕ) (color : Color) :
    KeepsLength (rotateSetParents old new color : Prog K V _) := by
  refine .bind (keepsLength_load _) fun o => .bind (keepsLength_store _ _) fun _ => ?_
  cases color with
  | red => exact .bind (keepsLength_setParentRed _ _) fun _ => keepsLength_changeChild _ _ _
  | black => exact .bind (keepsLength_setParentBlack _ _) fun _ => keepsLength_changeChild _ _ _

theorem keepsLength_successorLoop (fuel : ℕ) (successor tmp : Option ℕ) :
    KeepsLength (successorLoop fuel successor tmp : Prog K V _) := by
  induction fuel generalizing successor tmp with
  | zero => exact .throw _ _
  | succ fuel ih => exact .bind (keepsLength_load _) fun t => .ite (.pure _ _) (ih _ _)

theorem keepsLength_eraseAugmented (fuel : ℕ) (n : Option ℕ) :
    KeepsLength (eraseAugmented fuel n : Prog K V _) := by
  unfold eraseAugmented
  dsimp only
  repeat' first
    | with_reducible exact keepsLength_load _
    | with_reducible exact keepsLength_setLeft _ _
    | with_reducible exact keepsLength_setRight _ _
    | with_reducible exact keepsLength_setParent _ _
    | with_reducible exact keepsLength_setParentColor _ _
    | with_reducible exact keepsLength_setParentBlack _ _
    | with_reducible exact keepsLength_changeChild _ _ _
    | with_reducible exact keepsLength_successorLoop _ _ _
    | with_reducible exact .pure _ _
    | with_reducible refine .ite ?_ ?_
    | with_reducible refine .bind ?_ fun _ => ?_

theorem keepsLength_eraseColorLoop (fuel : ℕ) (n parent : Option ℕ) :
    KeepsLength (eraseColorLoop fuel n parent : Prog K V _) := by
  induction fuel generalizing n parent with
  | zero => exact .throw _ _
  | succ fuel ih =>
    rw [eraseColorLoop]
    dsimp only
    repeat' first
      | with_reducible exact keepsLength_load _
      | with_reducible exact keepsLength_setLeft _ _
      | with_reducible exact keepsLength_setRight _ _
      | with_reducible exact keepsLength_setParent _ _
      | with_reducible exact keepsLength_setBlack _
      | with_reducible exact keepsLength_isBlack _
      | with_reducible exact keepsLength_adopt _ _
      | with_reducible exact keepsLength_setParentRed _ _
      | with_reducible exact keepsLength_setParentBlack _ _
      | with_reducible exact keepsLength_rotateSetParents _ _ _
      | with_reducible exact ih _ _
      | with_reducible exact .pure _ _
      | with_reducible refine .ite ?_ ?_
      | with_reducible refine .bind ?_ fun _ => ?_

end Length

/-! ### The search -/

section Search
variable [LinearOrder K] {s : RBTree K V} {t : Shape K} {k : K}

theorem keepsLength_find (fuel : ℕ) (p : Option ℕ) : KeepsLength (find k fuel p : Prog K V _) := by
  induction fuel generalizing p with
  | zero => exact .throw _ _
  | succ fuel ih =>
    exact .ite (.pure _ _) (.bind (keepsLength_load _) fun x =>
      .ite (.pure _ _) (.ite (ih _) (ih _)))

/-- No run of `Delete` changes the length. -/
theorem keepsLength_delete (fuel : ℕ) (k : K) : KeepsLength (delete fuel k : Prog K V _) := by
  refine .bind keepsLength_loadRoot fun p => .bind (keepsLength_find _ _) fun n => ?_
  refine .ite (.pure _ _) (.bind (keepsLength_eraseAugmented _ _) fun rebalance => ?_)
  exact .ite (keepsLength_eraseColorLoop _ _ _) (.pure _ _)

/-- The search for a key that is not in the tree ends at nil. -/
theorem Subtree.find_absent {q p : Option ℕ} (h : Subtree s q p t) (hk : k ∉ t.keys) :
    ∃ n, ∀ fuel, n ≤ fuel → find k fuel p s = .ok (none,s) := by
  induction t generalizing q p with
  | nil =>
    refine ⟨1,fun fuel hf => ?_⟩
    obtain ⟨fuel,rfl⟩ := Nat.exists_eq_succ_of_ne_zero (Nat.pos_iff_ne_zero.mp hf)
    have hp : p = none := h
    rw [find,if_pos hp]
    rfl
  | node l red black x r ihl ihr =>
    obtain ⟨a,n,rfl,hn,rfl,-,hl,hr⟩ := h
    obtain ⟨i,hi⟩ := ihl hl fun hm => hk (by simp [Shape.keys,hm])
    obtain ⟨j,hj⟩ := ihr hr fun hm => hk (by simp [Shape.keys,hm])
    have hne : n.key ≠ k := fun he => hk (by simp [Shape.keys,he])
    refine ⟨i+j+1,fun fuel hf => ?_⟩
    obtain ⟨fuel,rfl⟩ := Nat.exists_eq_succ_of_ne_zero (show fuel ≠ 0 by omega)
    rw [find,if_neg (Option.some_ne_none a)]
    refine (bind_ok (run_load hn)).trans ?_
    rw [if_neg hne]
    by_cases hgt : k > n.key
    · rw [if_pos hgt]
      exact hj fuel (by omega)
    · rw [if_neg hgt]
      exact hi fuel (by omega)

/-! ### When the deletion is right -/

/-- A node of the tree holds this key and value. -/
def Stored (s : RBTree K V) (k : K) (v : V) : Prop :=
  ∃ a n, ParentTree.Below (wiring s) s.root a ∧ s.nodes a = some n ∧ n.key = k ∧ n.val = v

/-- `Delete` returns and leaves a valid tree with the other keys, their values and their
number. -/
def Deletes (s : RBTree K V) (t : Shape K) (k : K) : Prop :=
  ∃ fuel u t', delete fuel k s = .ok ((),u) ∧ Valid u t' ∧ u.length = t'.keys.length ∧
    (∀ k' v, Stored u k' v ↔ k' ≠ k ∧ Stored s k' v) ∧
    u.length = if k ∈ t.keys then s.length-1 else s.length

theorem delete_absent (h : Valid s t) (hk : k ∉ t.keys) : ∃ fuel, delete fuel k s = .ok ((),s) := by
  obtain ⟨n,hn⟩ := h.tree.find_absent hk
  exact ⟨n,(bind_ok run_loadRoot).trans (bind_ok (hn n le_rfl))⟩

/-- In a tree that counts its nodes `Delete` is right exactly when there is nothing to
delete. -/
theorem deletes_iff (h : Valid s t) (hlen : s.length = t.keys.length) :
    Deletes s t k ↔ k ∉ t.keys := by
  constructor
  · rintro ⟨fuel,u,t',hrun,-,-,-,hcount⟩ hk
    have hkeep := keepsLength_delete fuel k s () u hrun
    rw [if_pos hk,hkeep] at hcount
    omega
  · intro hk
    obtain ⟨fuel,hrun⟩ := delete_absent h hk
    refine ⟨fuel,s,t,hrun,h,hlen,fun k' v => ?_,(if_neg hk).symm⟩
    constructor
    · rintro ⟨a,n,hbelow,hn,rfl,rfl⟩
      refine ⟨?_,a,n,hbelow,hn,rfl,rfl⟩
      rintro rfl
      obtain ⟨x,hx,hkey⟩ := h.tree.wired.key_mem hbelow
      have hx' : n.key = x := by simpa [wiring,hn] using hkey
      exact hk (hx' ▸ hx)
    · exact fun hs => hs.2

theorem deletes_five : Deletes redChild redChildShape 5 :=
  (deletes_iff valid_redChild rfl).mpr (by decide)

/-- The deletion of the red child leaves the length 2. -/
theorem not_deletes_one : ¬∀ (s : RBTree ℕ ℕ) (t : Shape ℕ) (k : ℕ), Valid s t →
    s.length = t.keys.length → Deletes s t k := by
  intro h
  obtain ⟨fuel,u,t',hrun,-,-,-,hcount⟩ := h redChild redChildShape 1 valid_redChild rfl
  have hkeep := keepsLength_delete fuel 1 redChild () u hrun
  rw [if_pos (by decide),hkeep] at hcount
  omega

end Search

end RbTree
end RecycleBin
