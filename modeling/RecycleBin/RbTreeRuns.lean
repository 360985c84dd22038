import Mathlib.Data.Finmap
import RecycleBin.RbTree

/-! Which sequences of calls the tree serves as an ordered map. Since the descent of
`SetWithPrev` writes the root, a second key loses the first node and the rebalancing
dereferences nil; so a tree in use has at most one node. -/
namespace RecycleBin
namespace RbTree

variable {K V : Type}

inductive Op (K V : Type)
  | setWithPrev (k : K) (v : V)
  | delete (k : K)
  | getWithErr (k : K)
  | first
  | last

inductive Res (V : Type)
  | set (prev : V) (replaced : Bool)
  | deleted
  | value (v : V) (err : Option Err)
  deriving DecidableEq

section Spec
variable [LinearOrder K] [Inhabited V]

def prog (fuel : ℕ) : Op K V → Prog K V (Res V)
  | .setWithPrev k v => do
    let (prev,replaced) ← setWithPrev fuel k v
    pure (.set prev replaced)
  | .delete k => do
    delete fuel k
    pure .deleted
  | .getWithErr k => do
    let (v,err) ← getWithErr fuel k
    pure (.value v err)
  | .first => do
    let (v,err) ← first fuel
    pure (.value v err)
  | .last => do
    let (v,err) ← last fuel
    pure (.value v err)

/-- One call, observed by its result and the length after it. -/
def exec (fuel : ℕ) (op : Op K V) (s : RBTree K V) :
    Except Fault ((Res V × ℤ) × RBTree K V) := do
  let (r,t) ← (prog fuel op).run s
  .ok ((r,t.length),t)

abbrev Map (K V : Type) := Finmap fun _ : K => V

/-- A value with a nil error, or the zero value with `ErrNotFound`. -/
def answer : Option V → Res V
  | some v => .value v none
  | none => .value default (some .notFound)

/-- The result of a call on an ordered finite map, and the map after it. -/
def answerOn : Op K V → Map K V → Res V × Map K V
  | .setWithPrev k v, M => (.set ((M.lookup k).getD default) (decide (k ∈ M)),M.insert k v)
  | .delete k, M => (.deleted,M.erase k)
  | .getWithErr k, M => (answer (M.lookup k),M)
  | .first, M => (answer (if h : M.keys.Nonempty then M.lookup (M.keys.min' h) else none),M)
  | .last, M => (answer (if h : M.keys.Nonempty then M.lookup (M.keys.max' h) else none),M)

/-- The ordered finite map, observed by the result and the number of keys. -/
def spec (op : Op K V) (M : Map K V) : (Res V × ℤ) × Map K V :=
  let r := answerOn op M
  ((r.1,r.2.keys.card),r.2)

end Spec

/-! ### Trees of at most one node -/

/-- The tree holds no node, or a single red one. -/
def Holds (s : RBTree K V) : Option (K × V) → Prop
  | none => s.root = none
  | some (k,v) => ∃ a < s.fresh, s.root = some a ∧
      s.nodes a = some ⟨none,none,v,k,⟨none,true,false⟩⟩

section Step
variable {s : RBTree K V} {k k' : K} {v v' : V} (fuel : ℕ)

/-- A new node leaves the tree as it is. -/
theorem Holds.alloc {o : Option (K × V)} (h : Holds s o) (n : Node K V) :
    Holds { s with nodes := Function.update s.nodes s.fresh (some n), fresh := s.fresh+1 } o := by
  rcases o with _ | ⟨k,v⟩
  · exact h
  · obtain ⟨a,ha,hroot,hnode⟩ := h
    exact ⟨a,ha.trans (Nat.lt_succ_self _),hroot,(Function.update_of_ne ha.ne _ _).trans hnode⟩

/-- Below a red root the rebalancing asks for the uncle in a nil parent. -/
theorem insert_red_root {a b : ℕ} {n p : Node K V} (hn : s.nodes b = some n)
    (hparent : n.pc.parent = some a) (hp : s.nodes a = some p) (hred : p.pc.black = false)
    (hroot : p.pc.parent = none) : (insert (fuel+1) (some b)).run s = .error .panic := by
  simp only [insert,StateT.run_bind,run_load hn,ok_bind,hparent]
  rw [insertLoop,if_neg (Option.some_ne_none a)]
  simp only [StateT.run_bind,run_load hp,ok_bind,hred,hroot]
  rfl

/-- A root is left as it is. -/
theorem insert_root {a : ℕ} {n : Node K V} (hn : s.nodes a = some n) (hparent : n.pc.parent = none) :
    (insert (fuel+1) (some a)).run s = .ok ((),s) := by
  simp only [insert,StateT.run_bind,run_load hn,ok_bind,hparent]
  rw [insertLoop,if_pos rfl]
  rfl

/-- A red root without children is taken out, and nothing is rebalanced. -/
theorem erase_root {a : ℕ} (hn : s.nodes a = some ⟨none,none,v,k,⟨none,true,false⟩⟩) :
    (eraseAugmented fuel (some a)).run s = .ok (none,{ s with root := none }) := by
  simp only [eraseAugmented,StateT.run_bind,run_load hn,ok_bind]
  rfl

/-- A node is linked as a red root, whatever its parent. -/
theorem run_link {a : ℕ} {n : Node K V} (hn : s.nodes a = some n) (parent : Option ℕ) :
    (link (some a) parent).run s = .ok ((),{ s with
      root := some a
      nodes := Function.update s.nodes a (some { n with pc := ⟨parent,true,false⟩ }) }) := by
  have hstore := run_store hn fun x => { x with pc := ⟨parent,true,false⟩ }
  simp [link,setParentColor,hstore,run_storeRoot]

section First
variable [Inhabited V]

theorem first_empty (h : Holds s none) :
    (first (fuel+2)).run s = .ok (((default : V),some .notFound),s) := by
  have hroot : s.root = none := h
  simp [first,run_loadRoot,hroot]

theorem first_single (h : Holds s (some (k,v))) : (first (fuel+2)).run s = .ok ((v,none),s) := by
  obtain ⟨a,ha,hroot,hnode⟩ := h
  simp [first,leftmost,run_loadRoot,hroot,run_load hnode]

theorem last_empty (h : Holds s none) :
    (last (fuel+2)).run s = .ok (((default : V),some .notFound),s) := by
  have hroot : s.root = none := h
  simp [last,run_loadRoot,hroot]

theorem last_single (h : Holds s (some (k,v))) : (last (fuel+2)).run s = .ok ((v,none),s) := by
  obtain ⟨a,ha,hroot,hnode⟩ := h
  simp [last,rightmost,run_loadRoot,hroot,run_load hnode]

end First

variable [LinearOrder K]

theorem find_empty (h : Holds s none) : (find k (fuel+2) s.root).run s = .ok (none,s) := by
  have hroot : s.root = none := h
  simp [find,hroot]

theorem find_same (h : Holds s (some (k,v))) :
    ∃ a, s.nodes a = some ⟨none,none,v,k,⟨none,true,false⟩⟩ ∧
      (find k (fuel+2) s.root).run s = .ok (some a,s) := by
  obtain ⟨a,ha,hroot,hnode⟩ := h
  exact ⟨a,hnode,by simp [find,hroot,run_load hnode]⟩

theorem find_other (h : Holds s (some (k',v))) (hk : k ≠ k') :
    (find k (fuel+2) s.root).run s = .ok (none,s) := by
  obtain ⟨a,ha,hroot,hnode⟩ := h
  by_cases hlt : k' < k <;> simp [find,hroot,run_load hnode,hk.symm,hlt]

theorem delete_empty (h : Holds s none) : (delete (fuel+2) k).run s = .ok ((),s) := by
  simp [delete,run_loadRoot,find_empty fuel h]

/-- Deleting the only key empties the tree; the length stays. -/
theorem delete_same (h : Holds s (some (k,v))) :
    ∃ t, (delete (fuel+2) k).run s = .ok ((),t) ∧ Holds t none ∧ t.length = s.length := by
  obtain ⟨a,hnode,hfind⟩ := find_same fuel h
  refine ⟨{ s with root := none },?_,rfl,rfl⟩
  simp [delete,run_loadRoot,hfind,erase_root (fuel+2) hnode]

theorem delete_other (h : Holds s (some (k',v))) (hk : k ≠ k') :
    (delete (fuel+2) k).run s = .ok ((),s) := by
  simp [delete,run_loadRoot,find_other fuel h hk]

theorem descend_empty (h : Holds s none) :
    (descend k v (fuel+2) none).run s = .ok (.inr none,s) := by
  have hroot : s.root = none := h
  simp [descend,run_loadRoot,hroot]

theorem descend_same (h : Holds s (some (k,v'))) :
    ∃ t, (descend k v (fuel+2) none).run s = .ok (.inl v',t) ∧
      Holds t (some (k,v)) ∧ t.length = s.length := by
  obtain ⟨a,ha,hroot,hnode⟩ := h
  refine ⟨{ s with nodes := Function.update s.nodes a (some ⟨none,none,v,k,⟨none,true,false⟩⟩) },?_,
    ⟨a,ha,hroot,Function.update_self _ _ _⟩,rfl⟩
  simp [descend,run_loadRoot,hroot,run_load hnode,run_store hnode]

/-- Below the only node the descent finds nil, and leaves it as the root. -/
theorem descend_other (h : Holds s (some (k',v'))) (hk : k ≠ k') :
    ∃ a, s.nodes a = some ⟨none,none,v',k',⟨none,true,false⟩⟩ ∧
      (descend k v (fuel+2) none).run s = .ok (.inr (some a),{ s with root := none }) := by
  obtain ⟨a,ha,hroot,hnode⟩ := h
  refine ⟨a,hnode,?_⟩
  by_cases hlt : k' < k <;>
    simp [descend,run_loadRoot,run_storeRoot,hroot,run_load hnode,hk.symm,hlt]

variable [Inhabited V]

theorem getWithErr_empty (h : Holds s none) :
    (getWithErr (fuel+2) k).run s = .ok (((default : V),some .notFound),s) := by
  simp [getWithErr,run_loadRoot,find_empty fuel h]

theorem getWithErr_same (h : Holds s (some (k,v))) :
    (getWithErr (fuel+2) k).run s = .ok ((v,none),s) := by
  obtain ⟨a,hnode,hfind⟩ := find_same fuel h
  simp [getWithErr,run_loadRoot,hfind,run_load hnode]

theorem getWithErr_other (h : Holds s (some (k',v))) (hk : k ≠ k') :
    (getWithErr (fuel+2) k).run s = .ok ((default,some .notFound),s) := by
  simp [getWithErr,run_loadRoot,find_other fuel h hk]

/-- A first key becomes a red root. -/
theorem setWithPrev_empty (h : Holds s none) :
    ∃ t, (setWithPrev (fuel+2) k v).run s = .ok ((default,false),t) ∧
      Holds t (some (k,v)) ∧ t.length = s.length+1 := by
  let n : Node K V := ⟨none,none,v,k,⟨none,false,false⟩⟩
  let t : RBTree K V := { s with
    nodes := Function.update s.nodes s.fresh (some n), fresh := s.fresh+1 }
  let n' : Node K V := { n with pc := ⟨none,true,false⟩ }
  let t' : RBTree K V := { t with
    root := some s.fresh, nodes := Function.update t.nodes s.fresh (some n') }
  have hdescend : (descend k v (fuel+2) none).run t = .ok (.inr none,t) :=
    descend_empty fuel (h.alloc n)
  have hlink : (link (some s.fresh) none).run t = .ok ((),t') :=
    run_link (n := n) (Function.update_self _ _ _) none
  have hinsert : (insert (fuel+2) (some s.fresh)).run t' = .ok ((),t') :=
    insert_root (fuel+1) (n := n') (Function.update_self _ _ _) rfl
  refine ⟨{ t' with length := s.length+1 },?_,
    ⟨s.fresh,Nat.lt_succ_self _,rfl,Function.update_self _ _ _⟩,rfl⟩
  simp only [setWithPrev,StateT.run_bind,run_alloc,ok_bind]
  rw [hdescend]
  simp only [StateT.run_bind,hlink,ok_bind,hinsert,run_incLength]
  rfl

/-- A key that is present gets the new value. -/
theorem setWithPrev_same (h : Holds s (some (k,v'))) :
    ∃ t, (setWithPrev (fuel+2) k v).run s = .ok ((v',true),t) ∧
      Holds t (some (k,v)) ∧ t.length = s.length := by
  obtain ⟨t,hrun,ht,hlen⟩ := descend_same (v := v) fuel (h.alloc ⟨none,none,v,k,⟨none,false,false⟩⟩)
  exact ⟨t,by simp [setWithPrev,run_alloc,hrun],ht,hlen⟩

/-- A second key loses the first node and panics. -/
theorem setWithPrev_other (h : Holds s (some (k',v'))) (hk : k ≠ k') :
    (setWithPrev (fuel+2) k v).run s = .error .panic := by
  let n : Node K V := ⟨none,none,v,k,⟨none,false,false⟩⟩
  obtain ⟨a,hnode,hrun⟩ := descend_other (v := v) fuel (h.alloc n) hk
  have hne : a ≠ s.fresh := by
    rintro rfl
    simp only [n,Function.update_self,Option.some.injEq,Node.mk.injEq] at hnode
    exact hk hnode.2.2.2.1
  let t : RBTree K V := { s with
    root := none, nodes := Function.update s.nodes s.fresh (some n), fresh := s.fresh+1 }
  let n' : Node K V := { n with pc := ⟨some a,true,false⟩ }
  let t' : RBTree K V := { t with
    root := some s.fresh, nodes := Function.update t.nodes s.fresh (some n') }
  have hlink : (link (some s.fresh) (some a)).run t = .ok ((),t') :=
    run_link (n := n) (Function.update_self _ _ _) (some a)
  have hinsert : (insert (fuel+2) (some s.fresh)).run t' = .error .panic :=
    insert_red_root (fuel+1) (n := n') (Function.update_self _ _ _) rfl
      ((Function.update_of_ne hne _ _).trans hnode) rfl rfl
  simp only [setWithPrev,StateT.run_bind,run_alloc,ok_bind]
  rw [hrun]
  simp [hlink,hinsert,t]

end Step

/-! ### What the code does on such trees -/

section Cell
variable [LinearOrder K] [Inhabited V]

/-- The result of a call on a tree of at most one node, the change of the length and the
node it leaves; a second key has none. -/
def cellStep : Op K V → Option (K × V) → Option (Res V × ℤ × Option (K × V))
  | .setWithPrev k v, none => some (.set default false,1,some (k,v))
  | .setWithPrev k v, some (k',v') =>
    if k = k' then some (.set v' true,0,some (k,v)) else none
  | .delete _, none => some (.deleted,0,none)
  | .delete k, some (k',v') => some (.deleted,0,if k = k' then none else some (k',v'))
  | .getWithErr _, none => some (answer none,0,none)
  | .getWithErr k, some (k',v') =>
    some (answer (if k = k' then some v' else none),0,some (k',v'))
  | .first, live | .last, live => some (answer (live.map Prod.snd),0,live)

/-- The code does what `cellStep` says, and panics where it says nothing. -/
theorem exec_cellStep {s : RBTree K V} {live : Option (K × V)} (fuel : ℕ) (op : Op K V)
    (h : Holds s live) :
    match cellStep op live with
    | some (r,d,live') => ∃ t, exec (fuel+2) op s = .ok ((r,s.length+d),t) ∧
        Holds t live' ∧ t.length = s.length+d
    | none => exec (fuel+2) op s = .error .panic := by
  rcases op with ⟨k,v⟩ | k | k | _ | _ <;> rcases live with _ | ⟨k',v'⟩ <;>
    simp only [cellStep]
  · obtain ⟨t,hrun,ht,hlen⟩ := setWithPrev_empty (k := k) (v := v) fuel h
    exact ⟨t,by simp [exec,prog,hrun,hlen],ht,hlen⟩
  · by_cases hk : k = k'
    · subst hk
      obtain ⟨t,hrun,ht,hlen⟩ := setWithPrev_same (v := v) fuel h
      simp only [if_true]
      exact ⟨t,by simp [exec,prog,hrun,hlen],ht,by simp [hlen]⟩
    · simp only [if_neg hk]
      simp [exec,prog,setWithPrev_other fuel h hk]
  · exact ⟨s,by simp [exec,prog,delete_empty fuel h],h,by simp⟩
  · by_cases hk : k = k'
    · subst hk
      obtain ⟨t,hrun,ht,hlen⟩ := delete_same fuel h
      exact ⟨t,by simp [exec,prog,hrun,hlen],by simpa using ht,by simp [hlen]⟩
    · exact ⟨s,by simp [exec,prog,delete_other fuel h hk],by simpa [hk] using h,by simp⟩
  · exact ⟨s,by simp [exec,prog,getWithErr_empty fuel h,answer],h,by simp⟩
  · by_cases hk : k = k'
    · subst hk
      exact ⟨s,by simp [exec,prog,getWithErr_same fuel h,answer],h,by simp⟩
    · exact ⟨s,by simp [exec,prog,getWithErr_other fuel h hk,answer,hk],h,by simp⟩
  · exact ⟨s,by simp [exec,prog,first_empty fuel h,answer],h,by simp⟩
  · exact ⟨s,by simp [exec,prog,first_single fuel h,answer],h,by simp⟩
  · exact ⟨s,by simp [exec,prog,last_empty fuel h,answer],h,by simp⟩
  · exact ⟨s,by simp [exec,prog,last_single fuel h,answer],h,by simp⟩

end Cell

/-! ### The ordered map -/

section Map
variable [LinearOrder K]

/-- The map of a tree of at most one node. -/
def mapOf : Option (K × V) → Map K V
  | none => ∅
  | some (k,v) => Finmap.singleton k v

omit [LinearOrder K] in
theorem card_mapOf (live : Option (K × V)) :
    (mapOf live).keys.card = if live.isSome then 1 else 0 := by
  rcases live with _ | ⟨k,v⟩
  · rfl
  · rw [mapOf,Finmap.keys_singleton,Finset.card_singleton]
    rfl

theorem lookup_mapOf (k : K) (live : Option (K × V)) : (mapOf live).lookup k =
    live.bind fun e => if k = e.1 then some e.2 else none := by
  rcases live with _ | ⟨k',v⟩
  · exact Finmap.lookup_empty k
  · by_cases hk : k = k'
    · subst hk
      simp [mapOf]
    · simp only [mapOf,Option.bind_some,if_neg hk]
      exact Finmap.lookup_eq_none.mpr fun hm => hk ((Finmap.mem_singleton k k' v).mp hm)

theorem mem_mapOf (k : K) (live : Option (K × V)) : k ∈ mapOf live ↔ ∃ e ∈ live, k = e.1 := by
  rw [← Finmap.lookup_isSome,lookup_mapOf]
  rcases live with _ | e <;> simp

theorem insert_mapOf (k : K) (v : V) (live : Option (K × V)) (h : ∀ e ∈ live, e.1 = k) :
    (mapOf live).insert k v = mapOf (some (k,v)) :=
  Finmap.ext_lookup fun x => by
    by_cases hx : x = k
    · rw [hx,Finmap.lookup_insert,lookup_mapOf]
      simp
    · rw [Finmap.lookup_insert_of_ne _ hx,lookup_mapOf,lookup_mapOf]
      rcases live with _ | e
      · simp [hx]
      · simp [h e rfl,hx]

theorem erase_mapOf (k : K) (live : Option (K × V)) :
    (mapOf live).erase k = mapOf (live.filter fun e => k ≠ e.1) :=
  Finmap.ext_lookup fun x => by
    by_cases hx : x = k
    · subst hx
      rw [Finmap.lookup_erase,lookup_mapOf]
      rcases live with _ | e
      · rfl
      · by_cases he : x = e.1 <;> simp [Option.filter,he]
    · rw [Finmap.lookup_erase_ne hx,lookup_mapOf,lookup_mapOf]
      rcases live with _ | e
      · rfl
      · by_cases he : k = e.1
        · simp [Option.filter,← he,hx]
        · simp [Option.filter,he]

/-- The smallest key of the map is that of its only entry; so is the largest. -/
theorem answerOn_end [Inhabited V] (live : Option (K × V)) :
    answerOn .first (mapOf live) = (answer (live.map Prod.snd),mapOf live) ∧
      answerOn .last (mapOf live) = (answer (live.map Prod.snd),mapOf live) := by
  rcases live with _ | ⟨k,v⟩
  · exact ⟨rfl,rfl⟩
  · have hne : (mapOf (some (k,v))).keys.Nonempty := ⟨k,Finset.mem_singleton_self k⟩
    have hmin : (mapOf (some (k,v))).keys.min' hne = k :=
      Finset.mem_singleton.mp (Finset.min'_mem _ hne)
    have hmax : (mapOf (some (k,v))).keys.max' hne = k :=
      Finset.mem_singleton.mp (Finset.max'_mem _ hne)
    constructor
    · rw [answerOn,dif_pos hne,hmin,lookup_mapOf]
      simp
    · rw [answerOn,dif_pos hne,hmax,lookup_mapOf]
      simp

variable [Inhabited V]

/-- With `live` present the call sets no other key and does not delete it. -/
def Op.Keeps : Op K V → Option K → Prop
  | .setWithPrev k _, some k' => k = k'
  | .delete k, some k' => k ≠ k'
  | _, _ => True

def Op.live : Op K V → Option K → Option K
  | .setWithPrev k _, none => some k
  | _, live => live

/-- The calls use one key: none is set while another is present, and none that is present
is deleted. -/
def OneKey : Option K → List (Op K V) → Prop
  | _, [] => True
  | live, op::ops => op.Keeps live ∧ OneKey (op.live live) ops

theorem not_keeps_of_cellStep {op : Op K V} {live : Option (K × V)} (h : cellStep op live = none) :
    ¬op.Keeps (live.map Prod.fst) := by
  rcases op with ⟨k,v⟩ | k | k | _ | _ <;> rcases live with _ | ⟨k',v'⟩ <;>
    simp_all [cellStep,Op.Keeps]

/-- The map follows the tree; the results agree unless the only key is deleted, which the
length does not count. -/
theorem spec_cellStep {op : Op K V} {live live' : Option (K × V)} {r : Res V} {d : ℤ}
    (h : cellStep op live = some (r,d,live')) :
    (spec op (mapOf live)).2 = mapOf live' ∧
      ((r,(mapOf live).keys.card+d) = (spec op (mapOf live)).1 ↔ op.Keeps (live.map Prod.fst)) ∧
      (op.Keeps (live.map Prod.fst) →
        live'.map Prod.fst = op.live (live.map Prod.fst) ∧
        ((mapOf live').keys.card : ℤ) = (mapOf live).keys.card+d) := by
  rcases op with ⟨k,v⟩ | k | k | _ | _
  · have hcases : r = .set ((mapOf live).lookup k |>.getD default) (decide (k ∈ mapOf live)) ∧
        (∀ e ∈ live, e.1 = k) ∧ live' = some (k,v) ∧ d = if live.isSome then 0 else 1 := by
      rcases live with _ | ⟨k',v'⟩
      · simp only [cellStep,Option.some.injEq,Prod.mk.injEq] at h
        simp [← h.1,← h.2.1,← h.2.2,mem_mapOf,lookup_mapOf]
      · simp only [cellStep,Option.ite_none_right_eq_some,Option.some.injEq,Prod.mk.injEq] at h
        simp [← h.2.1,← h.2.2.1,← h.2.2.2,h.1,mem_mapOf,lookup_mapOf]
    obtain ⟨rfl,hlive,rfl,rfl⟩ := hcases
    have hins := insert_mapOf k v live hlive
    rcases live with _ | ⟨k',v'⟩
    · simp [spec,answerOn,hins,card_mapOf,Op.Keeps,Op.live]
    · obtain rfl : k' = k := hlive _ rfl
      simp [spec,answerOn,hins,card_mapOf,Op.Keeps,Op.live]
  · have hcases : r = .deleted ∧ d = 0 ∧ live' = live.filter fun e => k ≠ e.1 := by
      rcases live with _ | ⟨k',v'⟩
      · simp only [cellStep,Option.some.injEq,Prod.mk.injEq] at h
        simp [← h.1,← h.2.1,← h.2.2]
      · simp only [cellStep,Option.some.injEq,Prod.mk.injEq] at h
        by_cases hk : k = k' <;> simp [← h.1,← h.2.1,← h.2.2,Option.filter,hk]
    obtain ⟨rfl,rfl,rfl⟩ := hcases
    have herase := erase_mapOf k live
    rcases live with _ | ⟨k',v'⟩
    · simp [spec,answerOn,herase,Op.Keeps,Op.live]
    · simp only [spec,answerOn]
      rw [herase]
      by_cases hk : k = k' <;> simp [card_mapOf,Option.filter,Op.Keeps,Op.live,hk]
  · have hcases : r = answer ((mapOf live).lookup k) ∧ d = 0 ∧ live' = live := by
      rcases live with _ | ⟨k',v'⟩
      · simp only [cellStep,Option.some.injEq,Prod.mk.injEq] at h
        simp [← h.1,← h.2.1,← h.2.2,lookup_mapOf]
      · simp only [cellStep,Option.some.injEq,Prod.mk.injEq] at h
        simp [← h.1,← h.2.1,← h.2.2,lookup_mapOf]
    obtain ⟨rfl,rfl,rfl⟩ := hcases
    rcases live' with _ | ⟨k',v'⟩ <;> simp [spec,answerOn,Op.Keeps,Op.live]
  · simp only [cellStep,Option.some.injEq,Prod.mk.injEq] at h
    obtain ⟨rfl,rfl,rfl⟩ := h
    simp [spec,(answerOn_end live).1,Op.Keeps,Op.live]
  · simp only [cellStep,Option.some.injEq,Prod.mk.injEq] at h
    obtain ⟨rfl,rfl,rfl⟩ := h
    simp [spec,(answerOn_end live).2,Op.Keeps,Op.live]

/-- From a tree that holds what the map holds, the calls agree with the map exactly when
they use one key. -/
theorem agrees_iff (fuel : ℕ) (ops : List (Op K V)) (s : RBTree K V) (live : Option (K × V))
    (h : Holds s live) (hlen : s.length = (mapOf live).keys.card) :
    Agrees (exec (fuel+2)) spec ops s (mapOf live) ↔ OneKey (live.map Prod.fst) ops := by
  induction ops generalizing s live with
  | nil => exact iff_of_true (agrees_nil _ _) trivial
  | cons op ops ih =>
    have hstep := exec_cellStep fuel op h
    rcases hcell : cellStep op live with _ | ⟨r,d,live'⟩ <;> simp only [hcell] at hstep
    · exact iff_of_false (not_agrees_cons hstep) fun hk => not_keeps_of_cellStep hcell hk.1
    · obtain ⟨t,hexec,ht,htl⟩ := hstep
      obtain ⟨hM,hres,hkeep⟩ := spec_cellStep hcell
      rw [agrees_cons_ok hexec,hM,hlen,hres]
      refine and_congr_right fun hk => ?_
      obtain ⟨hlive,hcard⟩ := hkeep hk
      rw [ih t live' ht (by rw [htl,hlen,hcard]),hlive]

/-- From a fresh tree, no call panics and all results and lengths are those of an ordered
finite map, exactly when the calls use one key. -/
theorem serves_map_iff (fuel : ℕ) (ops : List (Op K V)) :
    (∃ s, runs (exec (fuel+2)) ops (new K V) = .ok ((replay spec ops ∅).1,s)) ↔
      OneKey none ops :=
  agrees_iff fuel ops (new K V) none rfl rfl

/-- Two keys panic; a deleted key is still counted. -/
theorem not_serves_map :
    (¬∃ (fuel : ℕ) (s : RBTree ℕ ℕ), runs (exec (fuel+2)) [.setWithPrev 1 10,.setWithPrev 2 20]
        (new ℕ ℕ) = .ok ((replay spec [.setWithPrev 1 10,.setWithPrev 2 20] ∅).1,s)) ∧
      ¬∃ (fuel : ℕ) (s : RBTree ℕ ℕ), runs (exec (fuel+2)) [.setWithPrev 1 10,.delete 1]
        (new ℕ ℕ) = .ok ((replay spec [.setWithPrev 1 10,.delete 1] ∅).1,s) := by
  constructor
  · rintro ⟨fuel,h⟩
    have hk := (agrees_iff fuel _ (new ℕ ℕ) none rfl rfl).mp h
    simp [OneKey,Op.Keeps,Op.live] at hk
  · rintro ⟨fuel,h⟩
    have hk := (agrees_iff fuel _ (new ℕ ℕ) none rfl rfl).mp h
    simp [OneKey,Op.Keeps,Op.live] at hk

end Map

/-! ### The red-black properties -/

/-- A tree of keys with the colour fields of its nodes. -/
inductive Shape (K : Type)
  | nil
  | node (l : Shape K) (red black : Bool) (k : K) (r : Shape K)

namespace Shape

/-- 2. The root is black. -/
def RootBlack : Shape K → Prop
  | nil => True
  | node _ _ black _ _ => black = true

def isRed : Shape K → Bool
  | nil => false
  | node _ red _ _ _ => red

/-- 1. Every node is either red or black. -/
def Coloured : Shape K → Prop
  | nil => True
  | node l red black _ r => red ≠ black ∧ Coloured l ∧ Coloured r

/-- 4. No red node has a red child. -/
def NoRedRed : Shape K → Prop
  | nil => True
  | node l red _ _ r =>
    (red = true → l.isRed = false ∧ r.isRed = false) ∧ NoRedRed l ∧ NoRedRed r

/-- 5. Every path to a leaf has `n` black nodes. -/
def BlackHeight : Shape K → ℕ → Prop
  | nil, n => n = 0
  | node l _ black _ r, n =>
    ∃ m, n = m+(if black then 1 else 0) ∧ BlackHeight l m ∧ BlackHeight r m

/-- The keys in order. -/
def keys : Shape K → List K
  | nil => []
  | node l _ _ k r => keys l++k::keys r

end Shape

/-- The nodes below `p` have this shape, and every node points back to its parent. -/
def Subtree (s : RBTree K V) : Option ℕ → Option ℕ → Shape K → Prop
  | _, p, .nil => p = none
  | parent, p, .node l red black k r => ∃ a n, p = some a ∧ s.nodes a = some n ∧ n.key = k ∧
      n.pc = ⟨parent,red,black⟩ ∧ Subtree s (some a) n.left l ∧ Subtree s (some a) n.right r

/-- The properties the header of the file lists, the search order and the parent links. -/
def RedBlack [LinearOrder K] (s : RBTree K V) : Prop :=
  ∃ t : Shape K, Subtree s none s.root t ∧ t.RootBlack ∧ t.Coloured ∧ t.NoRedRed ∧
    (∃ n, t.BlackHeight n) ∧ t.keys.Pairwise (· < ·)

section Invariant
variable [LinearOrder K]

/-- Of the trees of at most one node only the empty one is red-black: the node is red. -/
theorem redBlack_iff {s : RBTree K V} {live : Option (K × V)} (h : Holds s live) :
    RedBlack s ↔ live = none := by
  rcases live with _ | ⟨k,v⟩
  · refine iff_of_true ⟨.nil,h,trivial,trivial,trivial,⟨0,rfl⟩,List.Pairwise.nil⟩ rfl
  · obtain ⟨a,ha,hroot,hnode⟩ := h
    refine iff_of_false ?_ (by simp)
    rintro ⟨t,ht,hblack,-⟩
    rcases t with _ | ⟨l,red,black,k',r⟩
    · cases hroot.symm.trans ht
    · obtain ⟨b,n,hb,hn,-,hpc,-⟩ := ht
      cases hroot.symm.trans hb
      cases hnode.symm.trans hn
      cases hpc
      cases hblack

/-- No key is set while another is present. -/
def Op.Fits : Op K V → Option K → Prop
  | .setWithPrev k _, some k' => k = k'
  | _, _ => True

/-- The key that is present after the call. -/
def Op.leaves : Op K V → Option K → Option K
  | .setWithPrev k _, _ => some k
  | .delete k, some k' => if k = k' then none else some k'
  | _, live => live

/-- Two keys are never present together, and in the end none is. -/
def EndsEmpty : Option K → List (Op K V) → Prop
  | live, [] => live = none
  | live, op::ops => op.Fits live ∧ EndsEmpty (op.leaves live) ops

variable [Inhabited V]

theorem fits_cellStep (op : Op K V) (live : Option (K × V)) :
    match cellStep op live with
    | some (_,_,live') => op.Fits (live.map Prod.fst) ∧
        live'.map Prod.fst = op.leaves (live.map Prod.fst)
    | none => ¬op.Fits (live.map Prod.fst) := by
  rcases op with ⟨k,v⟩ | k | k | _ | _ <;> rcases live with _ | ⟨k',v'⟩ <;>
    simp only [cellStep,Op.Fits,Op.leaves,Option.map_some,Option.map_none,and_self]
  · by_cases hk : k = k' <;> simp [hk]
  · by_cases hk : k = k' <;> simp [hk]

theorem redBlack_run_iff (fuel : ℕ) (ops : List (Op K V)) (s : RBTree K V)
    (live : Option (K × V)) (h : Holds s live) :
    (∃ rs t, runs (exec (fuel+2)) ops s = .ok (rs,t) ∧ RedBlack t) ↔
      EndsEmpty (live.map Prod.fst) ops := by
  induction ops generalizing s live with
  | nil => simp [EndsEmpty,← redBlack_iff h]
  | cons op ops ih =>
    have hstep := exec_cellStep fuel op h
    have hfits := fits_cellStep op live
    rcases hcell : cellStep op live with _ | ⟨r,d,live'⟩ <;> simp only [hcell] at hstep hfits
    · refine iff_of_false ?_ fun hk => hfits hk.1
      rintro ⟨rs,t,hrun,-⟩
      rw [runs_cons,hstep] at hrun
      cases hrun
    · obtain ⟨t,hexec,ht,-⟩ := hstep
      rw [EndsEmpty,← hfits.2,← ih t live' ht]
      constructor
      · rintro ⟨rs,u,hrun,hu⟩
        obtain ⟨r',t',rs',h₁,h₂,-⟩ := runs_cons_eq_ok.mp hrun
        cases hexec.symm.trans h₁
        exact ⟨hfits.1,rs',u,h₂,hu⟩
      · rintro ⟨-,rs,u,hrun,hu⟩
        exact ⟨_,u,runs_cons_eq_ok.mpr ⟨_,t,rs,hexec,hrun,rfl⟩,hu⟩

/-- From a fresh tree, a sequence of calls returns and leaves a red-black tree exactly
when two keys are never present together and in the end none is. -/
theorem redBlack_new_iff (fuel : ℕ) (ops : List (Op K V)) :
    (∃ rs s, runs (exec (fuel+2)) ops (new K V) = .ok (rs,s) ∧ RedBlack s) ↔
      EndsEmpty none ops :=
  redBlack_run_iff fuel ops (new K V) none rfl

/-- A single key leaves a red root. -/
theorem not_redBlack_new :
    ¬∀ (fuel : ℕ) (ops : List (Op ℕ ℕ)) (rs : List (Res ℕ × ℤ)) (s : RBTree ℕ ℕ),
      runs (exec (fuel+2)) ops (new ℕ ℕ) = .ok (rs,s) → RedBlack s := by
  intro hall
  have hempty : Holds (new ℕ ℕ) none := rfl
  obtain ⟨t,hexec,ht,-⟩ := exec_cellStep 0 (.setWithPrev 1 10 : Op ℕ ℕ) hempty
  have hrun : runs (exec 2) [.setWithPrev 1 10] (new ℕ ℕ) = .ok ([_],t) :=
    runs_cons_eq_ok.mpr ⟨_,t,[],hexec,rfl,rfl⟩
  exact absurd ((redBlack_iff ht).mp (hall 0 _ _ t hrun)) (by simp)

end Invariant

end RbTree
end RecycleBin
