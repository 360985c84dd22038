import RecycleBin.Linked
import RecycleBin.Refinement

/-! The queue and the stack of `ds/`: their nodes are members of the caller's own structures, which
may wander from one list to another and be freed in between. -/
namespace RecycleBin
namespace Ds
open Linked

/-! ## The code -/

/-- The caller's structures, each a datum and the `next` of its node, and the heads: of the queues
on the left, of the stacks on the right. -/
structure Lists (D : Type) where
  node : ℕ → Option (D × Option ℕ)
  first : ℕ ⊕ ℕ → Option ℕ
  tail : ℕ → Option ℕ

variable {D : Type}

def deref (p : Option ℕ) : Except Fault ℕ := p.elim (.error .undefined) .ok

/-- `n->next = next` -/
def setNext (n : ℕ) (next : Option ℕ) (s : Lists D) : Except Fault (Lists D) :=
  (s.node n).elim (.error .undefined) fun x =>
    .ok { s with node := Function.update s.node n (some (x.1,next)) }

def setFirst (c : ℕ ⊕ ℕ) (p : Option ℕ) (s : Lists D) : Lists D :=
  { s with first := Function.update s.first c p }

def setTail (i : ℕ) (p : Option ℕ) (s : Lists D) : Lists D :=
  { s with tail := Function.update s.tail i p }

def queuePut (n i : ℕ) (s : Lists D) : Except Fault (Lists D) := do
  let s ← setNext n none s
  if s.first (.inl i) = none then .ok (setTail i (some n) (setFirst (.inl i) (some n) s))
  else do
    let t ← deref (s.tail i)
    let s ← setNext t (some n) s
    .ok (setTail i (some n) s)

/-- The node in front, which the list loses. -/
def takeFirst (c : ℕ ⊕ ℕ) (s : Lists D) : Except Fault (Option ℕ × Lists D) :=
  (s.first c).elim (.ok (none,setFirst c none s)) fun t =>
    (s.node t).elim (.error .undefined) fun x => .ok (some t,setFirst c x.2 s)

def queueGet (i : ℕ) (s : Lists D) : Except Fault (Option ℕ × Lists D) := takeFirst (.inl i) s

def stackPop (j : ℕ) (s : Lists D) : Except Fault (Option ℕ × Lists D) := takeFirst (.inr j) s

def stackPush (n j : ℕ) (s : Lists D) : Except Fault (Lists D) := do
  let s ← setNext n (s.first (.inr j)) s
  .ok (setFirst (.inr j) (some n) s)

def stackTop (j : ℕ) (s : Lists D) : Option ℕ := s.first (.inr j)

/-- `queue_empty` and `stack_empty` -/
def empty (c : ℕ ⊕ ℕ) (s : Lists D) : Bool := (s.first c).isNone

/-- `queue_entry` and `stack_entry`: what the caller finds in the structure around a node. -/
def entry (p : Option ℕ) (s : Lists D) : Except Fault (Option (ℕ × D)) :=
  p.elim (.ok none) fun n => (s.node n).elim (.error .undefined) fun x => .ok (some (n,x.1))

/-- `queue_for_each` and `stack_for_each`, left after so many rounds. -/
def forEach (s : Lists D) : ℕ → Option ℕ → Except Fault (List (ℕ × D))
  | 0,_ => .ok []
  | rounds+1,p => p.elim (.ok []) fun n =>
    (s.node n).elim (.error .undefined) fun x => do
      let rest ← forEach s rounds x.2
      .ok ((n,x.1)::rest)

/-! ## Programs -/

inductive Op (D : Type)
  /-- `malloc`, with what happens to stand in `next` -/
  | alloc (n : ℕ) (d : D) (junk : Option ℕ)
  | free (n : ℕ)
  | put (n i : ℕ)
  | get (i : ℕ)
  | push (n j : ℕ)
  | pop (j : ℕ)
  | top (j : ℕ)
  | empty (c : ℕ ⊕ ℕ)
  | each (c : ℕ ⊕ ℕ) (rounds : ℕ)

inductive Res (D : Type)
  | unit
  | node (p : Option (ℕ × D))
  | flag (b : Bool)
  | nodes (l : List (ℕ × D))

def exec : Op D → Lists D → Except Fault (Res D × Lists D)
  | .alloc n d junk,s => .ok (.unit,{ s with node := Function.update s.node n (some (d,junk)) })
  | .free n,s => .ok (.unit,{ s with node := Function.update s.node n none })
  | .put n i,s => do
    let s ← queuePut n i s
    .ok (.unit,s)
  | .get i,s => do
    let r ← queueGet i s
    let x ← entry r.1 r.2
    .ok (.node x,r.2)
  | .push n j,s => do
    let s ← stackPush n j s
    .ok (.unit,s)
  | .pop j,s => do
    let r ← stackPop j s
    let x ← entry r.1 r.2
    .ok (.node x,r.2)
  | .top j,s => do
    let x ← entry (stackTop j s) s
    .ok (.node x,s)
  | .empty c,s => .ok (.flag (empty c s),s)
  | .each c rounds,s => do
    let l ← forEach s rounds (s.first c)
    .ok (.nodes l,s)

/-- Before the first call every head is set by its `INIT` and nothing is allocated. -/
def start : Lists D := ⟨fun _ => none,fun _ => none,fun _ => none⟩

/-! ## The lists -/

/-- What each list holds, and the structures that are in none. -/
structure Held (D : Type) where
  list : ℕ ⊕ ℕ → List (ℕ × D)
  loose : ℕ → Option D

def Held.set (q : Held D) (c : ℕ ⊕ ℕ) (l : List (ℕ × D)) (n : ℕ) (d : Option D) : Held D :=
  ⟨Function.update q.list c l,Function.update q.loose n d⟩

def Held.take (q : Held D) (c : ℕ ⊕ ℕ) : Res D × Held D :=
  (.node (q.list c).head?,
    (q.list c).head?.elim q fun x => q.set c (q.list c).tail x.1 (some x.2))

/-- Queues take their nodes at the end, stacks in front. -/
def spec : Op D → Held D → Res D × Held D
  | .alloc n d _,q => (.unit,{ q with loose := Function.update q.loose n (some d) })
  | .free n,q => (.unit,{ q with loose := Function.update q.loose n none })
  | .put n i,q => (.unit,(q.loose n).elim q fun d => q.set (.inl i) (q.list (.inl i)++[(n,d)]) n none)
  | .get i,q => q.take (.inl i)
  | .push n j,q => (.unit,(q.loose n).elim q fun d => q.set (.inr j) ((n,d)::q.list (.inr j)) n none)
  | .pop j,q => q.take (.inr j)
  | .top j,q => (.node (q.list (.inr j)).head?,q)
  | .empty c,q => (.flag (q.list c).isEmpty,q)
  | .each c rounds,q => (.nodes ((q.list c).take rounds),q)

/-- New memory is not in use, and what is put in a list or freed is in no list. -/
def Legal : Op D → Held D → Prop
  | .alloc n _ _,q => q.loose n = none ∧ ∀ c,n ∉ (q.list c).map Prod.fst
  | .free n,q | .put n _,q | .push n _,q => (q.loose n).isSome
  | _,_ => True

/-- Every list is the chain behind its head, the lists share no node, and the last node of a queue
that is not empty is the tail; the tail of an empty one may point to anything. -/
structure Holds (s : Lists D) (q : Held D) : Prop where
  chain : ∀ c,Chain s.node (q.list c) (s.first c)
  tail : ∀ i l x,q.list (.inl i) = l++[x] → s.tail i = some x.1
  nodup : ∀ c,((q.list c).map Prod.fst).Nodup
  apart : ∀ c c' n,c ≠ c' → n ∈ (q.list c).map Prod.fst → n ∉ (q.list c').map Prod.fst
  loose : ∀ n d,q.loose n = some d →
    (∃ next,s.node n = some (d,next)) ∧ ∀ c,n ∉ (q.list c).map Prod.fst

namespace Holds
variable {s : Lists D} {q : Held D}

theorem start : Holds (Ds.start : Lists D) ⟨fun _ => [],fun _ => none⟩ where
  chain _ := rfl
  tail _ l x h := absurd h.symm (by simp)
  nodup _ := List.nodup_nil
  apart _ _ _ _ h := absurd h (by simp)
  loose _ _ h := absurd h (by simp)

/-- A node goes into a list. -/
theorem insert (h : Holds s q) {n : ℕ} {d : D} (hn : q.loose n = some d) {c : ℕ ⊕ ℕ}
    {l : List (ℕ × D)} (hl : (l.map Prod.fst).Perm (n::(q.list c).map Prod.fst))
    {s' : Lists D} (hchain : Chain s'.node l (s'.first c))
    (hfirst : ∀ c',c' ≠ c → s'.first c' = s.first c')
    (hnode : ∀ m,m ≠ n → m ∉ (q.list c).map Prod.fst → s'.node m = s.node m)
    (htail : ∀ i l' x,(q.set c l n none).list (.inl i) = l'++[x] → s'.tail i = some x.1) :
    Holds s' (q.set c l n none) := by
  have hmem : ∀ c' m,m ∈ ((q.set c l n none).list c').map Prod.fst →
      c' = c ∧ m = n ∨ m ∈ (q.list c').map Prod.fst := by
    intro c' m hm
    rcases eq_or_ne c' c with rfl | hne
    · simp only [Held.set,Function.update_self] at hm
      rcases List.mem_cons.mp (hl.mem_iff.mp hm) with rfl | hm
      · exact .inl ⟨rfl,rfl⟩
      · exact .inr hm
    · simp only [Held.set,Function.update_of_ne hne] at hm
      exact .inr hm
  have hfree := (h.loose n d hn).2
  refine ⟨fun c' => ?_,htail,fun c' => ?_,fun c₁ c₂ m hne hm₁ hm₂ => ?_,fun m e hm => ?_⟩
  · rcases eq_or_ne c' c with rfl | hne
    · simpa [Held.set] using hchain
    · simp only [Held.set,Function.update_of_ne hne,hfirst c' hne]
      refine (h.chain c').frame fun m hm => hnode m ?_ (h.apart c' c m hne hm)
      rintro rfl
      exact hfree c' hm
  · rcases eq_or_ne c' c with rfl | hne
    · simp only [Held.set,Function.update_self]
      exact hl.nodup_iff.mpr (List.nodup_cons.mpr ⟨hfree _,h.nodup _⟩)
    · simpa [Held.set,hne] using h.nodup c'
  · rcases hmem c₁ m hm₁ with ⟨rfl,rfl⟩ | hold₁
    · rcases hmem c₂ m hm₂ with ⟨rfl,-⟩ | hold₂
      · exact hne rfl
      · exact hfree c₂ hold₂
    · rcases hmem c₂ m hm₂ with ⟨-,rfl⟩ | hold₂
      · exact hfree c₁ hold₁
      · exact h.apart c₁ c₂ m hne hold₁ hold₂
  · rcases eq_or_ne m n with rfl | hne
    · simp [Held.set] at hm
    · simp only [Held.set,Function.update_of_ne hne] at hm
      obtain ⟨⟨next,hcell⟩,hout⟩ := h.loose m e hm
      refine ⟨⟨next,(hnode m hne (hout c)).trans hcell⟩,fun c' hm' => ?_⟩
      rcases hmem c' m hm' with ⟨-,rfl⟩ | hold
      · exact hne rfl
      · exact hout c' hold

theorem setNext (h : Holds s q) {n : ℕ} {d : D} (hn : q.loose n = some d) (next : Option ℕ) :
    Ds.setNext n next s = .ok { s with node := Function.update s.node n (some (d,next)) } := by
  obtain ⟨⟨old,hcell⟩,-⟩ := h.loose n d hn
  rw [Ds.setNext,hcell]
  rfl

theorem first_eq_none (h : Holds s q) (c : ℕ ⊕ ℕ) : s.first c = none ↔ q.list c = [] := by
  have hchain := h.chain c
  cases hl : q.list c with
  | nil =>
    rw [hl] at hchain
    simpa using hchain
  | cons x l =>
    rw [hl] at hchain
    simp [(chain_cons.mp hchain).1]

theorem put (h : Holds s q) {n : ℕ} {d : D} (hn : q.loose n = some d) (i : ℕ) :
    ∃ s',queuePut n i s = .ok s' ∧ Holds s' (q.set (.inl i) (q.list (.inl i)++[(n,d)]) n none) := by
  have hfree := (h.loose n d hn).2
  have hperm : ((q.list (.inl i)++[(n,d)]).map Prod.fst).Perm
      (n::(q.list (.inl i)).map Prod.fst) := by
    rw [List.map_append]
    exact List.perm_append_singleton n _
  have htail : ∀ j l' x,(q.set (.inl i) (q.list (.inl i)++[(n,d)]) n none).list (.inl j) = l'++[x] →
      Function.update s.tail i (some n) j = some x.1 := by
    intro j l' x hl'
    rcases eq_or_ne j i with rfl | hne
    · simp only [Held.set,Function.update_self] at hl' ⊢
      have hx : (n,d) = x := by simpa using (List.append_inj' hl' rfl).2
      rw [← hx]
    · rw [Function.update_of_ne hne]
      refine h.tail j l' x ?_
      simpa [Held.set,Function.update_of_ne,hne] using hl'
  rw [queuePut,h.setNext hn,ok_bind]
  by_cases hempty : s.first (.inl i) = none
  · have hnil := (h.first_eq_none _).mp hempty
    rw [if_pos hempty]
    refine ⟨_,rfl,h.insert hn hperm ?_ (fun c' hne => Function.update_of_ne hne _ _)
      (fun m hne _ => Function.update_of_ne hne _ _) htail⟩
    simp only [setTail,setFirst,Function.update_self,hnil,List.nil_append]
    exact ⟨rfl,none,Function.update_self _ _ _,rfl⟩
  · obtain ⟨l,x,hl⟩ := List.eq_nil_or_concat (q.list (.inl i)) |>.resolve_left
      fun hnil => hempty ((h.first_eq_none _).mpr hnil)
    rw [List.concat_eq_append] at hl
    have hold := (h.chain (.inl i)).update_of_notMem (c := some (d,none)) (hfree _)
    rw [hl] at hold
    obtain ⟨next,hcell,-⟩ := hold.cell_of_split
    have hmem : x.1 ∈ (q.list (.inl i)).map Prod.fst := by simp [hl]
    have hxn : x.1 ≠ n := by
      intro heq
      exact hfree _ (heq ▸ hmem)
    have hnodup := h.nodup (.inl i)
    rw [hl,List.map_append] at hnodup
    have hlast : x.1 ∉ l.map Prod.fst := fun hx =>
      (List.nodup_append.mp hnodup).2.2 _ hx x.1 (by simp) rfl
    have hlink : Ds.setNext x.1 (some n)
        ⟨Function.update s.node n (some (d,none)),s.first,s.tail⟩ =
          .ok ⟨Function.update (Function.update s.node n (some (d,none))) x.1 (some (x.2,some n)),
            s.first,s.tail⟩ := by
      simp only [Ds.setNext,hcell]
      rfl
    rw [if_neg hempty,h.tail i l x hl,deref,Option.elim,ok_bind,hlink,ok_bind]
    refine ⟨_,rfl,h.insert hn hperm ?_ (fun c' _ => rfl) (fun m hne hm => ?_) htail⟩
    · simp only [setTail,hl,List.append_assoc]
      exact hold.splice ⟨rfl,none,Function.update_self _ _ _,rfl⟩ hlast (by simpa using hxn)
    · have hmx : m ≠ x.1 := by
        rintro rfl
        exact hm hmem
      simp only [setTail,Function.update_of_ne hmx,Function.update_of_ne hne]

theorem push (h : Holds s q) {n : ℕ} {d : D} (hn : q.loose n = some d) (j : ℕ) :
    ∃ s',stackPush n j s = .ok s' ∧ Holds s' (q.set (.inr j) ((n,d)::q.list (.inr j)) n none) := by
  have hfree := (h.loose n d hn).2
  rw [stackPush,h.setNext hn,ok_bind]
  refine ⟨_,rfl,h.insert hn (List.Perm.refl _) ?_ (fun c' hne => Function.update_of_ne hne _ _)
    (fun m hne _ => Function.update_of_ne hne _ _) fun i l' x hl' => ?_⟩
  · simp only [setFirst,Function.update_self]
    exact (h.chain _).push (hfree _)
  · exact h.tail i l' x (by simpa [Held.set] using hl')

theorem remove (h : Holds s q) {c : ℕ ⊕ ℕ} {x : ℕ × D} {l : List (ℕ × D)}
    (hl : q.list c = x::l) {next : Option ℕ} (hcell : s.node x.1 = some (x.2,next))
    (hchain : Chain s.node l next) : Holds (setFirst c next s) (q.set c l x.1 (some x.2)) := by
  have hnodup := h.nodup c
  rw [hl,List.map_cons,List.nodup_cons] at hnodup
  have hmem : ∀ c' m,m ∈ ((q.set c l x.1 (some x.2)).list c').map Prod.fst →
      m ∈ (q.list c').map Prod.fst ∧ m ≠ x.1 := by
    intro c' m hm
    rcases eq_or_ne c' c with rfl | hne
    · simp only [Held.set,Function.update_self] at hm
      rw [hl,List.map_cons]
      refine ⟨List.mem_cons_of_mem _ hm,?_⟩
      rintro rfl
      exact hnodup.1 hm
    · simp only [Held.set,Function.update_of_ne hne] at hm
      refine ⟨hm,?_⟩
      rintro rfl
      exact h.apart c' c x.1 hne hm (by simp [hl])
  refine ⟨fun c' => ?_,fun i l' y hy => ?_,fun c' => ?_,fun c₁ c₂ m hne hm₁ hm₂ => ?_,
    fun m e hm => ?_⟩
  · rcases eq_or_ne c' c with rfl | hne
    · simpa [Held.set,setFirst] using hchain
    · simpa [Held.set,setFirst,hne] using h.chain c'
  · rcases eq_or_ne (Sum.inl i) c with rfl | hne
    · simp only [Held.set,Function.update_self] at hy
      exact h.tail i (x::l') y (by rw [hl,hy,List.cons_append])
    · exact h.tail i l' y (by simpa [Held.set,hne] using hy)
  · rcases eq_or_ne c' c with rfl | hne
    · simpa [Held.set] using hnodup.2
    · simpa [Held.set,hne] using h.nodup c'
  · exact h.apart c₁ c₂ m hne (hmem c₁ m hm₁).1 (hmem c₂ m hm₂).1
  · rcases eq_or_ne m x.1 with rfl | hne
    · simp only [Held.set,Function.update_self,Option.some.injEq] at hm
      subst hm
      exact ⟨⟨next,hcell⟩,fun c' hm => (hmem c' x.1 hm).2 rfl⟩
    · simp only [Held.set,Function.update_of_ne hne] at hm
      obtain ⟨hold,hout⟩ := h.loose m e hm
      exact ⟨hold,fun c' hm => hout c' (hmem c' m hm).1⟩

/-- A list loses its first node, and the caller finds it as it was put there. -/
theorem take (h : Holds s q) (c : ℕ ⊕ ℕ) : ∃ r s',takeFirst c s = .ok (r,s') ∧
    entry r s' = .ok (q.list c).head? ∧ Holds s' (q.take c).2 := by
  have hchain := h.chain c
  cases hl : q.list c with
  | nil =>
    have hfirst := (h.first_eq_none c).mpr hl
    have hsame : setFirst c none s = s := by
      rw [setFirst,← hfirst,Function.update_eq_self]
    refine ⟨none,setFirst c none s,by rw [takeFirst,hfirst]; rfl,rfl,?_⟩
    rw [hsame,Held.take,hl]
    exact h
  | cons x l =>
    rw [hl] at hchain
    obtain ⟨hfirst,next,hcell,hrest⟩ := chain_cons.mp hchain
    refine ⟨some x.1,setFirst c next s,by rw [takeFirst,hfirst,Option.elim,hcell]; rfl,?_,?_⟩
    · simp only [entry,setFirst,Option.elim,hcell,List.head?_cons]
    · simp only [Held.take,hl,List.head?_cons,List.tail_cons,Option.elim]
      exact h.remove hl hcell hrest

theorem top (h : Holds s q) (c : ℕ ⊕ ℕ) : entry (s.first c) s = .ok (q.list c).head? := by
  have hchain := h.chain c
  cases hl : q.list c with
  | nil =>
    rw [(h.first_eq_none c).mpr hl]
    rfl
  | cons x l =>
    rw [hl] at hchain
    obtain ⟨hfirst,next,hcell,-⟩ := chain_cons.mp hchain
    rw [hfirst,entry,Option.elim,hcell]
    rfl

theorem alloc (h : Holds s q) {n : ℕ} (hfree : ∀ c,n ∉ (q.list c).map Prod.fst) (d : D)
    (junk : Option ℕ) : Holds { s with node := Function.update s.node n (some (d,junk)) }
      { q with loose := Function.update q.loose n (some d) } where
  chain c := (h.chain c).update_of_notMem (hfree c)
  tail := h.tail
  nodup := h.nodup
  apart := h.apart
  loose m e hm := by
    rcases eq_or_ne m n with rfl | hne
    · simp only [Function.update_self,Option.some.injEq] at hm ⊢
      exact ⟨⟨junk,by rw [hm]⟩,hfree⟩
    · simp only [Function.update_of_ne hne] at hm ⊢
      exact h.loose m e hm

theorem free (h : Holds s q) {n : ℕ} (hfree : ∀ c,n ∉ (q.list c).map Prod.fst) :
    Holds { s with node := Function.update s.node n none }
      { q with loose := Function.update q.loose n none } where
  chain c := (h.chain c).update_of_notMem (hfree c)
  tail := h.tail
  nodup := h.nodup
  apart := h.apart
  loose m e hm := by
    rcases eq_or_ne m n with rfl | hne
    · simp at hm
    · simp only [Function.update_of_ne hne] at hm ⊢
      exact h.loose m e hm

end Holds

theorem forEach_chain {s : Lists D} (rounds : ℕ) : ∀ {l : List (ℕ × D)} {p : Option ℕ},
    Chain s.node l p → forEach s rounds p = .ok (l.take rounds) := by
  induction rounds with
  | zero => exact fun _ => rfl
  | succ rounds ih =>
    intro l p h
    cases l with
    | nil =>
      rw [chain_nil.mp h]
      rfl
    | cons x l =>
      obtain ⟨rfl,next,hcell,hrest⟩ := chain_cons.mp h
      rw [forEach,Option.elim,hcell,Option.elim,ih hrest]
      rfl

/-- Every call does what the lists do. -/
theorem exec_refines : Refines (exec (D := D)) spec Legal Holds := by
  intro op s q h hlegal
  cases op with
  | alloc n d junk => exact ⟨_,rfl,h.alloc hlegal.2 d junk⟩
  | free n =>
    obtain ⟨d,hd⟩ := Option.isSome_iff_exists.mp hlegal
    exact ⟨_,rfl,h.free (h.loose n d hd).2⟩
  | put n i =>
    obtain ⟨d,hd⟩ := Option.isSome_iff_exists.mp hlegal
    obtain ⟨s',hput,h'⟩ := h.put hd i
    refine ⟨s',by rw [exec,hput]; rfl,?_⟩
    simpa only [spec,hd,Option.elim] using h'
  | get i =>
    obtain ⟨r,s',htake,hentry,h'⟩ := h.take (.inl i)
    refine ⟨s',?_,h'⟩
    simp only [exec,queueGet,htake,ok_bind,hentry]
    rfl
  | push n j =>
    obtain ⟨d,hd⟩ := Option.isSome_iff_exists.mp hlegal
    obtain ⟨s',hpush,h'⟩ := h.push hd j
    refine ⟨s',by rw [exec,hpush]; rfl,?_⟩
    simpa only [spec,hd,Option.elim] using h'
  | pop j =>
    obtain ⟨r,s',htake,hentry,h'⟩ := h.take (.inr j)
    refine ⟨s',?_,h'⟩
    simp only [exec,stackPop,htake,ok_bind,hentry]
    rfl
  | top j =>
    refine ⟨s,?_,h⟩
    simp only [exec,stackTop,h.top,ok_bind]
    rfl
  | empty c =>
    refine ⟨s,?_,h⟩
    have hflag : empty c s = (q.list c).isEmpty := by
      rw [Bool.eq_iff_iff,empty,Option.isNone_iff_eq_none,h.first_eq_none,List.isEmpty_iff]
    rw [exec,hflag]
    rfl
  | each c rounds =>
    refine ⟨s,?_,h⟩
    rw [exec,forEach_chain rounds (h.chain c)]
    rfl

/-- Any number of queues and stacks over one stock of structures, in any order of calls: each
queue is first in, first out, each stack last in, first out, whatever memory is freed and used
again in between, and no call reads a structure that is gone. -/
theorem lists_are_lists (ops : List (Op D)) (h : LegalRun Legal spec ops ⟨fun _ => [],fun _ => none⟩) :
    Agrees exec spec ops start ⟨fun _ => [],fun _ => none⟩ := by
  obtain ⟨s,hrun,-⟩ := exec_refines.runs ops Ds.start _ Holds.start h
  exact ⟨s,hrun⟩

/-- A node goes from a queue to a stack, and the memory under the tail of the empty queue is freed
and used again. -/
def wandering : List (Op ℕ) :=
  [.alloc 1 10 none,.alloc 2 20 none,.put 1 0,.put 2 0,.get 0,.push 1 0,.get 0,.free 2,
    .alloc 2 30 (some 2),.put 2 0,.each (.inl 0) 5,.pop 0,.get 0]

theorem lists_are_lists_wandering : Agrees exec spec wandering start ⟨fun _ => [],fun _ => none⟩ := by
  refine lists_are_lists wandering ?_
  simp [wandering,LegalRun,Legal,spec,Held.take,Held.set]
  constructor
  · intro i
    by_cases hi : i = 0 <;> simp [Function.update,hi]
  · intro j
    by_cases hj : j = 0 <;> simp [Function.update,hj]

end Ds
end RecycleBin
