import RecycleBin.Refinement
import RecycleBin.Linked

/-! The linked queues of `ant_queue.c`, in a heap of queue heads and elements. A
pointer is an address or NULL; using a NULL or freed pointer is undefined. -/
namespace RecycleBin
namespace AntQueue
open Linked

variable {D : Type}

/-- `struct queue_elem`. -/
structure Elem (D : Type) where
  data : D
  next : Option ℕ

/-- `struct queue_head`; `flag` tells a heap queue from one on the stack. -/
structure Head where
  head : Option ℕ
  tail : Option ℕ
  size : ℤ
  flag : Bool
  deriving DecidableEq

/-- The heap; `fresh` is the next address `malloc` returns. -/
structure Mem (D : Type) where
  elems : ℕ → Option (Elem D)
  queues : ℕ → Option Head
  fresh : ℕ

namespace Mem

def empty : Mem D := ⟨fun _ => none,fun _ => none,0⟩

def setElem (m : Mem D) (a : ℕ) (e : Option (Elem D)) : Mem D :=
  { m with elems := Function.update m.elems a e }

def setQueue (m : Mem D) (a : ℕ) (q : Option Head) : Mem D :=
  { m with queues := Function.update m.queues a q }

/-- `*qp`, with the address. -/
def queue (m : Mem D) : Option ℕ → Except Fault (ℕ × Head)
  | none => .error .undefined
  | some a =>
    match m.queues a with
    | some q => .ok (a,q)
    | none => .error .undefined

/-- `*e`, with the address. -/
def elem (m : Mem D) : Option ℕ → Except Fault (ℕ × Elem D)
  | none => .error .undefined
  | some a =>
    match m.elems a with
    | some e => .ok (a,e)
    | none => .error .undefined

end Mem

def queueInit : Head := ⟨none,none,0,false⟩

/-- `queue_new` without an allocation failure. -/
def queueNew (m : Mem D) : ℕ × Mem D :=
  (m.fresh,{ m.setQueue m.fresh (some { queueInit with flag := true }) with fresh := m.fresh+1 })

/-- `Q_NEW`. -/
def qNew (d : D) (qe : Option ℕ) (m : Mem D) : ℕ × Mem D :=
  (m.fresh,{ m.setElem m.fresh (some ⟨d,qe⟩) with fresh := m.fresh+1 })

/-- `queue_put`. -/
def queuePut (d : D) (qp : Option ℕ) (m : Mem D) : Except Fault (Mem D) := do
  let (a,q) ← m.queue qp
  match q.head with
  | none =>
    let (e,m₁) := qNew d none m
    .ok (m₁.setQueue a (some { q with head := some e, tail := some e, size := q.size+1 }))
  | some _ =>
    let (t,last) ← m.elem q.tail
    let (e,m₁) := qNew d last.next m
    .ok ((m₁.setElem t (some { last with next := some e })).setQueue a
      (some { q with tail := some e, size := q.size+1 }))

/-- `queue_get`; nothing tests for an empty queue. -/
def queueGet (qp : Option ℕ) (m : Mem D) : Except Fault (D × Mem D) := do
  let (a,q) ← m.queue qp
  let (h,e) ← m.elem q.head
  .ok (e.data,(m.setElem h none).setQueue a (some { q with head := e.next, size := q.size-1 }))

/-- `queue_join_init`; the assertions abort. -/
def queueJoinInit (q1 q2 : Option ℕ) (m : Mem D) : Except Fault (Mem D) := do
  if q1 = none ∨ q2 = none then .error .panic
  else
    let (b,p2) ← m.queue q2
    match p2.head with
    | none => .ok m
    | some _ =>
      let (a,p1) ← m.queue q1
      let empty : Head := { p2 with head := none, tail := none, size := 0 }
      match p1.head with
      | none =>
        .ok ((m.setQueue a (some { p1 with head := p2.head, tail := p2.tail, size := p2.size })).setQueue
          b (some empty))
      | some _ =>
        let (t,last) ← m.elem p1.tail
        .ok (((m.setElem t (some { last with next := p2.head })).setQueue a
          (some { p1 with tail := p2.tail, size := p1.size+p2.size })).setQueue b (some empty))

/-- `queue_free`. -/
def queueFree (qp : Option ℕ) (m : Mem D) : Except Fault (Mem D) := do
  let (a,q) ← m.queue qp
  if q.flag then .ok (m.setQueue a none) else .ok m

/-! ### Queues as lists -/

/-- The elements as cells of linked chains. -/
def Mem.cell (m : Mem D) (a : ℕ) : Option (D × Option ℕ) :=
  (m.elems a).map fun e => (e.data,e.next)

/-- A queue head over the elements `l`, with their addresses. -/
structure IsQueue (m : Mem D) (q : Head) (l : List (ℕ × D)) : Prop where
  flag : q.flag = true
  size : q.size = l.length
  chain : Chain m.cell l q.head
  tail : l ≠ [] → q.tail = l.getLast?.map Prod.fst

/-- The live queues of the heap are those of `f`, on elements of their own. -/
structure Reps (m : Mem D) (f : ℕ → Option (List (ℕ × D))) : Prop where
  live : ∀ a l, f a = some l → a < m.fresh ∧ ∃ q, m.queues a = some q ∧ IsQueue m q l
  dead : ∀ a, f a = none → m.queues a = none
  nodup : ∀ a l, f a = some l → (l.map Prod.fst).Nodup
  disjoint : ∀ x a b l l', f a = some l → f b = some l' →
    x ∈ l.map Prod.fst → x ∈ l'.map Prod.fst → a = b
  lt_fresh : ∀ a l, f a = some l → ∀ x ∈ l.map Prod.fst, x < m.fresh

theorem Mem.cell_setElem (m : Mem D) (a : ℕ) (e : Elem D) :
    (m.setElem a (some e)).cell = Function.update m.cell a (some (e.data,e.next)) := by
  funext x
  by_cases hx : x = a <;> simp [cell,setElem,Function.update,hx]

theorem Mem.elem_of_cell {m : Mem D} {a : ℕ} {d : D} {n : Option ℕ} (h : m.cell a = some (d,n)) :
    m.elem (some a) = .ok (a,⟨d,n⟩) := by
  simp only [cell,Option.map_eq_some_iff] at h
  obtain ⟨e,he,hd⟩ := h
  cases hd
  simp [elem,he]

/-- The last element of a queue is its tail. -/
theorem IsQueue.tail_eq {m : Mem D} {t : ℕ} {x : D} {q : Head} {l : List (ℕ × D)}
    (hl : IsQueue m q (l++[(t,x)])) :
    (∃ h, q.head = some h) ∧ m.elem q.tail = .ok (t,⟨x,none⟩) := by
  have ht : q.tail = some t := by simpa using hl.tail (by simp)
  obtain ⟨n,hcell,hn⟩ := hl.chain.cell_of_split
  rw [chain_nil] at hn
  subst hn
  refine ⟨?_,by rw [ht]; exact Mem.elem_of_cell hcell⟩
  rcases l with _ | ⟨y,l⟩ <;> exact ⟨_,hl.chain.1⟩

namespace Reps
variable {m m' : Mem D} {f : ℕ → Option (List (ℕ × D))}

theorem empty : Reps (Mem.empty : Mem D) fun _ => none where
  live := fun _ _ h => by cases h
  dead := fun _ _ => rfl
  nodup := fun _ _ h => by cases h
  disjoint := fun _ _ _ _ _ h => by cases h
  lt_fresh := fun _ _ h => by cases h

variable (R : Reps m f)
include R

/-- Rewriting one queue, on elements no other queue has. -/
theorem modify {a : ℕ} {q : Head} {l : List (ℕ × D)} (hq : m'.queues a = some q)
    (hl : IsQueue m' q l) (hqueues : ∀ b ≠ a, m'.queues b = m.queues b)
    (hcells : ∀ b ≠ a, ∀ l, f b = some l → ∀ x ∈ l.map Prod.fst, m'.cell x = m.cell x)
    (hfresh : m.fresh ≤ m'.fresh) (ha : a < m'.fresh) (hnodup : (l.map Prod.fst).Nodup)
    (hlt : ∀ x ∈ l.map Prod.fst, x < m'.fresh)
    (hown : ∀ x ∈ l.map Prod.fst, ∀ b ≠ a, ∀ l', f b = some l' → x ∉ l'.map Prod.fst) :
    Reps m' (Function.update f a (some l)) where
  live := by
    refine (Function.forall_update_iff f fun b o => ∀ l', o = some l' →
      b < m'.fresh ∧ ∃ q, m'.queues b = some q ∧ IsQueue m' q l').mpr ⟨?_,fun b hba l' hb => ?_⟩
    · rintro _ ⟨⟩
      exact ⟨ha,q,hq,hl⟩
    · obtain ⟨hlt',q',hq',hl'⟩ := R.live b l' hb
      exact ⟨hlt'.trans_le hfresh,q',by rw [hqueues b hba,hq'],hl'.flag,hl'.size,
        hl'.chain.frame (hcells b hba l' hb),hl'.tail⟩
  dead := by
    refine (Function.forall_update_iff f fun b o => o = none → m'.queues b = none).mpr
      ⟨(fun hb => by cases hb),fun b hba hb => ?_⟩
    rw [hqueues b hba,R.dead b hb]
  nodup := by
    refine (Function.forall_update_iff f fun _ o => ∀ l', o = some l' → (l'.map Prod.fst).Nodup).mpr
      ⟨?_,fun b _ => R.nodup b⟩
    rintro _ ⟨⟩
    exact hnodup
  disjoint := fun x b c l₁ l₂ hb hc hx₁ hx₂ => by
    rcases eq_or_ne b a with rfl | hba <;> rcases eq_or_ne c b with rfl | hcb
    · rfl
    · rw [Function.update_self] at hb
      rw [Function.update_of_ne hcb] at hc
      cases hb
      exact absurd hx₂ (hown x hx₁ c hcb l₂ hc)
    · rfl
    · rcases eq_or_ne c a with rfl | hca
      · rw [Function.update_self] at hc
        rw [Function.update_of_ne hba] at hb
        cases hc
        exact absurd hx₁ (hown x hx₂ b hba l₁ hb)
      · rw [Function.update_of_ne hba] at hb
        rw [Function.update_of_ne hca] at hc
        exact R.disjoint x b c l₁ l₂ hb hc hx₁ hx₂
  lt_fresh := by
    refine (Function.forall_update_iff f fun _ o => ∀ l', o = some l' →
      ∀ x ∈ l'.map Prod.fst, x < m'.fresh).mpr ⟨?_,fun b _ l' hb x hx => ?_⟩
    · rintro _ ⟨⟩
      exact hlt
    · exact (R.lt_fresh b l' hb x hx).trans_le hfresh

theorem queue_eq {a : ℕ} {l : List (ℕ × D)} (ha : f a = some l) :
    ∃ q, m.queues a = some q ∧ m.queue (some a) = .ok (a,q) ∧ IsQueue m q l := by
  obtain ⟨-,q,hq,hl⟩ := R.live a l ha
  exact ⟨q,hq,by simp [Mem.queue,hq],hl⟩

/-- A freed or NULL queue takes no element. -/
theorem queuePut_dead {qp : Option ℕ} (h : ∀ a ∈ qp, f a = none) (d : D) :
    queuePut d qp m = .error .undefined := by
  rcases qp with _ | a
  · rfl
  · simp [queuePut,Mem.queue,R.dead a (h a rfl)]

/-- A new queue is empty. -/
theorem queueNew : Reps (AntQueue.queueNew m).2 (Function.update f m.fresh (some [])) := by
  refine R.modify (q := ⟨none,none,0,true⟩) ?_ ⟨rfl,rfl,rfl,fun h => absurd rfl h⟩ ?_
    (fun _ _ _ _ _ _ => rfl) (Nat.le_succ _) (Nat.lt_succ_self _) List.nodup_nil ?_ ?_
  · simp [AntQueue.queueNew,Mem.setQueue,queueInit]
  · intro b hb
    simp [AntQueue.queueNew,Mem.setQueue,hb]
  · simp
  · simp

theorem fresh_notMem {a : ℕ} {l : List (ℕ × D)} (ha : f a = some l) : m.fresh ∉ l.map Prod.fst :=
  fun hx => (R.lt_fresh a l ha _ hx).false

/-- The items `l` can be those of the queue `a`, with addresses below `n`. -/
structure Fits (f : ℕ → Option (List (ℕ × D))) (a n : ℕ) (l : List (ℕ × D)) : Prop where
  nodup : (l.map Prod.fst).Nodup
  lt : ∀ x ∈ l.map Prod.fst, x < n
  own : ∀ x ∈ l.map Prod.fst, ∀ b ≠ a, ∀ l', f b = some l' → x ∉ l'.map Prod.fst

/-- A new item. -/
theorem fits_push {a : ℕ} {l : List (ℕ × D)} (ha : f a = some l) (d : D) :
    Fits f a (m.fresh+1) (l++[(m.fresh,d)]) := by
  have hmem : ∀ x ∈ (l++[(m.fresh,d)]).map Prod.fst, x ∈ l.map Prod.fst ∨ x = m.fresh := by
    intro x hx
    rwa [List.map_append,List.mem_append,List.map_singleton,List.mem_singleton] at hx
  refine ⟨?_,?_,?_⟩
  · rw [List.map_append,List.nodup_append]
    refine ⟨R.nodup a l ha,List.nodup_singleton _,fun x hx y hy hxy => ?_⟩
    simp only [List.map_cons,List.map_nil,List.mem_singleton] at hy
    exact R.fresh_notMem ha (hy ▸ hxy ▸ hx)
  · intro x hx
    rcases hmem x hx with hx | rfl
    · exact (R.lt_fresh a l ha x hx).trans (Nat.lt_succ_self _)
    · exact Nat.lt_succ_self _
  · intro x hx b hba l' hb hxl
    rcases hmem x hx with hx | rfl
    · exact hba (R.disjoint x b a l' l hb ha hxl hx)
    · exact R.fresh_notMem hb hxl

/-- The items of a queue that is emptied. -/
theorem fits_join {a b : ℕ} {l₁ l₂ : List (ℕ × D)} (ha : f a = some l₁) (hb : f b = some l₂)
    (hab : a ≠ b) : Fits (Function.update f b (some [])) a m.fresh (l₁++l₂) := by
  have hmem : ∀ y ∈ (l₁++l₂).map Prod.fst, y ∈ l₁.map Prod.fst ∨ y ∈ l₂.map Prod.fst := by
    intro y hy
    rwa [List.map_append,List.mem_append] at hy
  refine ⟨?_,fun y hy => (hmem y hy).elim (R.lt_fresh a _ ha y) (R.lt_fresh b _ hb y),?_⟩
  · rw [List.map_append,List.nodup_append]
    refine ⟨R.nodup a _ ha,R.nodup b _ hb,fun y hy z hz hyz => ?_⟩
    exact hab (R.disjoint y a b _ _ ha hb hy (hyz ▸ hz))
  · intro y hy c hca l' hc hyl
    rcases eq_or_ne c b with rfl | hcb
    · rw [Function.update_self] at hc
      cases hc
      simp at hyl
    · rw [Function.update_of_ne hcb] at hc
      rcases hmem y hy with hy | hy
      · exact hca (R.disjoint y c a l' _ hc ha hyl hy)
      · exact hcb (R.disjoint y c b l' _ hc hb hyl hy)

/-- The last element of a queue is in it once. -/
theorem last_notMem {a t : ℕ} {x : D} {l : List (ℕ × D)} (ha : f a = some (l++[(t,x)])) :
    t ∉ l.map Prod.fst := by
  have hn := R.nodup a _ ha
  rw [List.map_append,List.nodup_append] at hn
  exact fun hm => hn.2.2 t hm t (by simp) rfl

/-- `queue_put` appends an element. -/
theorem queuePut {a : ℕ} {l : List (ℕ × D)} (ha : f a = some l) (d : D) :
    ∃ m', AntQueue.queuePut d (some a) m = .ok m' ∧ m'.fresh = m.fresh+1 ∧
      Reps m' (Function.update f a (some (l++[(m.fresh,d)]))) := by
  obtain ⟨q,hq,hqueue,hl⟩ := R.queue_eq ha
  have hfresh := R.fresh_notMem ha
  have hfits := R.fits_push ha d
  have halt : a < m.fresh+1 := (R.live a l ha).1.trans (Nat.lt_succ_self _)
  rcases List.eq_nil_or_concat l with rfl | ⟨l₀,⟨t,x⟩,rfl⟩
  · -- an empty queue: both ends become the new element
    have hhead : q.head = none := hl.chain
    have hsize : q.size = 0 := hl.size
    let q' : Head := { q with head := some m.fresh, tail := some m.fresh, size := q.size+1 }
    have hcell : ((qNew d none m).2.setQueue a (some q')).cell =
        Function.update m.cell m.fresh (some (d,none)) := m.cell_setElem m.fresh ⟨d,none⟩
    refine ⟨(qNew d none m).2.setQueue a (some q'),
      by simp [AntQueue.queuePut,hqueue,hhead,q',qNew],rfl,?_⟩
    refine R.modify (q := q') (by simp [Mem.setQueue]) ?_ ?_ ?_ (Nat.le_succ _) halt hfits.nodup hfits.lt
      hfits.own
    · refine ⟨hl.flag,by simp [q',hsize],?_,fun _ => rfl⟩
      rw [hcell]
      exact Chain.push (l := []) rfl (by simp)
    · exact fun b hb => by simp [Mem.setQueue,hb,qNew,Mem.setElem]
    · intro b hb l' hl' x hx
      rw [hcell,Function.update_of_ne]
      exact (R.lt_fresh b l' hl' x hx).ne
  · -- otherwise the last element is linked to the new one
    simp only [List.concat_eq_append] at *
    obtain ⟨⟨h,hhead⟩,helem⟩ := hl.tail_eq
    let q' : Head := { q with tail := some m.fresh, size := q.size+1 }
    have htm : t ∈ (l₀++[(t,x)]).map Prod.fst := by simp
    have htf : t ≠ m.fresh := (R.lt_fresh a _ ha t htm).ne
    have hcell : (((qNew d none m).2.setElem t (some ⟨x,some m.fresh⟩)).setQueue a (some q')).cell =
        Function.update (Function.update m.cell m.fresh (some (d,none))) t
          (some (x,some m.fresh)) := by
      rw [← m.cell_setElem m.fresh ⟨d,none⟩]
      exact Mem.cell_setElem _ t ⟨x,some m.fresh⟩
    have ht₀ := R.last_notMem ha
    refine ⟨((qNew d none m).2.setElem t (some ⟨x,some m.fresh⟩)).setQueue a (some q'),
      by simp [AntQueue.queuePut,hqueue,hhead,helem,q',qNew],rfl,?_⟩
    refine R.modify (q := q') (by simp [Mem.setQueue]) ?_ ?_ ?_ (Nat.le_succ _) halt hfits.nodup hfits.lt
      hfits.own
    · refine ⟨hl.flag,?_,?_,fun _ => by simp [q']⟩
      · have hsize := hl.size
        simp only [q',List.length_append,List.length_singleton] at hsize ⊢
        push_cast
        omega
      · rw [hcell,List.append_assoc]
        refine (hl.chain.update_of_notMem hfresh).splice (Chain.push (l := []) rfl (by simp)) ht₀ ?_
        simpa using htf
    · exact fun b hb => by simp [Mem.setQueue,hb,qNew,Mem.setElem]
    · intro b hb l' hl' y hy
      rw [hcell,Function.update_of_ne,Function.update_of_ne]
      · exact (R.lt_fresh b l' hl' y hy).ne
      · rintro rfl
        exact hb (R.disjoint y b a l' _ hl' ha hy htm)

/-- `queue_get` takes the first element. -/
theorem queueGet {a x : ℕ} {d : D} {l : List (ℕ × D)} (ha : f a = some ((x,d)::l)) :
    ∃ m', AntQueue.queueGet (some a) m = .ok (d,m') ∧ Reps m' (Function.update f a (some l)) := by
  obtain ⟨q,hq,hqueue,hl⟩ := R.queue_eq ha
  obtain ⟨hhead,n,hcell,hc⟩ := chain_cons.mp hl.chain
  have helem : m.elem q.head = .ok (x,⟨d,n⟩) := by rw [hhead]; exact Mem.elem_of_cell hcell
  have hn := R.nodup a _ ha
  rw [List.map_cons,List.nodup_cons] at hn
  let q' : Head := { q with head := n, size := q.size-1 }
  have hcell' : ((m.setElem x none).setQueue a (some q')).cell = Function.update m.cell x none := by
    funext y
    by_cases hy : y = x <;> simp [Mem.cell,Mem.setElem,Mem.setQueue,Function.update,hy]
  have hlt := R.lt_fresh a _ ha
  refine ⟨(m.setElem x none).setQueue a (some q'),
    by simp [AntQueue.queueGet,hqueue,helem,q'],?_⟩
  refine R.modify (q := q') (by simp [Mem.setQueue]) ?_ ?_ ?_ le_rfl (R.live a _ ha).1 hn.2 ?_ ?_
  · refine ⟨hl.flag,?_,?_,fun hne => ?_⟩
    · have hsize := hl.size
      simp only [q',List.length_cons] at hsize ⊢
      push_cast at hsize
      omega
    · rw [hcell']
      exact hc.update_of_notMem hn.1
    · have ht := hl.tail (by simp)
      rw [List.getLast?_cons_of_ne_nil hne] at ht
      exact ht
  · exact fun b hb => by simp [Mem.setQueue,hb,Mem.setElem]
  · intro b hb l' hl' y hy
    rw [hcell',Function.update_of_ne]
    rintro rfl
    exact hb (R.disjoint y b a l' _ hl' ha hy (by simp))
  · exact fun y hy => hlt y (List.mem_cons_of_mem _ hy)
  · exact fun y hy b hb l' hl' hy' =>
      hb (R.disjoint y b a l' _ hl' ha hy' (List.mem_cons_of_mem _ hy))

/-- Emptying a queue head lets go of its elements. -/
theorem clear {b : ℕ} {q : Head} {l : List (ℕ × D)} (hb : f b = some l)
    (hl : IsQueue m q l) :
    Reps (m.setQueue b (some { q with head := none, tail := none, size := 0 }))
      (Function.update f b (some [])) := by
  refine R.modify (q := { q with head := none, tail := none, size := 0 }) ?_ ?_ ?_
    (fun _ _ _ _ _ _ => rfl) le_rfl (R.live b l hb).1 List.nodup_nil ?_ ?_
  · simp [Mem.setQueue]
  · exact ⟨hl.flag,rfl,rfl,fun h => absurd rfl h⟩
  · exact fun c hc => by simp [Mem.setQueue,hc]
  · simp
  · simp

/-- `queue_join_init` moves all elements of the second queue behind the first. -/
theorem queueJoinInit {a b : ℕ} {l₁ l₂ : List (ℕ × D)} (ha : f a = some l₁) (hb : f b = some l₂)
    (hab : a ≠ b) :
    ∃ m', AntQueue.queueJoinInit (some a) (some b) m = .ok m' ∧ m'.fresh = m.fresh ∧
      Reps m' (Function.update (Function.update f b (some [])) a (some (l₁++l₂))) := by
  obtain ⟨q₁,hq₁,hqueue₁,hl₁⟩ := R.queue_eq ha
  obtain ⟨q₂,hq₂,hqueue₂,hl₂⟩ := R.queue_eq hb
  rcases l₂ with _ | ⟨⟨x,d⟩,l₂⟩
  · have hhead : q₂.head = none := hl₂.chain
    refine ⟨m,by simp [AntQueue.queueJoinInit,hqueue₂,hhead],rfl,?_⟩
    rw [List.append_nil,← ha,← hb,Function.update_eq_self,Function.update_eq_self]
    exact R
  have R₁ := R.clear hb hl₂
  have htail : (l₁++(x,d)::l₂).getLast?.map Prod.fst = q₂.tail := by
    rw [hl₂.tail (by simp),List.getLast?_append_of_ne_nil _ (by simp)]
  obtain ⟨hhead₂,-⟩ := chain_cons.mp hl₂.chain
  have hfits := R.fits_join ha hb hab
  have hqueues : ∀ (m' : Mem D) (q : Head), m'.queues = m.queues → ∀ c ≠ a,
      ((m'.setQueue a (some q)).setQueue b
        (some { q₂ with head := none, tail := none, size := 0 })).queues c =
      (m.setQueue b (some { q₂ with head := none, tail := none, size := 0 })).queues c := by
    intro m' q hm c hc
    by_cases hcb : c = b <;> simp [Mem.setQueue,Function.update,hc,hcb,hm]
  rcases List.eq_nil_or_concat l₁ with rfl | ⟨l₀,⟨t,y⟩,rfl⟩
  · -- the first queue is empty: it takes over both ends
    have hhead₁ : q₁.head = none := hl₁.chain
    let q' : Head := { q₁ with head := q₂.head, tail := q₂.tail, size := q₂.size }
    refine ⟨(m.setQueue a (some q')).setQueue b
        (some { q₂ with head := none, tail := none, size := 0 }),
      by simp [AntQueue.queueJoinInit,hqueue₁,hqueue₂,hhead₁,hhead₂,q'],rfl,?_⟩
    refine R₁.modify (q := q') ?_ ⟨hl₁.flag,hl₂.size,hl₂.chain,fun _ => htail.symm⟩
      (hqueues m q' rfl) (fun _ _ _ _ _ _ => rfl) le_rfl (R.live a _ ha).1 hfits.nodup hfits.lt hfits.own
    simp [Mem.setQueue,hab]
  · -- otherwise its last element is linked to the second queue
    simp only [List.concat_eq_append] at *
    obtain ⟨⟨h,hhead₁⟩,helem⟩ := hl₁.tail_eq
    have htm : t ∈ (l₀++[(t,y)]).map Prod.fst := by simp
    have ht₀ := R.last_notMem ha
    let q' : Head := { q₁ with tail := q₂.tail, size := q₁.size+q₂.size }
    refine ⟨((m.setElem t (some ⟨y,q₂.head⟩)).setQueue a (some q')).setQueue b
        (some { q₂ with head := none, tail := none, size := 0 }),
      by simp [AntQueue.queueJoinInit,hqueue₁,hqueue₂,hhead₁,hhead₂,helem,q'],rfl,?_⟩
    have hcell : (((m.setElem t (some ⟨y,q₂.head⟩)).setQueue a (some q')).setQueue b
        (some { q₂ with head := none, tail := none, size := 0 })).cell =
        Function.update m.cell t (some (y,q₂.head)) := m.cell_setElem t ⟨y,q₂.head⟩
    refine R₁.modify (q := q') ?_ ⟨hl₁.flag,?_,?_,fun _ => htail.symm⟩
      (hqueues _ q' rfl) ?_ le_rfl (R.live a _ ha).1 hfits.nodup hfits.lt hfits.own
    · simp [Mem.setQueue,hab]
    · have hs₁ := hl₁.size
      have hs₂ := hl₂.size
      simp only [q',List.length_append,List.length_cons,List.length_nil] at hs₁ hs₂ ⊢
      push_cast at hs₁ hs₂ ⊢
      omega
    · rw [hcell,List.append_assoc]
      refine hl₁.chain.splice hl₂.chain ht₀ fun hm => ?_
      exact hab (R.disjoint t a b _ _ ha hb htm hm)
    · intro c hca l' hc z hz
      rw [hcell,Function.update_of_ne]
      · rfl
      · rintro rfl
        exact hfits.own z (by simp) c hca l' hc hz

/-- `queue_free` of a heap queue. -/
theorem queueFree {a : ℕ} {l : List (ℕ × D)} (ha : f a = some l) :
    ∃ m', AntQueue.queueFree (some a) m = .ok m' ∧ m'.fresh = m.fresh ∧
      Reps m' (Function.update f a none) := by
  obtain ⟨q,hq,hqueue,hl⟩ := R.queue_eq ha
  refine ⟨m.setQueue a none,by simp [AntQueue.queueFree,hqueue,hl.flag],rfl,?_⟩
  have hof : ∀ {b l'}, Function.update f a none b = some l' → b ≠ a ∧ f b = some l' := by
    intro b l' hb
    rcases eq_or_ne b a with rfl | hba
    · rw [Function.update_self] at hb
      cases hb
    · rw [Function.update_of_ne hba] at hb
      exact ⟨hba,hb⟩
  refine ⟨fun b l' hb => ?_,fun b hb => ?_,fun b l' hb => R.nodup b l' (hof hb).2,
    fun x b c l₁ l₂ hb hc => R.disjoint x b c l₁ l₂ (hof hb).2 (hof hc).2,
    fun b l' hb => R.lt_fresh b l' (hof hb).2⟩
  · obtain ⟨hlt,q',hq',hl'⟩ := R.live b l' (hof hb).2
    exact ⟨hlt,q',by simp [Mem.setQueue,(hof hb).1,hq'],hl'.flag,hl'.size,hl'.chain,hl'.tail⟩
  · rcases eq_or_ne b a with rfl | hba
    · simp [Mem.setQueue]
    · rw [Function.update_of_ne hba] at hb
      simp [Mem.setQueue,hba,R.dead b hb]

end Reps
end AntQueue
end RecycleBin
