import RecycleBin.Refinement
import RecycleBin.Ring
import RecycleBin.Transition

/-! The descriptor ring between `thread_main` and its workers. Both indices run up
to `MAX_THREADS` inclusive and are wrapped by the next use; nothing tests for a
full ring. Every section under the mutex is one step. -/
namespace RecycleBin
namespace ThreadPool

def maxThreads : ℕ := 128

/-- The fields of `struct thread_pool` both sides work on. -/
structure Pool where
  fds : List ℤ
  iget : ℕ
  iput : ℕ
  fds_length : fds.length = maxThreads
  iget_le : iget ≤ maxThreads
  iput_le : iput ≤ maxThreads

/-- The lazy wrap before an index is used. -/
def wrap (i : ℕ) : ℕ := if i = maxThreads then 0 else i

theorem wrap_lt {i : ℕ} (h : i ≤ maxThreads) : wrap i < maxThreads := by
  unfold wrap
  split_ifs with he
  · decide
  · omega

namespace Pool

/-- `calloc` of the pool. -/
def create : Pool :=
  ⟨List.replicate maxThreads 0,0,0,List.length_replicate,Nat.zero_le _,Nat.zero_le _⟩

/-- `p->fds[p->iput++] = connfd` after the wrap. -/
def put (p : Pool) (connfd : ℤ) : Pool where
  fds := p.fds.set (wrap p.iput) connfd
  iget := p.iget
  iput := wrap p.iput+1
  fds_length := by rw [List.length_set,p.fds_length]
  iget_le := p.iget_le
  iput_le := wrap_lt p.iput_le

/-- The slot the next `get` reads. -/
def front (p : Pool) : ℤ := p.fds.get ⟨wrap p.iget,by rw [p.fds_length]; exact wrap_lt p.iget_le⟩

/-- The slot the next `put` writes. -/
def back (p : Pool) : ℤ := p.fds.get ⟨wrap p.iput,by rw [p.fds_length]; exact wrap_lt p.iput_le⟩

/-- `connfd = p->fds[p->iget++]` after the wrap; the value read is `front`. -/
def get (p : Pool) : Pool where
  fds := p.fds
  iget := wrap p.iget+1
  iput := p.iput
  fds_length := p.fds_length
  iget_le := wrap_lt p.iget_le
  iput_le := p.iput_le

/-- How many gets lead from `iget` to `iput`, where the workers wait. -/
def count (p : Pool) : ℕ :=
  if p.iget ≤ p.iput then p.iput-p.iget else p.iput+maxThreads-p.iget

/-- The descriptors those gets read. -/
def queued (p : Pool) : List ℤ :=
  (List.range p.count).map fun i => p.fds[(p.iget+i)%maxThreads]?.getD 0

end Pool

/-- Where a worker stands: about to lock and test `iput == iget`, blocked in
`pthread_cond_wait`, or holding a descriptor for `process`. -/
inductive Worker
  | lock
  | waiting
  | holding (connfd : ℤ)
  deriving DecidableEq

/-- The pool and its workers, with what an observer records: the descriptors
accepted, taken and processed, the slots filled since they were last taken, the
descriptors overwritten in a filled slot and those read from an unfilled one. -/
structure State (n : ℕ) where
  pool : Pool
  worker : Fin n → Worker
  accepted : List ℤ
  handed : List ℤ
  processed : List ℤ
  filled : ℕ → Bool
  overwritten : List ℤ
  stale : List ℤ

variable {n : ℕ}

def State.init (n : ℕ) : State n where
  pool := .create
  worker := fun _ => .lock
  accepted := []
  handed := []
  processed := []
  filled := fun _ => false
  overwritten := []
  stale := []

/-- The put section of `thread_main`; `worker` is the workers' state after the signal. -/
def State.put (s : State n) (connfd : ℤ) (worker : Fin n → Worker) : State n :=
  { s with
    pool := s.pool.put connfd
    worker := worker
    accepted := s.accepted++[connfd]
    filled := Function.update s.filled (wrap s.pool.iput) true
    overwritten :=
      if s.filled (wrap s.pool.iput) then s.overwritten++[s.pool.back] else s.overwritten }

/-- The get section of `thread_worker`. -/
def State.get (s : State n) (i : Fin n) : State n :=
  { s with
    pool := s.pool.get
    worker := Function.update s.worker i (.holding s.pool.front)
    handed := s.handed++[s.pool.front]
    filled := Function.update s.filled (wrap s.pool.iget) false
    stale := if s.filled (wrap s.pool.iget) then s.stale else s.stale++[s.pool.front] }

/-- `pthread_cond_signal` unblocks one waiting worker when there is one. -/
def Signal (w w' : Fin n → Worker) : Prop :=
  (∃ i, w i = .waiting ∧ w' = Function.update w i .lock) ∨ (∀ i, w i ≠ .waiting) ∧ w' = w

inductive Step : State n → State n → Prop
  | put (s : State n) (connfd : ℤ) (w : Fin n → Worker) (hw : Signal s.worker w) :
      Step s (s.put connfd w)
  | get (s : State n) (i : Fin n) (hi : s.worker i = .lock) (hne : s.pool.iput ≠ s.pool.iget) :
      Step s (s.get i)
  | wait (s : State n) (i : Fin n) (hi : s.worker i = .lock) (he : s.pool.iput = s.pool.iget) :
      Step s { s with worker := Function.update s.worker i .waiting }
  | wakeup (s : State n) (i : Fin n) (hi : s.worker i = .waiting) :
      Step s { s with worker := Function.update s.worker i .lock }
  | process (s : State n) (i : Fin n) (connfd : ℤ) (hi : s.worker i = .holding connfd) :
      Step s { s with
        worker := Function.update s.worker i .lock
        processed := s.processed++[connfd] }

/-- What a worker holds between its get and `process`. -/
def Worker.held : Worker → Multiset ℤ
  | .holding connfd => {connfd}
  | _ => 0

/-- Every accepted descriptor is handed out exactly once: the descriptors taken so
far and the ones still to be taken are the accepted ones in order, each taken one is
with its worker or processed, no filled slot was overwritten, no unfilled one read,
and while descriptors are queued some worker is not blocked. -/
structure Sound (s : State n) : Prop where
  in_order : s.accepted = s.handed++s.pool.queued
  accounted : (s.handed : Multiset ℤ) = s.processed+∑ i, (s.worker i).held
  kept : s.overwritten = []
  fresh : s.stale = []
  served : 0 < n → s.pool.queued ≠ [] → ∃ i, s.worker i ≠ .waiting

/-- There is room for one more descriptor: after it fewer than `MAX_THREADS` are
queued, or exactly that many and none has been taken yet. -/
def Room (s : State n) : Prop :=
  s.accepted.length-s.handed.length+1 < maxThreads ∨
    s.handed = [] ∧ s.accepted.length < maxThreads

/-- The guard of a step: a descriptor is accepted only when there is room. -/
def PutsWithRoom (s t : State n) : Prop := t.accepted ≠ s.accepted → Room s

/-- The value of an index that has been used `k` times. -/
def index (k : ℕ) : ℕ := if k = 0 then 0 else (k-1)%maxThreads+1

theorem wrap_index (k : ℕ) : wrap (index k) = k%maxThreads := by
  unfold wrap index maxThreads
  split_ifs <;> omega

theorem index_succ (k : ℕ) : index (k+1) = k%maxThreads+1 := by
  simp [index]

/-- A full turn leads back to the same index. -/
theorem index_add_maxThreads {k : ℕ} (hk : k ≠ 0) : index (k+maxThreads) = index k := by
  unfold index maxThreads
  split_ifs <;> omega

/-- The ring of a state that never took more descriptors than it had room for:
`q` is queued, in the cells behind the ones already taken. -/
structure Inv (s : State n) (q : List ℤ) : Prop where
  accepted_eq : s.accepted = s.handed++q
  room : q.length < maxThreads ∨ s.handed = [] ∧ q.length ≤ maxThreads
  iget_eq : s.pool.iget = index s.handed.length
  iput_eq : s.pool.iput = index s.accepted.length
  holds : Ring.Holds s.pool.fds s.handed.length q
  filled_iff : ∀ c < maxThreads,
    s.filled c = true ↔ ∃ i < q.length, (s.handed.length+i)%maxThreads = c
  accounted : (s.handed : Multiset ℤ) = s.processed+∑ i, (s.worker i).held
  kept : s.overwritten = []
  fresh : s.stale = []
  served : 0 < n → q ≠ [] → ∃ i, s.worker i ≠ .waiting

namespace Inv
variable {s : State n} {q : List ℤ}

theorem length_eq (h : Inv s q) : s.accepted.length = s.handed.length+q.length := by
  rw [h.accepted_eq,List.length_append]

theorem count_eq (h : Inv s q) : s.pool.count = q.length := by
  have hl := h.length_eq
  have hz : s.handed = [] → s.handed.length = 0 := fun he => by rw [he]; rfl
  have hr := h.room
  rw [Pool.count,h.iget_eq,h.iput_eq,hl]
  unfold index maxThreads at *
  rcases hr with hr | ⟨he,hr⟩
  · split_ifs <;> omega
  · rw [hz he]
    split_ifs <;> omega

/-- What the workers would still take is exactly `q`. -/
theorem queued_eq (h : Inv s q) : s.pool.queued = q := by
  apply List.ext_getElem
  · simp [Pool.queued,h.count_eq]
  · intro i hi hi'
    have hcell := h.holds i hi'
    have hmod : (s.pool.iget+i)%maxThreads = (s.handed.length+i)%s.pool.fds.length := by
      rw [s.pool.fds_length,h.iget_eq]
      unfold index maxThreads
      split_ifs <;> omega
    simp only [Pool.queued,List.getElem_map,List.getElem_range,hmod,hcell,Option.getD_some]

/-- The workers wait exactly when nothing is queued. -/
theorem iput_eq_iget_iff (h : Inv s q) : s.pool.iput = s.pool.iget ↔ q = [] := by
  have hc := h.count_eq
  rw [← List.length_eq_zero_iff,← hc,Pool.count]
  have h₁ := s.pool.iget_le
  have h₂ := s.pool.iput_le
  have hi := h.iput_eq
  rw [h.length_eq] at hi
  have hg := h.iget_eq
  unfold index maxThreads at *
  constructor
  · intro he
    rw [he]
    simp
  · intro he
    split_ifs at * <;> omega

theorem sound (h : Inv s q) : Sound s where
  in_order := by rw [h.queued_eq,h.accepted_eq]
  accounted := h.accounted
  kept := h.kept
  fresh := h.fresh
  served := by rw [h.queued_eq]; exact h.served

end Inv

section Held
variable (w : Fin n → Worker) (i : Fin n) (v : Worker)

theorem held_update :
    ∑ j, (Function.update w i v j).held + (w i).held = ∑ j, (w j).held+v.held := by
  have hf : (fun j => (Function.update w i v j).held) =
      Function.update (fun j => (w j).held) i v.held := by
    funext j
    exact Function.apply_update (fun _ => Worker.held) w i v j
  rw [hf,Finset.sum_update_of_mem (Finset.mem_univ i),
    ← Finset.sum_erase_add _ _ (Finset.mem_univ i),Finset.sdiff_singleton_eq_erase]
  abel

theorem held_update_eq (h : v.held = (w i).held) :
    ∑ j, (Function.update w i v j).held = ∑ j, (w j).held := by
  have hu := held_update w i v
  rw [h] at hu
  exact add_right_cancel hu

end Held

/-- A signal hands no descriptor over, and leaves a worker that is not blocked. -/
theorem Signal.held {w w' : Fin n → Worker} (h : Signal w w') :
    ∑ i, (w' i).held = ∑ i, (w i).held := by
  rcases h with ⟨i,hi,rfl⟩ | ⟨-,rfl⟩
  · exact held_update_eq w i _ (by rw [hi]; rfl)
  · rfl

theorem Signal.awake {w w' : Fin n → Worker} (h : Signal w w') (hn : 0 < n) :
    ∃ i, w' i ≠ .waiting := by
  rcases h with ⟨i,-,rfl⟩ | ⟨hw,rfl⟩
  · exact ⟨i,by simp⟩
  · exact ⟨⟨0,hn⟩,hw _⟩

namespace Inv
variable {s : State n} {q : List ℤ}

theorem init (n : ℕ) : Inv (State.init n) [] where
  accepted_eq := rfl
  room := Or.inl (by decide)
  iget_eq := rfl
  iput_eq := rfl
  holds := Ring.holds_nil _ _
  filled_iff := by simp [State.init]
  accounted := by simp [State.init,Worker.held]
  kept := rfl
  fresh := rfl
  served := fun _ h => absurd rfl h

/-- With room the next slot has been taken since it was last filled. -/
theorem back_unfilled (h : Inv s q) (hq : q.length < maxThreads) :
    s.filled (wrap s.pool.iput) = false := by
  rw [h.iput_eq,wrap_index,h.length_eq,← Bool.not_eq_true,h.filled_iff _ (Nat.mod_lt _ (by decide))]
  rintro ⟨i,hi,hc⟩
  have := Ring.cell_inj (hi.trans hq) hq hc
  omega

theorem lt_of_room (h : Inv s q) (hroom : Room s) : q.length < maxThreads := by
  have hl := h.length_eq
  rcases hroom with hr | ⟨he,hr⟩ <;> omega

theorem put (h : Inv s q) (hroom : Room s) (connfd : ℤ) {w : Fin n → Worker}
    (hw : Signal s.worker w) : Inv (s.put connfd w) (q++[connfd]) := by
  have hl := h.length_eq
  have hq := h.lt_of_room hroom
  have hcell : wrap s.pool.iput = (s.handed.length+q.length)%maxThreads := by
    rw [h.iput_eq,wrap_index,hl]
  refine ⟨?_,?_,h.iget_eq,?_,?_,?_,?_,?_,h.fresh,fun hn _ => hw.awake hn⟩
  · simp [State.put,h.accepted_eq]
  · rcases hroom with hr | ⟨he,hr⟩
    · left
      rw [List.length_append,List.length_singleton]
      omega
    · right
      refine ⟨he,?_⟩
      rw [List.length_append,List.length_singleton]
      omega
  · change wrap s.pool.iput+1 = index (s.accepted++[connfd]).length
    rw [List.length_append,List.length_singleton,index_succ,h.iput_eq,wrap_index]
  · have hp := h.holds.push (by rw [s.pool.fds_length]; exact hq) connfd
    rwa [s.pool.fds_length,← hcell] at hp
  · intro c hc
    change Function.update s.filled (wrap s.pool.iput) true c = true ↔ _
    rw [List.length_append,List.length_singleton]
    by_cases he : c = wrap s.pool.iput
    · subst he
      simp only [Function.update_self,true_iff]
      exact ⟨q.length,by omega,hcell.symm⟩
    · rw [Function.update_of_ne he,h.filled_iff c hc]
      constructor
      · rintro ⟨i,hi,hci⟩
        exact ⟨i,by omega,hci⟩
      · rintro ⟨i,hi,hci⟩
        refine ⟨i,?_,hci⟩
        by_contra hni
        have hie : i = q.length := by omega
        rw [hie] at hci
        exact he (hci.symm.trans hcell.symm)
  · change _ = _+∑ i, (w i).held
    rw [hw.held]
    exact h.accounted
  · change (if s.filled (wrap s.pool.iput) then _ else _) = _
    rw [h.back_unfilled hq]
    exact h.kept

theorem front_eq {connfd : ℤ} (h : Inv s (connfd::q)) : s.pool.front = connfd := by
  have hh := h.holds.head
  have hc : wrap s.pool.iget = s.handed.length%s.pool.fds.length := by
    rw [s.pool.fds_length,h.iget_eq,wrap_index]
  rw [← hc] at hh
  exact (List.getElem_eq_iff _).mpr hh

/-- A get takes the oldest descriptor from a slot filled since it was last taken. -/
theorem get {connfd : ℤ} (h : Inv s (connfd::q)) {i : Fin n} (hi : s.worker i = .lock) :
    Inv (s.get i) q := by
  have hf := h.front_eq
  have hl := h.length_eq
  have hq : (connfd::q).length ≤ maxThreads := by
    rcases h.room with hr | ⟨-,hr⟩ <;> omega
  rw [List.length_cons] at hl hq
  have hcell : wrap s.pool.iget = s.handed.length%maxThreads := by rw [h.iget_eq,wrap_index]
  have hlen : (s.get i).handed.length = s.handed.length+1 := by simp [State.get]
  have hmem : ∀ j, (s.handed.length+(j+1))%maxThreads = ((s.get i).handed.length+j)%maxThreads := by
    intro j
    rw [hlen]
    congr 1
    omega
  refine ⟨?_,Or.inl (by omega),?_,h.iput_eq,?_,?_,?_,h.kept,?_,fun _ _ => ⟨i,by simp [State.get]⟩⟩
  · simp [State.get,h.accepted_eq,hf]
  · rw [hlen,index_succ,← hcell]
    rfl
  · rw [hlen]
    exact h.holds.tail
  · intro c hc
    change Function.update s.filled (wrap s.pool.iget) false c = true ↔ _
    by_cases he : c = wrap s.pool.iget
    · subst he
      simp only [Function.update_self,Bool.false_eq_true,false_iff]
      rintro ⟨j,hj,hcj⟩
      rw [← hmem,hcell] at hcj
      have := Ring.cell_inj (i:=j+1) (j:=0) (by omega) (by decide) hcj
      omega
    · rw [Function.update_of_ne he,h.filled_iff c hc]
      constructor
      · rintro ⟨j,hj,hcj⟩
        cases j with
        | zero => exact absurd (hcj.symm.trans hcell.symm) he
        | succ j => exact ⟨j,by simpa using hj,by rw [← hmem]; exact hcj⟩
      · rintro ⟨j,hj,hcj⟩
        exact ⟨j+1,by simpa using hj,by rw [hmem]; exact hcj⟩
  · have hu := held_update s.worker i (.holding s.pool.front)
    rw [hi,show Worker.lock.held = 0 from rfl,add_zero] at hu
    change ((s.handed++[s.pool.front] : List ℤ) : Multiset ℤ) = s.processed+_
    rw [← Multiset.coe_add,h.accounted,add_assoc]
    congr 1
    exact hu.symm
  · change (if s.filled (wrap s.pool.iget) then _ else _) = _
    have hfill : s.filled (wrap s.pool.iget) = true := by
      rw [h.filled_iff _ (wrap_lt s.pool.iget_le)]
      exact ⟨0,by simp,hcell.symm⟩
    rw [hfill]
    exact h.fresh

/-- A worker that changes its state without touching the ring. -/
theorem worker (h : Inv s q) (i : Fin n) (v : Worker) (processed : List ℤ)
    (hheld : (processed : Multiset ℤ)+v.held = s.processed+(s.worker i).held)
    (hserved : v = .waiting → q = []) :
    Inv { s with worker := Function.update s.worker i v,processed := processed } q where
  accepted_eq := h.accepted_eq
  room := h.room
  iget_eq := h.iget_eq
  iput_eq := h.iput_eq
  holds := h.holds
  filled_iff := h.filled_iff
  accounted := by
    have hu := held_update s.worker i v
    have hsum : (processed : Multiset ℤ)+∑ j, (Function.update s.worker i v j).held+
        ((s.worker i).held+v.held) = s.processed+∑ j, (s.worker j).held+((s.worker i).held+v.held) := by
      calc
        _ = (processed+v.held)+(∑ j, (Function.update s.worker i v j).held+(s.worker i).held) := by
          abel
        _ = (s.processed+(s.worker i).held)+(∑ j, (s.worker j).held+v.held) := by rw [hheld,hu]
        _ = _ := by abel
    exact h.accounted.trans (add_right_cancel hsum).symm
  kept := h.kept
  fresh := h.fresh
  served := fun _ hq => ⟨i,by
    change Function.update s.worker i v i ≠ _
    rw [Function.update_self]
    exact fun hv => hq (hserved hv)⟩

end Inv

/-- One step that puts only with room keeps the ring sound. -/
theorem step_inv {s t : State n} (h : ∃ q, Inv s q) (hs : Guarded PutsWithRoom Step s t) :
    ∃ q, Inv t q := by
  rcases h with ⟨q,h⟩
  rcases hs with ⟨hstep,hroom⟩
  cases hstep with
  | put connfd w hw => exact ⟨_,h.put (hroom (by simp [State.put])) connfd hw⟩
  | get i hi hne =>
    cases q with
    | nil => exact absurd (h.iput_eq_iget_iff.mpr rfl) hne
    | cons connfd q => exact ⟨q,h.get hi⟩
  | wait i hi he =>
    exact ⟨q,h.worker i .waiting s.processed (by rw [hi]; rfl) fun _ => h.iput_eq_iget_iff.mp he⟩
  | wakeup i hi => exact ⟨q,h.worker i .lock s.processed (by rw [hi]; rfl) (by simp)⟩
  | process i connfd hi =>
    refine ⟨q,h.worker i .lock (s.processed++[connfd]) ?_ (by simp)⟩
    rw [hi,← Multiset.coe_add]
    simp [Worker.held]

/-- In every run that accepts a descriptor only when there is room, for any number of
workers and any interleaving, every descriptor is handed out exactly once. -/
theorem sound_of_room {s : State n}
    (h : Reach (State.init n) (Guarded PutsWithRoom Step) s) : Sound s := by
  rcases h.invariant (I:=fun s => ∃ q, Inv s q) ⟨[],Inv.init n⟩ (fun _ _ => step_inv) with ⟨q,hq⟩
  exact hq.sound

/-- Without room a put overwrites a filled slot or hides all queued descriptors, so
the guard is exact. -/
theorem not_sound_put {s : State n} {q : List ℤ} (h : Inv s q) (hroom : ¬Room s) (connfd : ℤ)
    (w : Fin n → Worker) : ¬Sound (s.put connfd w) := by
  have hl := h.length_eq
  have hq : q.length = maxThreads-1 ∨ q.length = maxThreads := by
    have hr := h.room
    unfold Room at hroom
    unfold maxThreads at *
    omega
  intro hs
  rcases hq with hq | hq
  · -- The put makes `iput` meet `iget`: nothing is queued any more.
    have hne : s.handed.length ≠ 0 := by
      intro he
      apply hroom
      right
      refine ⟨List.length_eq_zero_iff.mp he,?_⟩
      unfold maxThreads at *
      omega
    have hcount : (s.put connfd w).pool.count = 0 := by
      have h₁ : (s.put connfd w).pool.iget = index s.handed.length := h.iget_eq
      have h₂ : (s.put connfd w).pool.iput = index (s.accepted.length+1) := by
        rw [index_succ,← wrap_index,← h.iput_eq]
        rfl
      have hturn : s.accepted.length+1 = s.handed.length+maxThreads := by
        unfold maxThreads at *
        omega
      rw [Pool.count,h₁,h₂,hturn,index_add_maxThreads hne]
      simp
    have horder := congrArg List.length hs.in_order
    rw [Pool.queued,hcount] at horder
    simp [State.put] at horder
    omega
  · -- The slot behind a full ring is its oldest one.
    have hfill : s.filled (wrap s.pool.iput) = true := by
      rw [h.filled_iff _ (wrap_lt s.pool.iput_le),h.iput_eq,wrap_index,hl]
      refine ⟨0,by rw [hq]; decide,?_⟩
      rw [hq,Nat.add_zero,Nat.add_mod_right]
    have hk := hs.kept
    simp [State.put,hfill] at hk

/-- `thread_main` accepts the descriptors `0..k-1` before any worker gets the mutex. -/
def burst (n : ℕ) : ℕ → State n
  | 0 => State.init n
  | k+1 => (burst n k).put k fun _ => .lock

theorem burst_fields (n k : ℕ) : (burst n k).handed = [] ∧ (burst n k).accepted.length = k ∧
    (burst n k).worker = fun _ => .lock := by
  induction k with
  | zero => exact ⟨rfl,rfl,rfl⟩
  | succ k ih => exact ⟨ih.1,by simp [burst,State.put,ih.2.1],rfl⟩

theorem burst_signal (n k : ℕ) : Signal (burst n k).worker fun _ => .lock := by
  right
  rw [(burst_fields n k).2.2]
  exact ⟨fun _ => by simp,rfl⟩

/-- The first `MAX_THREADS` puts of a burst have room. -/
theorem burst_reach (n : ℕ) {k : ℕ} (hk : k ≤ maxThreads) :
    Reach (State.init n) (Guarded PutsWithRoom Step) (burst n k) := by
  induction k with
  | zero => exact .start
  | succ k ih =>
    refine .next (ih (by omega)) ⟨.put _ _ _ (burst_signal n k),fun _ => Or.inr ?_⟩
    rw [(burst_fields n k).1,(burst_fields n k).2.1]
    exact ⟨rfl,by omega⟩

theorem sound_burst : Sound (burst 1 2) := sound_of_room (burst_reach 1 (by decide))

/-- With one worker, a burst of 129 connections overwrites the first descriptor. -/
theorem not_sound_burst :
    Reach (State.init 1) Step (burst 1 129) ∧ ¬Sound (burst 1 129) := by
  have hfull := burst_reach 1 (le_refl maxThreads)
  refine ⟨.next hfull.of_guarded (.put _ _ _ (burst_signal 1 128)),?_⟩
  rcases hfull.invariant (I:=fun s => ∃ q, Inv s q) ⟨[],Inv.init 1⟩ (fun _ _ => step_inv) with ⟨q,hq⟩
  refine not_sound_put hq ?_ 128 _
  unfold Room
  rw [(burst_fields 1 maxThreads).1,(burst_fields 1 maxThreads).2.1]
  simp

end ThreadPool
end RecycleBin
