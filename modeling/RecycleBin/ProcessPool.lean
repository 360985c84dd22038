import RecycleBin.Bytes
import RecycleBin.Transition

/-! The process pool: `pp_pool_add` writes a record to a stream socket and the forked
workers read records from it. A step is the outcome of one system call, so that the
parent and its workers interleave at system calls. -/
namespace RecycleBin
namespace ProcessPool
open Bytes

def PP_TIMEOUT : ℤ := 1
def PP_ERROR : ℤ := -1
def PP_AUTO_ADD : Int32 := 0x1
def PP_MIN_CREATE : Int32 := 8
def PP_MAX_CREATE : Int32 := 16

/-- `struct pp_pool_t` without its descriptors. -/
structure Pool where
  max_process : ℤ
  min_process : ℤ
  run_process : ℤ
  flags : Int32
  ms : ℤ
  deriving DecidableEq

/-- The loop of `pp_pool_args_set` from index `i` on; the arguments end at `PP_NULL`. -/
def ppPoolArgsSetFrom (pool : Pool) : ℕ → List Int32 → Pool
  | _, [] => pool
  | 0, val::ap => ppPoolArgsSetFrom { pool with min_process := val.toInt } 1 ap
  | 1, val::ap => ppPoolArgsSetFrom { pool with flags := val } 2 ap
  | 2, val::ap => ppPoolArgsSetFrom { pool with ms := val.toInt } 3 ap
  | i, _::ap => ppPoolArgsSetFrom pool (i+1) ap

def ppPoolArgsSet (pool : Pool) (ap : List Int32) : Pool := ppPoolArgsSetFrom pool 0 ap

/-- `pp_pool_need_nprocess_gen`: none when it returns -1. -/
def ppPoolNeedNprocessGen (pool : Pool) : Option ℤ :=
  if pool.max_process < pool.min_process then none
  else if pool.min_process < 0 then none
  else if pool.flags &&& PP_MIN_CREATE ≠ 0 ∧ pool.flags &&& PP_MAX_CREATE ≠ 0 then none
  else
    let nprocess := if pool.flags &&& PP_MIN_CREATE ≠ 0 then pool.min_process else pool.max_process
    if nprocess < 0 then none else some nprocess

/-- `pp_pool_new` up to its call of `pp_pool_process_addn`, with the number it passes.
`mem` is the memory malloc returned, `sys` whether `socketpair` and `fcntl` succeeded. -/
def ppPoolNew (mem : Pool) (sys : Bool) (np : ℤ) (ap : List Int32) : Option (Pool × ℤ) :=
  if np ≤ 0 then none
  else if sys then
    let pool := ppPoolArgsSet { mem with max_process := np,ms := 500 } ap
    (ppPoolNeedNprocessGen pool).map fun nprocess => (pool,nprocess)
  else none

/-- `process_arg_t`; `padding` are the bytes between `type` and `func`. -/
structure ProcessArg where
  type : UInt32
  padding : UInt32
  func : UInt64
  arg : UInt64
  deriving DecidableEq

def recordSize : ℕ := 24

namespace ProcessArg

/-- The record in memory. -/
def bytes (a : ProcessArg) : List UInt8 :=
  (be 4 a.type.toNat).reverse++(be 4 a.padding.toNat).reverse++
    (be 8 a.func.toNat).reverse++(be 8 a.arg.toNat).reverse

/-- Memory as a record. -/
def ofBytes (bs : List UInt8) : ProcessArg where
  type := .ofNat (ofLe (bs.take 4))
  padding := .ofNat (ofLe ((bs.drop 4).take 4))
  func := .ofNat (ofLe ((bs.drop 8).take 8))
  arg := .ofNat (ofLe ((bs.drop 16).take 8))

@[simp] theorem bytes_length (a : ProcessArg) : a.bytes.length = recordSize := by
  simp [bytes,recordSize]

theorem ofLe_le {k n : ℕ} (h : n < 256^k) : ofLe (be k n).reverse = n := by
  rw [ofLe,List.reverse_reverse,ofBe_be_of_lt h]

theorem ofBytes_bytes (a : ProcessArg) : ofBytes a.bytes = a := by
  have htype : ofLe (be 4 a.type.toNat).reverse = a.type.toNat := ofLe_le a.type.toNat_lt
  have hpadding : ofLe (be 4 a.padding.toNat).reverse = a.padding.toNat :=
    ofLe_le a.padding.toNat_lt
  have hfunc : ofLe (be 8 a.func.toNat).reverse = a.func.toNat := ofLe_le a.func.toNat_lt
  have harg : ofLe (be 8 a.arg.toNat).reverse = a.arg.toNat := ofLe_le a.arg.toNat_lt
  simp [ofBytes,bytes,List.drop_append,List.drop_of_length_le,List.take_of_length_le,htype,
    hpadding,hfunc,harg]

end ProcessArg

/-- A byte in the socket, with the number of the `pp_pool_add` call that wrote it. -/
abbrev Cell := ℕ × UInt8

/-- The record of call `i`. -/
def cells (i : ℕ) (a : ProcessArg) : List Cell := a.bytes.map fun b => (i,b)

@[simp] theorem cells_length (i : ℕ) (a : ProcessArg) : (cells i a).length = recordSize := by
  simp [cells]

/-- The record a worker acts on: it calls `func` with `arg`. -/
def called (b : List Cell) : ProcessArg := .ofBytes (b.map Prod.snd)

@[simp] theorem called_cells (i : ℕ) (a : ProcessArg) : called (cells i a) = a := by
  have h : (cells i a).map Prod.snd = a.bytes := by
    rw [cells,List.map_map]
    exact List.map_id _
  rw [called,h,ProcessArg.ofBytes_bytes]

theorem cells_inj {i j : ℕ} {a b : ProcessArg} : cells i a = cells j b ↔ i = j ∧ a = b := by
  constructor
  · intro h
    have hab : a = b := by rw [← called_cells i a,h,called_cells]
    have hij : (cells i a).map Prod.fst = (cells j b).map Prod.fst := by rw [h]
    simp only [cells,List.map_map,Function.comp_def,List.map_const',ProcessArg.bytes_length] at hij
    exact ⟨List.replicate_right_injective (by decide : recordSize ≠ 0) hij,hab⟩
  · rintro ⟨rfl,rfl⟩
    rfl

/-- What `select` answers after EAGAIN. -/
inductive Wait
  | ready | timeout | error
  deriving DecidableEq

/-- The outcome of one `read` or `write`; `moved 0` is a return value of zero. -/
inductive Io
  | moved (k : ℕ)
  | eintr
  | again (w : Wait)
  | error
  deriving DecidableEq

/-- The return of `readn_timedwait` and `writen_timedwait`: a count, or -1 with errno
ETIMEDOUT or another one. -/
inductive Rv
  | count (n : ℕ)
  | timedout
  | error
  deriving DecidableEq

/-- One pass of their common loop: `k` bytes were moved, and the loop goes on or returns. -/
inductive Pass
  | loop (k : ℕ)
  | ret (k : ℕ) (rv : Rv)
  deriving DecidableEq

/-- One pass with `cnt` of `len` bytes to go. A negative timeout of -1 waits forever. -/
def timedwait (len cnt : ℕ) (msec : ℤ) : Io → Option Pass
  | .moved k =>
    if k = 0 then some (.ret 0 (.count (len-cnt)))
    else if k < cnt then some (.loop k)
    else if k = cnt then some (.ret k (.count len))
    else none
  | .eintr => some (.loop 0)
  | .again .ready => some (.loop 0)
  | .again .timeout => if msec = -1 then none else some (.ret 0 .timedout)
  | .again .error => some (.ret 0 .error)
  | .error => some (.ret 0 .error)

def writenTimedwait : ℕ → ℕ → ℤ → Io → Option Pass := timedwait
def readnTimedwait : ℕ → ℕ → ℤ → Io → Option Pass := timedwait

/-- Who called `pp_pool_process_addn`. -/
inductive Caller
  | new
  | user
  | add (a : ProcessArg) (ntry : ℕ)
  deriving DecidableEq

/-- Where the parent stands: outside the library, in `writen_timedwait` for a call of
`pp_pool_add` with `cnt` bytes to go, or in the loop of `pp_pool_process_addn`. -/
inductive Parent
  | idle
  | exited
  | writing (a : ProcessArg) (ntry cnt : ℕ)
  | growing (i n : ℤ) (caller : Caller)
  deriving DecidableEq

/-- A call of `pp_pool_add` that returned. -/
structure Call where
  record : ProcessArg
  result : ℤ
  deriving DecidableEq

/-- The pool, the parent, the bytes in the socket and what each worker has read of its
next record (none once it exited). An observer records the calls that returned, all bytes
and all whole records written, and the records the workers completed. -/
structure State where
  pool : Pool
  parent : Parent
  stream : List Cell
  workers : List (Option (List Cell))
  calls : List Call
  sent : List Cell
  written : List (ℕ × ProcessArg)
  executed : List (List Cell)

/-- The state in which `pp_pool_new` calls `pp_pool_process_addn`. -/
def State.start (pool : Pool) (nprocess : ℤ) : State where
  pool := pool
  parent := .growing 0 nprocess .new
  stream := []
  workers := []
  calls := []
  sent := []
  written := []
  executed := []

namespace State

/-- `pp_pool_add` returns. -/
def leave (s : State) (a : ProcessArg) (result : ℤ) : State :=
  { s with parent := .idle,calls := s.calls++[⟨a,result⟩] }

/-- `ntry--` and the test of the loop of `pp_pool_add`. -/
def next (s : State) (a : ProcessArg) (ntry : ℕ) : State :=
  if 0 < ntry-1 then { s with parent := .writing a (ntry-1) recordSize } else s.leave a 0

/-- The body of that loop after `writen_timedwait`. A success runs into the next pass. -/
def attempted (s : State) (a : ProcessArg) (ntry : ℕ) : Rv → State
  | .count _ => s.next a ntry
  | .error => s.leave a PP_ERROR
  | .timedout =>
    if s.pool.flags &&& PP_AUTO_ADD ≠ 0 then { s with parent := .growing 0 1 (.add a ntry) }
    else s.leave a PP_TIMEOUT

/-- The first `k` of the `cnt` bytes to go reach the socket. -/
def send (s : State) (a : ProcessArg) (cnt k : ℕ) : State :=
  let bytes := ((cells s.calls.length a).drop (recordSize-cnt)).take k
  { s with
    stream := s.stream++bytes
    sent := s.sent++bytes
    written := if k = cnt then s.written++[(s.calls.length,a)] else s.written }

/-- `pp_pool_process_addn` returns `rv` to its caller. -/
def addnReturn (s : State) (rv : ℤ) : Caller → State
  | .new => { s with parent := if rv = -1 then .exited else .idle }
  | .user => { s with parent := .idle }
  | .add a ntry => if rv = PP_ERROR then s.leave a PP_ERROR else s.next a ntry

/-- The parent's side of a successful `fork`, with the child at the start of its loop. -/
def fork (s : State) : State :=
  { s with
    pool := { s.pool with run_process := s.pool.run_process+1 }
    workers := s.workers++[some []] }

/-- `pp_pool_process_add_core` with the outcome of its `fork`, which is not called at the
limit; none when it returns -1. -/
def ppPoolProcessAddCore (s : State) (forked : Bool) : Option State :=
  if s.pool.run_process > s.pool.max_process then some s
  else if forked then some s.fork
  else none

/-- One pass of the loop of `pp_pool_process_addn`, or its end. -/
def ppPoolProcessAddn (s : State) (i n : ℤ) (caller : Caller) (forked : Bool) : State :=
  if i < n then
    match s.ppPoolProcessAddCore forked with
    | some t => { t with parent := .growing (i+1) n caller }
    | none => s.addnReturn (-1) caller
  else s.addnReturn 0 caller

/-- Worker `w` takes `k` bytes behind the `buf` it has read. -/
def receive (s : State) (w : ℕ) (buf : List Cell) (k : ℕ) : State :=
  { s with stream := s.stream.drop k,workers := s.workers.set w (some (buf++s.stream.take k)) }

/-- The record is complete: the worker acts on it and starts over. -/
def execute (s : State) (w : ℕ) (buf : List Cell) (k : ℕ) : State :=
  { s with
    stream := s.stream.drop k
    workers := s.workers.set w (some [])
    executed := s.executed++[buf++s.stream.take k] }

/-- The worker exits, with what it has read. -/
def exit (s : State) (w : ℕ) : State := { s with workers := s.workers.set w none }

end State

/-- What the pool's user calls, and how each system call turns out. -/
inductive Act
  | ppPoolAdd (padding : UInt32) (func arg : UInt64)
  | ppPoolProcessAddn (n : ℤ)
  | write (io : Io)
  | fork (forked : Bool)
  | read (w : ℕ) (io : Io)
  deriving DecidableEq

/-- Parent at `write`. -/
def writeStep (s : State) (io : Io) : Option State :=
  match s.parent with
  | .writing a ntry cnt =>
    (writenTimedwait recordSize cnt s.pool.ms io).map fun
      | .loop k => { s.send a cnt k with parent := .writing a ntry (cnt-k) }
      | .ret k rv => (s.send a cnt k).attempted a ntry rv
  | _ => none

/-- The loop of worker `w` at `read`. The worker itself holds the writing end of the
socket, so `read` never returns zero. -/
def readStep (s : State) (w : ℕ) (io : Io) : Option State :=
  match s.workers[w]? with
  | some (some buf) =>
    match readnTimedwait recordSize (recordSize-buf.length) (s.pool.ms*2) io with
    | some (.loop k) => if k ≤ s.stream.length then some (s.receive w buf k) else none
    | some (.ret k (.count _)) =>
      if 0 < k ∧ k ≤ s.stream.length then some (s.execute w buf k) else none
    | some (.ret _ _) => some (s.exit w)
    | none => none
  | _ => none

def exec : Act → State → Option State
  | .ppPoolAdd padding func arg, s =>
    if s.parent = .idle then
      some { s with parent := .writing ⟨0,padding,func,arg⟩ 2 recordSize }
    else none
  | .ppPoolProcessAddn n, s =>
    if s.parent = .idle then some { s with parent := .growing 0 n .user } else none
  | .write io, s => writeStep s io
  | .fork forked, s =>
    match s.parent with
    | .growing i n caller => some (s.ppPoolProcessAddn i n caller forked)
    | _ => none
  | .read w io, s => readStep s w io

namespace State

@[simp] theorem leave_pool (s : State) (a : ProcessArg) (result : ℤ) :
    (s.leave a result).pool = s.pool := rfl

@[simp] theorem next_pool (s : State) (a : ProcessArg) (ntry : ℕ) :
    (s.next a ntry).pool = s.pool := by
  unfold next
  split_ifs <;> rfl

@[simp] theorem attempted_pool (s : State) (a : ProcessArg) (ntry : ℕ) (rv : Rv) :
    (s.attempted a ntry rv).pool = s.pool := by
  cases rv with
  | count => exact s.next_pool a ntry
  | error => rfl
  | timedout =>
    unfold attempted
    split_ifs <;> rfl

@[simp] theorem addnReturn_pool (s : State) (rv : ℤ) (caller : Caller) :
    (s.addnReturn rv caller).pool = s.pool := by
  cases caller with
  | new => rfl
  | user => rfl
  | add a ntry =>
    by_cases hrv : rv = PP_ERROR
    · simp [addnReturn,hrv]
    · simp [addnReturn,hrv]

end State

theorem writeStep_pool {s t : State} {io : Io} (h : writeStep s io = some t) : t.pool = s.pool := by
  unfold writeStep at h
  split at h
  · obtain ⟨pass,_,rfl⟩ := Option.map_eq_some_iff.mp h
    cases pass with
    | loop k => rfl
    | ret k rv => simp [State.send]
  · cases h

/-- A worker leaves the pool and the parent's calls alone. -/
theorem readStep_frame {s t : State} {w : ℕ} {io : Io} (h : readStep s w io = some t) :
    t.pool = s.pool ∧ t.written = s.written ∧ t.calls = s.calls := by
  unfold readStep at h
  split at h
  · split at h
    · split_ifs at h
      cases h
      exact ⟨rfl,rfl,rfl⟩
    · split_ifs at h
      cases h
      exact ⟨rfl,rfl,rfl⟩
    · cases h
      exact ⟨rfl,rfl,rfl⟩
    · cases h
  · cases h

/-- The loop of `pp_pool_process_addn` has passes left. -/
def Parent.more : Parent → Bool
  | .growing i n _ => i < n
  | _ => false

/-- The action is a successful fork in that loop. -/
def Forks (a : Act) (s : State) : Prop :=
  a = .fork true ∧ s.parent.more ∧ s.pool.run_process ≤ s.pool.max_process

/-- Only a fork changes the pool, by counting the child. -/
theorem exec_pool {a : Act} {s t : State} (h : exec a s = some t) :
    (Forks a s ∧ t.pool = { s.pool with run_process := s.pool.run_process+1 }) ∨
      (¬Forks a s ∧ t.pool = s.pool) := by
  cases a with
  | ppPoolAdd padding func arg =>
    rw [exec] at h
    split_ifs at h
    cases h
    exact .inr ⟨(fun hf => nomatch hf.1),rfl⟩
  | ppPoolProcessAddn n =>
    rw [exec] at h
    split_ifs at h
    cases h
    exact .inr ⟨(fun hf => nomatch hf.1),rfl⟩
  | write io => exact .inr ⟨(fun hf => nomatch hf.1),writeStep_pool h⟩
  | read w io => exact .inr ⟨(fun hf => nomatch hf.1),(readStep_frame h).1⟩
  | fork forked =>
    cases hp : s.parent with
    | idle => simp [exec,hp] at h
    | exited => simp [exec,hp] at h
    | writing a ntry cnt => simp [exec,hp] at h
    | growing i n caller =>
      simp only [exec,hp,Option.some.injEq] at h
      subst h
      simp only [Forks,hp,Parent.more,State.ppPoolProcessAddn,State.ppPoolProcessAddCore]
      by_cases hi : i < n
      · by_cases hlimit : s.pool.run_process > s.pool.max_process
        · have hlt := not_le.mpr hlimit
          simp [hi,hlimit]
        · have hle := not_lt.mp hlimit
          cases forked <;> simp [hi,hlimit,hle,State.fork]
      · simp [hi]

/-- A fork finds room: `pp_pool_process_add_core` is not reached with `max_process`
children, or its `fork` fails. -/
def HasRoom (a : Act) (s : State) : Prop := Forks a s → s.pool.run_process ≠ s.pool.max_process

/-- Of the steps from a state within the bound, those without room leave the bound. -/
theorem exec_le_max_iff {a : Act} {s t : State} (h : exec a s = some t)
    (hs : s.pool.run_process ≤ s.pool.max_process) :
    t.pool.run_process ≤ t.pool.max_process ↔ HasRoom a s := by
  rcases exec_pool h with ⟨hf,hp⟩ | ⟨hf,hp⟩
  · simp only [hp,HasRoom,hf,true_implies]
    omega
  · simp only [hp,HasRoom,hf,false_implies,iff_true]
    exact hs

/-- One child more than `max_process` is the worst any run reaches. -/
theorem run_process_le_succ {pool : Pool} {n : ℤ} (h0 : pool.run_process ≤ pool.max_process+1)
    {s : State} (hs : Reach (.start pool n) (Via (fun _ _ => True) exec) s) :
    s.pool.run_process ≤ s.pool.max_process+1 := by
  apply hs.invariant (I := fun s => s.pool.run_process ≤ s.pool.max_process+1) h0
  rintro s t hs ⟨a,_,ha⟩
  rcases exec_pool ha with ⟨hf,hp⟩ | ⟨_,hp⟩
  · have hroom := hf.2.2
    simp only [hp]
    omega
  · simpa only [hp] using hs

theorem ppPoolArgsSetFrom_counts (pool : Pool) (i : ℕ) (ap : List Int32) :
    (ppPoolArgsSetFrom pool i ap).run_process = pool.run_process ∧
      (ppPoolArgsSetFrom pool i ap).max_process = pool.max_process := by
  induction pool,i,ap using ppPoolArgsSetFrom.induct <;> simp_all [ppPoolArgsSetFrom]

/-- What `pp_pool_new` leaves of the memory it got and the count it was given. -/
theorem ppPoolNew_counts {mem pool : Pool} {sys : Bool} {np n : ℤ} {ap : List Int32}
    (h : ppPoolNew mem sys np ap = some (pool,n)) :
    pool.run_process = mem.run_process ∧ pool.max_process = np ∧ 0 < np := by
  unfold ppPoolNew at h
  split_ifs at h with hnp
  obtain ⟨nprocess,_,hpool⟩ := Option.map_eq_some_iff.mp h
  cases hpool
  have hc := ppPoolArgsSetFrom_counts { mem with max_process := np,ms := 500 } 0 ap
  exact ⟨hc.1,hc.2,not_le.mp hnp⟩

/-- The bound on the children. -/
theorem run_process_le_max_process {mem pool : Pool} {sys : Bool} {np n : ℤ} {ap : List Int32}
    (h0 : mem.run_process = 0) (hnew : ppPoolNew mem sys np ap = some (pool,n)) {s : State}
    (hs : Reach (.start pool n) (Via HasRoom exec) s) :
    s.pool.run_process ≤ s.pool.max_process := by
  have hc := ppPoolNew_counts hnew
  have hstart : pool.run_process ≤ pool.max_process := by
    rw [hc.1,hc.2.1,h0]
    exact hc.2.2.le
  apply hs.invariant (I := fun s => s.pool.run_process ≤ s.pool.max_process) hstart
  rintro s t hs ⟨a,ha,hst⟩
  exact (exec_le_max_iff hst hs).mpr ha

/-- `pp_pool_new(1)`, and then `pp_pool_process_addn(pool,1)`. -/
def onePool : Pool := ⟨1,0,0,0,500⟩

def growOnce : List Act := [.fork true,.fork true]

def growTwice : List Act := [.fork true,.fork true,.ppPoolProcessAddn 1,.fork true]

theorem run_process_le_max_process_one :
    ∃ s, path (fun _ _ => True) exec growOnce (.start onePool 1) = some s ∧
      s.pool.run_process ≤ s.pool.max_process := by
  have hnew : ppPoolNew onePool true 1 [] = some (onePool,1) := by decide
  have hfirst : HasRoom (.fork true) (.start onePool 1) := fun _ => by decide
  have hlast : HasRoom (.fork true) ((State.start onePool 1).ppPoolProcessAddn 0 1 .new true) :=
    fun hf => absurd hf.2.1 (by decide)
  exact ⟨_,rfl,run_process_le_max_process rfl hnew (.next (.next .start ⟨_,hfirst,rfl⟩) ⟨_,hlast,rfl⟩)⟩

theorem run_process_exceeds_max_process :
    ¬∀ (mem pool : Pool) (sys : Bool) (np n : ℤ) (ap : List Int32), mem.run_process = 0 →
      ppPoolNew mem sys np ap = some (pool,n) →
        ∀ s, Reach (.start pool n) (Via (fun _ _ => True) exec) s →
          s.pool.run_process ≤ s.pool.max_process := by
  intro h
  have hrun := h onePool onePool true 1 1 [] rfl (by decide) _
    (.of_path (l := growTwice) .start rfl)
  exact absurd hrun (by decide)

end ProcessPool
end RecycleBin
