import Mathlib.Tactic

/-! The event loop of `ae.go`: its data and its table of file events. The values a loop
only stores or calls, and the poll backend, are parameters. -/
namespace RecycleBin
namespace Ae

/-- `Action`, an `int8`. -/
abbrev Action := BitVec 8

def NONE : Action := 0
def READABLE : Action := 1
def WRITABLE : Action := 2

/-- `FileEvent`, a nil function or interface being none. -/
structure FileEvent (V : Type) where
  mask : Action
  wfileProc : Option V
  rfileProc : Option V
  clientData : Option V

structure TimeEvent (V : Type) where
  id : ℤ
  when : ℤ
  timeProc : V
  finalizerProc : V
  clientData : V
  refcount : ℤ

/-- `EventLoop` without the fields of `ProcessEvents` and `Main`. The elements of
`timeEventHead` are positions in `timeEvents`, the timers allocated so far; a nil list is
none. -/
structure EventLoop (V S : Type) where
  maxFd : ℤ
  setSize : ℕ
  timeEventNextId : ℤ
  events : Vector (FileEvent V) setSize
  timeEventHead : Option (List ℕ)
  timeEvents : List (TimeEvent V)
  apidata : S
  maxFd_lt : maxFd < setSize

/-- The poll backend. Both functions read the mask the table has for the descriptor. -/
structure Backend (S ε : Type) where
  apiAddEvent : S → Action → ℕ → Action → Except ε S
  apiDelEvent : S → Action → ℕ → Action → S

/-- `unix.EpollCtl` on the events of the descriptors watched. -/
inductive EpollOp
  | add | mod | del

inductive Errno
  | EEXIST | ENOENT

def EPOLLIN : BitVec 32 := 1
def EPOLLOUT : BitVec 32 := 4

def epollCtl (watched : List (ℕ × BitVec 32)) (op : EpollOp) (fd : ℕ) (events : BitVec 32) :
    Except Errno (List (ℕ × BitVec 32)) :=
  let others := watched.filter fun e => e.1 ≠ fd
  if fd ∈ watched.map Prod.fst then
    match op with
    | .add => .error .EEXIST
    | .mod => .ok ((fd,events)::others)
    | .del => .ok others
  else
    match op with
    | .add => .ok ((fd,events)::watched)
    | .mod => .error .ENOENT
    | .del => .error .ENOENT

/-- `ee.Events` for a mask. -/
def epollEvents (mask : Action) : BitVec 32 :=
  (if (mask &&& READABLE).toInt > 0 then EPOLLIN else 0) |||
    (if (mask &&& WRITABLE).toInt > 0 then EPOLLOUT else 0)

/-- The backend of `ae_epoll.go`. -/
def epoll : Backend (List (ℕ × BitVec 32)) Errno where
  apiAddEvent watched old fd mask :=
    epollCtl watched (if old = NONE then .add else .mod) fd (epollEvents (mask ||| old))
  apiDelEvent watched old fd delmask :=
    let mask := old &&& ~~~delmask
    match epollCtl watched (if mask ≠ NONE then .mod else .del) fd (epollEvents mask) with
    | .ok watched => watched
    | .error _ => watched

/-- The error of `CreateFileEvent`: its own text, or the backend's error. -/
inductive Failure (ε : Type)
  | text (s : String)
  | api (err : ε)

variable {V S ε : Type}

def FileEvent.zero : FileEvent V where
  mask := NONE
  wfileProc := none
  rfileProc := none
  clientData := none

def create (setSize : ℕ) (apidata : S) : EventLoop V S where
  maxFd := -1
  setSize := setSize
  timeEventNextId := 0
  events := .replicate setSize .zero
  timeEventHead := none
  timeEvents := []
  apidata := apidata
  maxFd_lt := by omega

def createFileEvent (api : Backend S ε) (el : EventLoop V S) (fd : ℕ) (mask : Action)
    (proc clientData : V) : Except (Failure ε) (EventLoop V S) :=
  if h : fd < el.setSize then
    let fe := el.events[fd]
    match api.apiAddEvent el.apidata fe.mask fd mask with
    | .error err => .error (.api err)
    | .ok apidata => .ok { el with
        apidata := apidata
        events := el.events.set fd {
          mask := fe.mask ||| mask
          rfileProc := if (mask &&& READABLE).toInt > 0 then some proc else fe.rfileProc
          wfileProc := if (mask &&& WRITABLE).toInt > 0 then some proc else fe.wfileProc
          clientData := some clientData }
        maxFd := if fd > el.maxFd then fd else el.maxFd
        maxFd_lt := by
          have := el.maxFd_lt
          split <;> omega }
  else .error (.text "create file event fail")

/-- The loop of `DeleteFileEvent` from `j-1` down. -/
def lastEvent {n : ℕ} (events : Vector (FileEvent V) n) : (j : ℕ) → j ≤ n → ℤ
  | 0, _ => -1
  | j+1, h => if events[j].mask ≠ NONE then j else lastEvent events j (by omega)

theorem lastEvent_lt {n : ℕ} (events : Vector (FileEvent V) n) (j : ℕ) (h : j ≤ n) :
    lastEvent events j h < j := by
  induction j with
  | zero => simp [lastEvent]
  | succ j ih =>
    rw [lastEvent]
    split
    · omega
    · have := ih (by omega)
      omega

theorem lastEvent_none {n : ℕ} (events : Vector (FileEvent V) n) (j : ℕ) (h : j ≤ n) (k : ℕ)
    (hk : lastEvent events j h < k) (hkj : k < j) : events[k].mask = NONE := by
  induction j with
  | zero => omega
  | succ j ih =>
    rw [lastEvent] at hk
    split at hk
    · omega
    · rename_i hj
      rcases Nat.lt_succ_iff_lt_or_eq.mp hkj with hlt | rfl
      · exact ih (by omega) hk hlt
      · exact not_not.mp hj

theorem lastEvent_some {n : ℕ} (events : Vector (FileEvent V) n) (j : ℕ) (h : j ≤ n) (k : ℕ)
    (hk : k < n) (he : lastEvent events j h = k) : events[k].mask ≠ NONE := by
  induction j with
  | zero => simp [lastEvent] at he
  | succ j ih =>
    rw [lastEvent] at he
    split at he
    · rename_i hj
      obtain rfl : j = k := by omega
      exact hj
    · exact ih (by omega) he

theorem neg_one_le_lastEvent {n : ℕ} (events : Vector (FileEvent V) n) (j : ℕ) (h : j ≤ n) :
    -1 ≤ lastEvent events j h := by
  induction j with
  | zero => simp [lastEvent]
  | succ j ih =>
    rw [lastEvent]
    split
    · omega
    · exact ih (by omega)

def deleteFileEvent (api : Backend S ε) (el : EventLoop V S) (fd : ℕ) (mask : Action) :
    EventLoop V S :=
  if h : fd < el.setSize then
    -- `fe := el.events[fd]` is a copy: what is written to it below stays out of the table
    let fe := el.events[fd]
    if fe.mask = NONE then el
    else
      let el' := { el with apidata := api.apiDelEvent el.apidata fe.mask fd mask }
      let fe := { fe with mask := fe.mask &&& ~~~mask }
      if fd = el.maxFd ∧ fe.mask = NONE then
        { el' with
          maxFd := lastEvent el.events fd h.le
          maxFd_lt := by
            have := lastEvent_lt el.events fd h.le
            show _ < (el.setSize : ℤ)
            omega }
      else el'
  else el

def getFileEvents (el : EventLoop V S) (fd : ℕ) : Action :=
  if h : fd < el.setSize then el.events[fd].mask else 0

/-- A successful `CreateFileEvent` is within the table and writes one entry and `maxFd`. -/
theorem createFileEvent_ok {api : Backend S ε} {el el' : EventLoop V S} {fd : ℕ} {mask : Action}
    {proc clientData : V} (h : createFileEvent api el fd mask proc clientData = .ok el') :
    fd < el.setSize ∧ el'.setSize = el.setSize ∧ el'.maxFd = max (fd : ℤ) el.maxFd ∧
      ∀ fd', getFileEvents el' fd' =
        if fd = fd' then getFileEvents el fd' ||| mask else getFileEvents el fd' := by
  rw [createFileEvent] at h
  split at h
  · rename_i hfd
    cases hadd : api.apiAddEvent el.apidata el.events[fd].mask fd mask with
    | error err => simp [hadd] at h
    | ok apidata =>
      simp only [hadd,Except.ok.injEq] at h
      subst h
      refine ⟨hfd,rfl,?_,fun fd' => ?_⟩
      · show (if (fd : ℤ) > el.maxFd then (fd : ℤ) else el.maxFd) = _
        split <;> omega
      · simp only [getFileEvents]
        by_cases hfd' : fd' < el.setSize
        · simp only [hfd',dif_pos,Vector.getElem_set hfd hfd']
          split
          · rename_i he
            subst he
            rfl
          · rfl
        · simp only [hfd',dif_neg,not_false_eq_true]
          rw [if_neg (by omega)]
  · cases h

/-- `DeleteFileEvent` keeps the table; it keeps `maxFd` too or looks for the last entry
below. -/
theorem deleteFileEvent_cases (api : Backend S ε) (el : EventLoop V S) (fd : ℕ) (mask : Action) :
    (deleteFileEvent api el fd mask).setSize = el.setSize ∧
    (∀ fd', getFileEvents (deleteFileEvent api el fd mask) fd' = getFileEvents el fd') ∧
    ((deleteFileEvent api el fd mask).maxFd = el.maxFd ∧
        ((fd : ℤ) = el.maxFd → getFileEvents el fd ≠ NONE →
          getFileEvents el fd &&& ~~~mask ≠ NONE) ∨
      (fd : ℤ) = el.maxFd ∧ getFileEvents el fd ≠ NONE ∧ getFileEvents el fd &&& ~~~mask = NONE ∧
        ∃ h, (deleteFileEvent api el fd mask).maxFd = lastEvent el.events fd h) := by
  rw [deleteFileEvent]
  split
  · rename_i hfd
    have hget : getFileEvents el fd = el.events[fd].mask := by rw [getFileEvents,dif_pos hfd]
    simp only [hget]
    split
    · rename_i hnone
      exact ⟨rfl,fun _ => rfl,.inl ⟨rfl,fun _ h => absurd hnone h⟩⟩
    · rename_i hsome
      split
      · rename_i hmax
        exact ⟨rfl,fun _ => rfl,.inr ⟨hmax.1,hsome,hmax.2,hfd.le,rfl⟩⟩
      · rename_i hmax
        exact ⟨rfl,fun _ => rfl,.inl ⟨rfl,fun he _ hn => hmax ⟨he,hn⟩⟩⟩
  · rename_i hfd
    refine ⟨rfl,fun _ => rfl,.inl ⟨rfl,fun _ h => absurd ?_ h⟩⟩
    rw [getFileEvents,dif_neg hfd]
    rfl

/-- A call on the table. -/
inductive FileCall (V : Type)
  | create (fd : ℕ) (mask : Action) (proc clientData : V)
  | delete (fd : ℕ) (mask : Action)

def FileCall.exec (api : Backend S ε) (el : EventLoop V S) :
    FileCall V → Except (Failure ε) (EventLoop V S)
  | .create fd mask proc clientData => createFileEvent api el fd mask proc clientData
  | .delete fd mask => .ok (deleteFileEvent api el fd mask)

/-- The calls in order, up to the first that fails. -/
def runFiles (api : Backend S ε) (el : EventLoop V S) (calls : List (FileCall V)) :
    Except (Failure ε) (EventLoop V S) :=
  calls.foldlM (FileCall.exec api) el

end Ae
end RecycleBin
