import RecycleBin.AeTime
import RecycleBin.Traced

/-! `ProcessEvents` of `ae.go`: the handlers one pass calls, against those it should call. -/
namespace RecycleBin
namespace Ae
open Traced

def BARRIER : Action := 4

/-- `Event`, an `int8`. -/
abbrev Event := BitVec 8

def FILE_EVENTS : Event := 1
def TIME_EVENTS : Event := 2
def DONT_WAIT : Event := 4
def CALL_BEFORE_SLEEP : Event := 8
def CALL_AFTER_SLEEP : Event := 16

/-- The mask is an `int`. -/
structure FiredEvent where
  fd : ℤ
  mask : BitVec 64

/-- A loop with the fields that `ProcessEvents` uses. -/
structure Loop (V S : Type) where
  m : Machine V S
  fired : List FiredEvent
  beforeSleep : Option V
  afterSleep : Option V
  flags : Event

variable {V S : Type}

/-- `el.events[fd]`; none is a panic. -/
def Loop.entry (p : Loop V S) (fd : ℤ) : Option (FileEvent V) :=
  if 0 ≤ fd then p.m.el.events[fd.toNat]? else none

/-- What the functions a loop holds do when they are called, and the clock. A function may
change the loop in every way; none is a panic. -/
structure Procs (V S : Type) where
  fileProc : V → Loop V S → ℤ → Option V → BitVec 64 → Option (Loop V S)
  timeProc : TimeProc V S
  sleepProc : V → Loop V S → Option (Loop V S)
  clock : ℕ → ℤ

/-- A call of a file event's function. -/
structure Served (V : Type) where
  proc : Option V
  fd : ℤ
  clientData : Option V
  mask : BitVec 64
  deriving DecidableEq

/-- `proc(el, fd, clientData, mask)`; a nil function panics. -/
def Procs.call (procs : Procs V S) (proc : Option V) (p : Loop V S) (fd : ℤ) (clientData : Option V)
    (mask : BitVec 64) : Run (Served V) (Loop V S) :=
  emit ⟨proc,fd,clientData,mask⟩ (proc.bind fun f => procs.fileProc f p fd clientData mask)

/-- `mask&bit > 0` for a registered and for a fired mask. -/
def due (bit : Action) (fe : FileEvent V) (mask : BitVec 64) : Prop :=
  (fe.mask &&& bit).toInt > 0 ∧ (mask &&& bit.setWidth 64).toInt > 0

instance (bit : Action) (fe : FileEvent V) (mask : BitVec 64) : Decidable (due bit fe mask) :=
  inferInstanceAs (Decidable (_ ∧ _))

section Code
variable [DecidableEq V] (procs : Procs V S)

/-- The read handler before the write handler. `fe` is a copy of the entry, read again after
the call. -/
def serveRead (invert : Bool) (fe : FileEvent V) (f : FiredEvent) (p : Loop V S) :
    Run (Served V) (Loop V S × FileEvent V × ℕ) :=
  if invert = false ∧ due READABLE fe f.mask then
    (procs.call fe.rfileProc p f.fd fe.clientData f.mask).bind fun p =>
      match p.entry f.fd with
      | none => halt
      | some fe => ret (p,fe,1)
  else ret (p,fe,0)

def serveWrite (fe : FileEvent V) (f : FiredEvent) (fired : ℕ) (p : Loop V S) :
    Run (Served V) (Loop V S × ℕ) :=
  if due WRITABLE fe f.mask then
    if fired = 0 ∨ fe.wfileProc ≠ fe.rfileProc then
      (procs.call fe.wfileProc p f.fd fe.clientData f.mask).bind fun p => ret (p,fired+1)
    else ret (p,fired)
  else ret (p,fired)

/-- The read event after the write handler. -/
def serveInverted (invert : Bool) (f : FiredEvent) (fired : ℕ) (p : Loop V S) :
    Run (Served V) (Loop V S) :=
  if invert then
    match p.entry f.fd with
    | none => halt
    | some fe =>
      if due READABLE fe f.mask ∧ (fired = 0 ∨ fe.wfileProc ≠ fe.rfileProc) then
        procs.call fe.wfileProc p f.fd fe.clientData f.mask
      else ret p
  else ret p

/-- The body of the loop over the fired events. -/
def serve (p : Loop V S) (f : FiredEvent) : Run (Served V) (Loop V S) :=
  match p.entry f.fd with
  | none => halt
  | some fe =>
    let invert := decide ((fe.mask &&& BARRIER).toInt > 0)
    (serveRead procs invert fe f p).bind fun (p,fe,fired) =>
      (serveWrite procs fe f fired p).bind fun (p,fired) => serveInverted procs invert f fired p

/-- The loop over the fired events from `j` on, with the number of those left. -/
def serveFrom : ℕ → ℕ → Loop V S → Run (Served V) (Loop V S)
  | 0, _, p => ret p
  | n+1, j, p =>
    match p.fired[j]? with
    | none => halt
    | some f => (serve procs p f).bind (serveFrom n (j+1))

/-- The timers of the list, in its order. -/
def timers (m : Machine V S) (head : List ℕ) : List (TimeEvent V) :=
  head.filterMap fun e => m.el.timeEvents[e]?

/-- The loop body of `usUntilEarliestTimer`. -/
def earlier (earliest : Option (TimeEvent V)) (et : TimeEvent V) : Option (TimeEvent V) :=
  match earliest with
  | none => some et
  | some te => if te.when < et.when then some et else some te

/-- `now.Sub(when)`, a duration of 64 bits that stops at its bounds. -/
def sub (now when : ℤ) : ℤ := max (-2^63) (min (2^63-1) (now-when))

/-- `usUntilEarliestTimer` with the machine it leaves; none is a panic. -/
def usUntilEarliestTimer (m : Machine V S) : Machine V S × Option (ℤ × Bool) :=
  match m.el.timeEventHead with
  | none => (m,some (0,false))
  | some head =>
    let earliest := (timers m head).foldl earlier none
    let now := procs.clock m.reads
    -- `earliest.when` of a nil `earliest` panics
    ({ m with reads := m.reads+1 },earliest.map fun te =>
      if now < te.when then (0,false) else (sub now te.when,true))

/-- The flags ask to wait for the timers. -/
def waits (flags : Event) : Prop :=
  (flags &&& TIME_EVENTS).toInt > 0 ∧ flags &&& DONT_WAIT = 0

instance (flags : Event) : Decidable (waits flags) := inferInstanceAs (Decidable (_ ∧ _))

/-- `tv`, with the loop after the timers were looked at. -/
def timeout (flags : Event) (p : Loop V S) : Loop V S × Option ℤ :=
  let r : Machine V S × Option ℤ :=
    if waits flags then ((usUntilEarliestTimer procs p.m).1,(usUntilEarliestTimer procs p.m).2.map Prod.fst)
    else (p.m,some 0)
  ({ p with m := r.1 },r.2.map fun tv =>
    let tv := if tv < 0 then (if (flags &&& DONT_WAIT).toInt > 0 then 0 else tv) else tv
    if (p.flags &&& DONT_WAIT).toInt > 0 then 0 else tv)

/-- `beforeSleep` and `afterSleep`, called if they are not nil and the flag asks for it. -/
def callSleep (proc : Option V) (flag flags : Event) (p : Loop V S) : Option (Loop V S) :=
  match proc with
  | none => some p
  | some f => if (flags &&& flag).toInt > 0 then procs.sleepProc f p else some p

/-- `apiPoll` of a backend that reports `reported`, however long it may wait. -/
def apiPoll (reported : List FiredEvent) (p : Loop V S) (_tv : ℤ) : Loop V S × ℕ :=
  ({ p with fired := reported++p.fired.drop reported.length },reported.length)

/-- The part of `ProcessEvents` before the loop over the fired events: the loop it goes over
and `numevents`. -/
def sleep (flags : Event) (reported : List FiredEvent) (p : Loop V S) (tv : ℤ) :
    Option (Loop V S × ℕ) :=
  (callSleep procs p.beforeSleep CALL_BEFORE_SLEEP flags p).bind fun p =>
    let r := apiPoll reported p tv
    (callSleep procs r.1.afterSleep CALL_AFTER_SLEEP flags r.1).map fun p => (p,r.2)

/-- `ProcessEvents`, with the calls it makes of the functions of file events. -/
def processEvents (flags : Event) (reported : List FiredEvent) (p : Loop V S) :
    Run (Served V) (Loop V S × ℕ) :=
  if ¬(flags &&& TIME_EVENTS).toInt > 0 ∨ ¬(flags &&& FILE_EVENTS).toInt > 0 then ret (p,0)
  else
    (if p.m.el.maxFd ≠ -1 ∨ waits flags then
      let (p,tv) := timeout procs flags p
      match tv.bind (sleep procs flags reported p) with
      | none => halt
      | some (p,numevents) => (serveFrom procs numevents 0 p).bind fun p => ret (p,numevents)
    else ret (p,0)).bind fun (p,processed) =>
    if (flags &&& TIME_EVENTS).toInt > 0 then
      match processTimeEvents procs.timeProc procs.clock p.m with
      | none => halt
      | some (m,visits) => ret ({ p with m := m },processed+visits.countP fun v => v.retVal.isSome)
    else ret (p,processed)

/-! What a pass should call. -/

inductive Side
  | read | write
  deriving DecidableEq

def Side.bit : Side → Action
  | .read => READABLE
  | .write => WRITABLE

def Side.proc (fe : FileEvent V) : Side → Option V
  | .read => fe.rfileProc
  | .write => fe.wfileProc

/-- A descriptor looked up outside the table, or a call of the handler of one side of an
entry. -/
inductive Look (V : Type)
  | missing
  | call (barrier : Bool) (side : Side) (fe : FileEvent V) (f : FiredEvent)

def Look.served : Look V → List (Served V)
  | .missing => []
  | .call _ side fe f => [⟨side.proc fe,f.fd,fe.clientData,f.mask⟩]

/-- One side of a fired event: its handler is called if its bit is both registered and fired,
unless the other side was called and both handlers are now one function. -/
def offer (barrier : Bool) (f : FiredEvent) (side : Side) (called : Bool) (p : Loop V S) :
    Run (Look V) (Bool × Loop V S) :=
  match p.entry f.fd with
  | none => emit .missing (some (called,p))
  | some fe =>
    if due side.bit fe f.mask ∧ ¬(called = true ∧ fe.wfileProc = fe.rfileProc) then
      emit (.call barrier side fe f) (((side.proc fe).bind fun h =>
        procs.fileProc h p f.fd fe.clientData f.mask).map fun p => (true,p))
    else ret (called,p)

/-- `BARRIER` is registered for the descriptor. -/
def Loop.barrier (p : Loop V S) (fd : ℤ) : Bool :=
  ((p.entry fd).map fun fe => decide ((fe.mask &&& BARRIER).toInt > 0)).getD false

/-- Read before write, or write before read behind a barrier. -/
def sides (barrier : Bool) : Side × Side :=
  if barrier then (.write,.read) else (.read,.write)

def dispatch (p : Loop V S) (f : FiredEvent) : Run (Look V) (Loop V S) :=
  let barrier := p.barrier f.fd
  (offer procs barrier f (sides barrier).1 false p).bind fun r =>
    (offer procs barrier f (sides barrier).2 r.1 r.2).bind fun r => ret r.2

def dispatchFrom : ℕ → ℕ → Loop V S → Run (Look V) (Loop V S)
  | 0, _, p => ret p
  | n+1, j, p =>
    match p.fired[j]? with
    | none => ret p
    | some f => (dispatch procs p f).bind (dispatchFrom n (j+1))

/-- What one pass should do for the events the backend reports, if it has something to wait
for. -/
def pass (flags : Event) (reported : List FiredEvent) (p : Loop V S) : List (Look V) :=
  if p.m.el.maxFd ≠ -1 ∨ waits flags then
    match sleep procs flags reported (timeout procs flags p).1 0 with
    | none => []
    | some (p,numevents) => (dispatchFrom procs numevents 0 p).1
  else []

/-- The calls of a pass. -/
def calls (log : List (Look V)) : List (Served V) := log.flatMap Look.served

/-- No call is still to come when a descriptor is looked up outside the table, and where the
read handler is called behind a barrier it is the write handler too. -/
def Straight : List (Look V) → Prop
  | [] => True
  | .missing::log => calls log = []
  | .call barrier side fe _::log =>
    (barrier = true → side = .read → fe.wfileProc = fe.rfileProc) ∧ Straight log

/-- The pass gets to the poll: it looks for timers, and not in an empty list of them. -/
structure Polls (flags : Event) (p : Loop V S) : Prop where
  time : (flags &&& TIME_EVENTS).toInt > 0
  timers : waits flags → ∀ head, p.m.el.timeEventHead = some head → timers p.m head ≠ []

end Code

@[simp] theorem calls_nil : calls ([] : List (Look V)) = [] := rfl

@[simp] theorem calls_call (barrier : Bool) (side : Side) (fe : FileEvent V) (f : FiredEvent)
    (log : List (Look V)) : calls (.call barrier side fe f::log) =
      ⟨side.proc fe,f.fd,fe.clientData,f.mask⟩::calls log := rfl

theorem straight_of_calls_nil {log : List (Look V)} (h : calls log = []) : Straight log := by
  cases log with
  | nil => trivial
  | cons look log =>
    cases look with
    | missing => exact h
    | call barrier side fe f => cases h

section Agreement
variable {α β : Type}

/-- The calls of a run of the code are those of the log exactly if the log is straight. -/
def Agree (c : Run (Served V) α) (s : Run (Look V) β) : Prop :=
  c.1 = calls s.1 ↔ Straight s.1

theorem Agree.ret (a : α) (b : β) : Agree (ret a : Run (Served V) α) (ret b) :=
  ⟨fun _ => trivial,fun _ => rfl⟩

/-- The code stops where the log has a descriptor outside the table. -/
theorem Agree.missing (b : β) {γ : Type} (s : β → Run (Look V) γ) :
    Agree (halt : Run (Served V) α) ((emit .missing (some b)).bind s) :=
  eq_comm

variable (procs : Procs V S)

/-- The same call on both sides, of a handler that is not misplaced. -/
theorem Agree.call {γ : Type} {barrier : Bool} (side : Side) {fe : FileEvent V} {f : FiredEvent}
    {p : Loop V S} {g : Loop V S → γ} {c : Loop V S → Run (Served V) α} {s : γ → Run (Look V) β}
    (hside : barrier = true → side = .read → fe.wfileProc = fe.rfileProc)
    (h : ∀ p, Agree (c p) (s (g p))) :
    Agree ((procs.call (side.proc fe) p f.fd fe.clientData f.mask).bind c)
      ((emit (.call barrier side fe f) (((side.proc fe).bind fun h =>
        procs.fileProc h p f.fd fe.clientData f.mask).map g)).bind s) := by
  rw [Procs.call]
  cases (side.proc fe).bind fun h => procs.fileProc h p f.fd fe.clientData f.mask with
  | none =>
    rw [Option.map_none,emit_none_bind,emit_none_bind]
    exact ⟨fun _ => ⟨hside,trivial⟩,fun _ => rfl⟩
  | some p' =>
    rw [Option.map_some,emit_some_bind,emit_some_bind]
    have hp : (c p').1 = calls (s (g p')).1 ↔ Straight (s (g p')).1 := h p'
    rw [Agree,calls_call,List.cons_inj_right,hp]
    exact ⟨fun hs => ⟨hside,hs⟩,And.right⟩

/-- A read handler that is due behind a barrier, with the write handler called for it. -/
theorem Agree.misplaced {γ : Type} {fe : FileEvent V} {f : FiredEvent} {p : Loop V S}
    {c : Loop V S → Run (Served V) α} {r : Option γ} {s : γ → Run (Look V) β}
    (hne : fe.wfileProc ≠ fe.rfileProc) :
    Agree ((procs.call fe.wfileProc p f.fd fe.clientData f.mask).bind c)
      ((emit (.call true .read fe f) r).bind s) := by
  have hstraight : ∀ log : List (Look V), ¬Straight (.call true .read fe f::log) := by
    intro log h
    exact hne (h.1 rfl rfl)
  have hhead : ∀ log : List (Look V), ∀ d : Served V, d.proc = fe.wfileProc → ∀ ds,
      d::ds ≠ calls (.call true .read fe f::log) := by
    intro log d hd ds h
    rw [calls_call,List.cons_eq_cons] at h
    rw [h.1] at hd
    exact hne hd.symm
  rw [Procs.call]
  cases fe.wfileProc.bind fun h => procs.fileProc h p f.fd fe.clientData f.mask <;> cases r <;>
    exact iff_of_false (hhead _ _ rfl _) (hstraight _)

theorem fired_or_iff {fired : ℕ} {called : Bool} {u v : Option V}
    (hfired : fired = 0 ↔ called = false) : (fired = 0 ∨ u ≠ v) ↔ ¬(called = true ∧ u = v) := by
  rw [hfired,not_and_or,Bool.not_eq_true]

variable [DecidableEq V]

/-- The write handler, `fired` counting the read handler. -/
theorem Agree.serveWrite {fe : FileEvent V} {f : FiredEvent} {p : Loop V S} {barrier called : Bool}
    {fired : ℕ} {c : Loop V S × ℕ → Run (Served V) α} {s : Bool × Loop V S → Run (Look V) β}
    (he : p.entry f.fd = some fe) (hfired : fired = 0 ↔ called = false)
    (h : ∀ p fired called, (fired = 0 ↔ called = false) → Agree (c (p,fired)) (s (called,p))) :
    Agree ((serveWrite procs fe f fired p).bind c) ((offer procs barrier f .write called p).bind s) := by
  rw [Ae.serveWrite,offer,he]
  dsimp only
  simp only [fired_or_iff hfired]
  by_cases hdue : due WRITABLE fe f.mask
  · by_cases hsame : called = true ∧ fe.wfileProc = fe.rfileProc
    · rw [if_pos hdue,if_neg (not_not.mpr hsame),if_neg fun hs => hs.2 hsame]
      exact h p fired called hfired
    · rw [if_pos hdue,if_pos hsame,if_pos ⟨hdue,hsame⟩,bind_bind]
      refine Agree.call procs .write (fun _ hs => by cases hs) fun p' => ?_
      exact h p' (fired+1) true (by simp)
  · rw [if_neg hdue,if_neg fun hs => hdue hs.1]
    exact h p fired called hfired

/-- The read event behind a barrier. -/
theorem Agree.serveInverted {f : FiredEvent} {p : Loop V S} {called : Bool} {fired : ℕ}
    {c : Loop V S → Run (Served V) α} {s : Bool × Loop V S → Run (Look V) β}
    (hfired : fired = 0 ↔ called = false) (h : ∀ p called, Agree (c p) (s (called,p))) :
    Agree ((serveInverted procs true f fired p).bind c)
      ((offer procs true f .read called p).bind s) := by
  rw [Ae.serveInverted,if_pos rfl,offer]
  cases he : p.entry f.fd with
  | none => exact .missing _ _
  | some fe =>
    dsimp only
    simp only [fired_or_iff hfired]
    by_cases hcall : due READABLE fe f.mask ∧ ¬(called = true ∧ fe.wfileProc = fe.rfileProc)
    · rw [if_pos hcall,if_pos ⟨hcall.1,hcall.2⟩]
      -- the call is of `wfileProc`, whatever the read handler is
      by_cases hw : fe.wfileProc = fe.rfileProc
      · rw [hw]
        exact Agree.call procs .read (fun _ _ => hw) fun p' => h p' true
      · exact Agree.misplaced procs hw
    · rw [if_neg hcall,if_neg fun hs => hcall ⟨hs.1,hs.2⟩]
      exact h p called

/-- One turn of the loop. -/
theorem Agree.serve {f : FiredEvent} {c : Loop V S → Run (Served V) α}
    {s : Loop V S → Run (Look V) β} (h : ∀ p, Agree (c p) (s p)) (p : Loop V S) :
    Agree ((serve procs p f).bind c) ((dispatch procs p f).bind s) := by
  rw [Ae.serve,dispatch]
  dsimp only
  cases he : p.entry f.fd with
  | none =>
    rw [halt_bind,offer,he,bind_bind]
    exact .missing _ _
  | some fe =>
    have hb : p.barrier f.fd = decide ((fe.mask &&& BARRIER).toInt > 0) := by
      rw [Loop.barrier,he,Option.map_some,Option.getD_some]
    dsimp only
    rw [← hb,bind_bind,bind_bind]
    cases p.barrier f.fd with
    | true =>
      rw [serveRead,if_neg fun hs => (by cases hs.1),ret_bind,bind_bind]
      refine Agree.serveWrite procs he ⟨fun _ => rfl,fun _ => rfl⟩ fun p fired called hfired => ?_
      rw [bind_bind]
      exact Agree.serveInverted procs hfired fun p _ => h p
    | false =>
      have hwrite : ∀ {fe : FileEvent V} {p : Loop V S} {fired : ℕ} {called : Bool},
          p.entry f.fd = some fe → (fired = 0 ↔ called = false) →
          Agree (((Ae.serveWrite procs fe f fired p).bind fun r =>
              Ae.serveInverted procs false f r.2 r.1).bind c)
            (((offer procs false f .write called p).bind fun r => Traced.ret r.2).bind s) := by
        intro fe p fired called he hfired
        rw [bind_bind,bind_bind]
        exact Agree.serveWrite procs he hfired fun p _ _ _ => h p
      rw [serveRead,sides,if_neg Bool.false_ne_true]
      by_cases hread : due READABLE fe f.mask
      · rw [if_pos ⟨rfl,hread⟩,bind_bind,offer,he]
        dsimp only
        rw [if_pos ⟨hread,fun hs => by cases hs.1⟩]
        refine Agree.call procs .read (fun hb => by cases hb) fun p' => ?_
        cases he' : p'.entry f.fd with
        | none =>
          rw [halt_bind,offer,he',bind_bind]
          exact .missing _ _
        | some fe' => exact hwrite he' (by simp)
      · rw [if_neg fun hs => hread hs.2,ret_bind,offer,he]
        dsimp only
        rw [if_neg fun hs => hread hs.1,ret_bind]
        exact hwrite he ⟨fun _ => rfl,fun _ => rfl⟩

/-- The loop over the fired events, by the turns. -/
theorem Agree.serveFrom (n j : ℕ) (p : Loop V S) :
    Agree (serveFrom procs n j p) (dispatchFrom procs n j p) := by
  induction n generalizing j p with
  | zero => exact .ret p p
  | succ n ih =>
    rw [Ae.serveFrom,dispatchFrom]
    cases p.fired[j]? with
    | none => exact ⟨fun _ => trivial,fun _ => rfl⟩
    | some f => exact Agree.serve procs (ih (j+1)) p

end Agreement

section Steady
variable [DecidableEq V] {procs : Procs V S} {f : FiredEvent} {fe : FileEvent V}

/-- A side of an entry whose handlers return and leave the entry as it is. -/
theorem offer_steady {p : Loop V S} (barrier called : Bool) {side : Side}
    (hproc : ∀ h clientData p, ∃ p', procs.fileProc h p f.fd clientData f.mask = some p' ∧
      p'.entry f.fd = p.entry f.fd)
    (he : p.entry f.fd = some fe) (hnil : side.proc fe ≠ none) :
    ∃ p', p'.entry f.fd = some fe ∧ offer procs barrier f side called p =
      if due side.bit fe f.mask ∧ ¬(called = true ∧ fe.wfileProc = fe.rfileProc) then
        emit (.call barrier side fe f) (some (true,p'))
      else ret (called,p) := by
  obtain ⟨h,hh⟩ := Option.ne_none_iff_exists'.mp hnil
  obtain ⟨p',hp',he'⟩ := hproc h fe.clientData p
  refine ⟨p',he'.trans he,?_⟩
  rw [offer,he]
  dsimp only
  rw [hh,Option.bind_some,hp',Option.map_some]

/-- Where the handlers return and leave the entry alone, a fired event should call those whose
bit is registered and fired, in the order of the barrier, and one of them if they are one
function. -/
theorem calls_dispatch {p : Loop V S}
    (hproc : ∀ h clientData p, ∃ p', procs.fileProc h p f.fd clientData f.mask = some p' ∧
      p'.entry f.fd = p.entry f.fd)
    (he : p.entry f.fd = some fe) (hnil : ∀ side, Side.proc fe side ≠ none) :
    calls (dispatch procs p f).1 =
      ((([(sides (p.barrier f.fd)).1,(sides (p.barrier f.fd)).2].filter
          fun side => due side.bit fe f.mask).take
          (if fe.wfileProc = fe.rfileProc then 1 else 2)).map fun side =>
        ⟨side.proc fe,f.fd,fe.clientData,f.mask⟩) := by
  obtain ⟨first,second,hsides⟩ : ∃ first second, sides (p.barrier f.fd) = (first,second) := ⟨_,_,rfl⟩
  rw [dispatch,hsides]
  obtain ⟨p₁,he₁,h₁⟩ := offer_steady (p.barrier f.fd) false hproc he (hnil first)
  dsimp only
  rw [h₁]
  by_cases hfirst : due first.bit fe f.mask
  · obtain ⟨p₂,-,h₂⟩ := offer_steady (p.barrier f.fd) true hproc he₁ (hnil second)
    rw [if_pos ⟨hfirst,fun hs => by cases hs.1⟩,emit_some_bind,h₂]
    by_cases hsecond : due second.bit fe f.mask <;> by_cases hsame : fe.wfileProc = fe.rfileProc <;>
      simp [hfirst,hsecond,hsame]
  · obtain ⟨p₂,-,h₂⟩ := offer_steady (p.barrier f.fd) false hproc he (hnil second)
    rw [if_neg fun hs => hfirst hs.1,ret_bind,h₂]
    by_cases hsecond : due second.bit fe f.mask <;> by_cases hsame : fe.wfileProc = fe.rfileProc <;>
      simp [hfirst,hsecond,hsame]

end Steady

section Pass
variable (procs : Procs V S) {flags : Event} {reported : List FiredEvent} {p : Loop V S}

/-- The timer the loop ends with is the latest one. -/
theorem foldl_earlier_some (te : TimeEvent V) (l : List (TimeEvent V)) :
    ∃ te', l.foldl earlier (some te) = some te' ∧ te' ∈ te::l ∧
      ∀ x ∈ te::l, x.when ≤ te'.when := by
  induction l generalizing te with
  | nil => exact ⟨te,rfl,List.mem_singleton_self te,by simp⟩
  | cons et l ih =>
    rw [List.foldl_cons,earlier]
    split
    · rename_i hlt
      obtain ⟨te',hfold,hmem,hmax⟩ := ih et
      refine ⟨te',hfold,List.mem_cons_of_mem te hmem,fun x hx => ?_⟩
      rcases List.mem_cons.mp hx with rfl | hx
      · exact hlt.le.trans (hmax et List.mem_cons_self)
      · exact hmax x hx
    · rename_i hle
      obtain ⟨te',hfold,hmem,hmax⟩ := ih te
      have hte := hmax te List.mem_cons_self
      refine ⟨te',hfold,?_,fun x hx => ?_⟩
      · rcases List.mem_cons.mp hmem with rfl | hmem
        · exact List.mem_cons_self
        · exact List.mem_cons_of_mem _ (List.mem_cons_of_mem et hmem)
      · rcases List.mem_cons.mp hx with rfl | hx
        · exact hte
        · rcases List.mem_cons.mp hx with rfl | hx
          · exact (not_lt.mp hle).trans hte
          · exact hmax x (List.mem_cons_of_mem te hx)

/-- `usUntilEarliestTimer` panics on an empty list of timers, and on no other. -/
theorem usUntilEarliestTimer_eq_none_iff (m : Machine V S) :
    (usUntilEarliestTimer procs m).2 = none ↔
      ∃ head, m.el.timeEventHead = some head ∧ timers m head = [] := by
  rw [usUntilEarliestTimer]
  cases m.el.timeEventHead with
  | none => simp
  | some head =>
    cases hl : timers m head with
    | nil => simp [hl]
    | cons te l =>
      obtain ⟨te',hte,-⟩ := foldl_earlier_some te l
      have hfold : List.foldl earlier none (te::l) = some te' := hte
      simp [hfold,hl]

theorem timeout_eq_none_iff :
    (timeout procs flags p).2 = none ↔
      waits flags ∧ ∃ head, p.m.el.timeEventHead = some head ∧ timers p.m head = [] := by
  rw [timeout,Option.map_eq_none_iff]
  split
  · rename_i hwaits
    rw [Option.map_eq_none_iff,usUntilEarliestTimer_eq_none_iff]
    exact ⟨fun h => ⟨hwaits,h⟩,And.right⟩
  · rename_i hwaits
    simp [hwaits]

variable [DecidableEq V]

/-- The calls are made before the timers are processed. -/
theorem processEvents_fst (htime : (flags &&& TIME_EVENTS).toInt > 0)
    (hfile : (flags &&& FILE_EVENTS).toInt > 0) :
    (processEvents procs flags reported p).1 =
      if p.m.el.maxFd ≠ -1 ∨ waits flags then
        ((timeout procs flags p).2.bind (sleep procs flags reported (timeout procs flags p).1)).elim []
          fun r => (serveFrom procs r.2 0 r.1).1
      else [] := by
  rw [processEvents,if_neg (not_or.mpr ⟨not_not.mpr htime,not_not.mpr hfile⟩),bind_nil_fst]
  · split
    · dsimp only
      cases (timeout procs flags p).2.bind
          (sleep procs flags reported (timeout procs flags p).1) with
      | none => rfl
      | some r => exact bind_nil_fst _ _ fun _ => rfl
    · rfl
  · intro r
    dsimp only
    rw [if_pos htime]
    cases processTimeEvents procs.timeProc procs.clock r.1.m <;> rfl

theorem agree_of_polls (h : Polls flags p) (hfile : (flags &&& FILE_EVENTS).toInt > 0) :
    (processEvents procs flags reported p).1 = calls (pass procs flags reported p) ↔
      Straight (pass procs flags reported p) := by
  have htv : (timeout procs flags p).2 ≠ none := by
    rw [Ne,timeout_eq_none_iff]
    rintro ⟨hwaits,head,hhead,hnil⟩
    exact h.timers hwaits head hhead hnil
  obtain ⟨tv,htv⟩ := Option.ne_none_iff_exists'.mp htv
  rw [processEvents_fst procs h.time hfile,pass,htv,Option.bind_some]
  split
  · have hsleep : sleep procs flags reported (timeout procs flags p).1 tv =
        sleep procs flags reported (timeout procs flags p).1 0 := rfl
    rw [hsleep]
    cases sleep procs flags reported (timeout procs flags p).1 0 with
    | none => exact ⟨fun _ => trivial,fun _ => rfl⟩
    | some r => exact Agree.serveFrom procs r.2 0 r.1
  · exact ⟨fun _ => trivial,fun _ => rfl⟩

theorem no_calls_of_not_polls (h : ¬Polls flags p) :
    (processEvents procs flags reported p).1 = [] := by
  by_cases hflags : (flags &&& TIME_EVENTS).toInt > 0 ∧ (flags &&& FILE_EVENTS).toInt > 0
  · obtain ⟨htime,hfile⟩ := hflags
    have htv : (timeout procs flags p).2 = none := by
      rw [timeout_eq_none_iff]
      by_contra hn
      exact h ⟨htime,fun hwaits head hhead hnil => hn ⟨hwaits,head,hhead,hnil⟩⟩
    rw [processEvents_fst procs htime hfile,htv]
    split <;> rfl
  · rw [processEvents,if_pos (not_and_or.mp hflags)]
    rfl

/-- A pass for file events makes the calls it should exactly if there are none to make, or it
gets to the poll and what it should do is straight. -/
theorem processEvents_calls_iff (procs : Procs V S) (flags : Event) (reported : List FiredEvent)
    (p : Loop V S) (hfile : (flags &&& FILE_EVENTS).toInt > 0) :
    (processEvents procs flags reported p).1 = calls (pass procs flags reported p) ↔
      calls (pass procs flags reported p) = [] ∨
        Polls flags p ∧ Straight (pass procs flags reported p) := by
  by_cases hpolls : Polls flags p
  · rw [agree_of_polls procs hpolls hfile]
    constructor
    · intro h
      exact .inr ⟨hpolls,h⟩
    · rintro (h | ⟨-,h⟩)
      · exact straight_of_calls_nil h
      · exact h
  · rw [no_calls_of_not_polls procs hpolls]
    constructor
    · intro h
      exact .inl h.symm
    · rintro (h | ⟨h,-⟩)
      · exact h.symm
      · exact absurd h hpolls

/-- A loop whose one descriptor has the handler 0 for reading and the handler 1 for writing. -/
def oneEntry (mask : Action) : Loop ℕ Unit where
  m := {
    el := {
      maxFd := 0
      setSize := 1
      timeEventNextId := 1
      events := #v[⟨mask,some 1,some 0,none⟩]
      timeEventHead := some [0]
      timeEvents := [⟨0,10,0,0,0,0⟩]
      apidata := ()
      maxFd_lt := by decide }
    reads := 0 }
  fired := []
  beforeSleep := none
  afterSleep := none
  flags := 0

/-- Handlers and callbacks that leave the loop alone. -/
def idle : Procs ℕ Unit where
  fileProc _ p _ _ _ := some p
  timeProc _ m _ _ := some (m,0,NOMORE)
  sleepProc _ p := some p
  clock _ := 0

theorem processEvents_calls_iff_readWrite :
    ((FILE_EVENTS ||| TIME_EVENTS) &&& FILE_EVENTS).toInt > 0 ∧
      (processEvents idle (FILE_EVENTS ||| TIME_EVENTS) [⟨0,3⟩] (oneEntry (READABLE ||| WRITABLE))).1 =
        calls (pass idle (FILE_EVENTS ||| TIME_EVENTS) [⟨0,3⟩] (oneEntry (READABLE ||| WRITABLE))) := by
  have hfile : ((FILE_EVENTS ||| TIME_EVENTS) &&& FILE_EVENTS).toInt > 0 := by decide
  refine ⟨hfile,(processEvents_calls_iff idle _ _ _ hfile).mpr (.inr ⟨⟨by decide,?_⟩,?_⟩)⟩
  · rintro - head hhead
    cases hhead
    exact List.cons_ne_nil _ _
  · have hlog : pass idle (FILE_EVENTS ||| TIME_EVENTS) [⟨0,3⟩] (oneEntry (READABLE ||| WRITABLE)) =
        [.call false .read ⟨3,some 1,some 0,none⟩ ⟨0,3⟩,.call false .write ⟨3,some 1,some 0,none⟩ ⟨0,3⟩] :=
      rfl
    rw [hlog]
    exact ⟨fun h => (by cases h),fun h => (by cases h),trivial⟩

/-- Behind a barrier the write handler is called for the read event as well. -/
theorem processEvents_calls_barrier :
    (processEvents idle (FILE_EVENTS ||| TIME_EVENTS) [⟨0,3⟩]
        (oneEntry (READABLE ||| WRITABLE ||| BARRIER))).1 ≠
      calls (pass idle (FILE_EVENTS ||| TIME_EVENTS) [⟨0,3⟩]
        (oneEntry (READABLE ||| WRITABLE ||| BARRIER))) := by
  decide

end Pass
end Ae
end RecycleBin
