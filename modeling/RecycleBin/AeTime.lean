import RecycleBin.AeLoop

/-! The timers of the event loop. `timeProc` says what a callback does to the loop and
returns, `clock` what `time.Now` answers at each reading; none is a panic. -/
namespace RecycleBin
namespace Ae

def NOMORE : ℤ := -1
def DELETED_EVENT_ID : ℤ := -1

/-- A loop, with the number of clock readings so far. -/
structure Machine (V S : Type) where
  el : EventLoop V S
  reads : ℕ

/-- What a callback does when it is called with its loop, its id and its data. -/
abbrev TimeProc (V S : Type) := V → Machine V S → ℤ → V → Option (Machine V S × ℤ × ℤ)

variable {V S ε : Type}

/-- `CreateTimeEvent` and `addTimeEvent`. -/
def createTimeEvent (clock : ℕ → ℤ) (m : Machine V S) (milliseconds : ℤ)
    (proc clientData finalizerProc : V) : Option (Machine V S) :=
  let te : TimeEvent V := {
    id := m.el.timeEventNextId
    when := clock m.reads+milliseconds
    timeProc := proc
    finalizerProc := finalizerProc
    clientData := clientData
    refcount := 0 }
  -- `PushFront` of a nil list panics
  m.el.timeEventHead.map fun head => {
    reads := m.reads+1
    el := { m.el with
      timeEventNextId := m.el.timeEventNextId+1
      timeEvents := m.el.timeEvents++[te]
      timeEventHead := some (m.el.timeEvents.length::head) } }

/-- `DeleteTimeEvent`, with whether it found the id. -/
def deleteTimeEvent (m : Machine V S) (id : ℤ) : Option (Machine V S × Bool) :=
  -- `Front` of a nil list panics
  m.el.timeEventHead.map fun head =>
    match head.find? fun e => (m.el.timeEvents[e]?.map TimeEvent.id) = some id with
    | some e => ({ m with el := { m.el with
        timeEvents := m.el.timeEvents.modify e fun te => { te with id := DELETED_EVENT_ID } } },true)
    | none => (m,false)

/-- What one iteration of `ProcessTimeEvents` saw, and the id its callback returned. -/
structure Visit where
  timer : ℕ
  id : ℤ
  when : ℤ
  now : ℤ
  retVal : Option ℤ

/-- `e.Next()`. -/
def nextElement (head : List ℕ) (e : ℕ) : Option ℕ := (head.dropWhile (· ≠ e)).tail.head?

/-- The body of the loop of `ProcessTimeEvents` at the element `e`. -/
def processTimer (timeProc : TimeProc V S) (clock : ℕ → ℤ) (m : Machine V S) (now : ℤ) (e : ℕ) :
    Option (Machine V S × ℤ × Visit) :=
  m.el.timeEvents[e]?.bind fun te =>
    let visit := fun retVal => { timer := e,id := te.id,when := te.when,now,retVal : Visit }
    if te.id = DELETED_EVENT_ID then
      if te.refcount > 0 then some (m,now,visit none)
      else some ({ m with el := { m.el with
        timeEventHead := m.el.timeEventHead.map (·.erase e) } },now,visit none)
    else if te.id > m.el.maxFd then some (m,now,visit none)
    else if te.when ≤ now then
      (timeProc te.timeProc m te.id te.clientData).map fun (m,when',retVal) =>
        -- `te` points to the timer, which the callback may have changed
        ({ reads := m.reads+1
           el := { m.el with timeEvents := m.el.timeEvents.modify e fun te =>
             if retVal ≠ NOMORE then { te with refcount := te.refcount-1,when := when' }
             else { te with refcount := te.refcount-1,id := DELETED_EVENT_ID } } },
          clock m.reads,visit (some retVal))
    else some (m,now,visit none)

/-- The loop of `ProcessTimeEvents` from the element `e` on. -/
def processFrom (timeProc : TimeProc V S) (clock : ℕ → ℤ) :
    ℕ → Machine V S → ℤ → Option ℕ → Option (Machine V S × List Visit)
  | 0, m, _, _ => some (m,[])
  | _+1, m, _, none => some (m,[])
  | fuel+1, m, now, some e =>
    let next := m.el.timeEventHead.bind (nextElement · e)
    (processTimer timeProc clock m now e).bind fun (m,now,visit) =>
      (processFrom timeProc clock fuel m now next).map fun (m,visits) => (m,visit::visits)

/-- `ProcessTimeEvents`; it returns the number of visits that called a callback. Each
iteration goes one element further in the list the pass began with (`processFrom_fuel`). -/
def processTimeEvents (timeProc : TimeProc V S) (clock : ℕ → ℤ) (m : Machine V S) :
    Option (Machine V S × List Visit) :=
  -- `Front` of a nil list panics
  m.el.timeEventHead.bind fun head =>
    processFrom timeProc clock (head.length+1) { m with reads := m.reads+1 } (clock m.reads) head.head?

/-- No deleted timer is called and none before its time. -/
theorem processTimer_called {timeProc : TimeProc V S} {clock : ℕ → ℤ} {m m' : Machine V S}
    {now now' : ℤ} {e : ℕ} {v : Visit}
    (h : processTimer timeProc clock m now e = some (m',now',v)) (hv : v.retVal.isSome) :
    v.id ≠ DELETED_EVENT_ID ∧ v.when ≤ v.now := by
  rw [processTimer] at h
  obtain ⟨te,-,h⟩ := Option.bind_eq_some_iff.mp h
  dsimp only at h
  split_ifs at h with hdel href hid hwhen
  · cases h
    cases hv
  · cases h
    cases hv
  · cases h
    cases hv
  · obtain ⟨r,-,hr⟩ := Option.map_eq_some_iff.mp h
    cases hr
    exact ⟨hdel,hwhen⟩
  · cases h
    cases hv

theorem processFrom_called {timeProc : TimeProc V S} {clock : ℕ → ℤ} {fuel : ℕ} {m m' : Machine V S}
    {now : ℤ} {e : Option ℕ} {visits : List Visit}
    (h : processFrom timeProc clock fuel m now e = some (m',visits)) :
    ∀ v ∈ visits, v.retVal.isSome → v.id ≠ DELETED_EVENT_ID ∧ v.when ≤ v.now := by
  induction fuel generalizing m now e visits with
  | zero =>
    cases h
    simp
  | succ fuel ih =>
    cases e with
    | none =>
      cases h
      simp
    | some e =>
      rw [processFrom] at h
      obtain ⟨⟨m₁,now₁,v⟩,hv,h⟩ := Option.bind_eq_some_iff.mp h
      obtain ⟨⟨m₂,visits'⟩,hrest,hr⟩ := Option.map_eq_some_iff.mp h
      cases hr
      rw [List.forall_mem_cons]
      exact ⟨processTimer_called hv,ih hrest⟩

/-- The elements of the list from `e` on. -/
def elementsFrom (head : List ℕ) (e : ℕ) : List ℕ := head.dropWhile (· ≠ e)

theorem elementsFrom_cons (head : List ℕ) (x e : ℕ) :
    elementsFrom (x::head) e = if x = e then x::head else elementsFrom head e := by
  rw [elementsFrom,List.dropWhile_cons]
  by_cases hx : x = e <;> simp [hx,elementsFrom]

theorem nextElement_mem {head : List ℕ} {e e' : ℕ} (h : nextElement head e = some e') :
    e' ∈ head :=
  (List.dropWhile_sublist _).subset (List.mem_of_mem_tail (List.mem_of_head? h))

theorem elementsFrom_next {head : List ℕ} (hd : head.Nodup) {e e' : ℕ}
    (h : nextElement head e = some e') :
    (elementsFrom head e').length < (elementsFrom head e).length := by
  induction head with
  | nil => simp [nextElement] at h
  | cons x head ih =>
    have hx : e' ∈ head → x ≠ e' := fun he hxe => (List.nodup_cons.mp hd).1 (hxe ▸ he)
    have hnext : nextElement (x::head) e = (elementsFrom (x::head) e).tail.head? := rfl
    rw [hnext,elementsFrom_cons] at h
    rw [elementsFrom_cons,elementsFrom_cons]
    by_cases hxe : x = e
    · rw [if_pos hxe,List.tail_cons] at h
      rw [if_pos hxe,if_neg (hx (List.mem_of_head? h))]
      have hle := (List.dropWhile_sublist (· ≠ e') (l := head)).length_le
      exact Nat.lt_succ_of_le hle
    · rw [if_neg hxe] at h
      rw [if_neg hxe,if_neg (hx (nextElement_mem h))]
      exact ih (List.nodup_cons.mp hd).2 h

theorem elementsFrom_sublist {old head : List ℕ} (h : old.Sublist head) (e : ℕ) :
    (elementsFrom old e).length ≤ (elementsFrom head e).length := by
  induction h with
  | slnil => rfl
  | @cons old head x h ih =>
    rw [elementsFrom_cons]
    split
    · have hle := ((List.dropWhile_sublist (· ≠ e)).trans h).length_le
      exact Nat.le_succ_of_le hle
    · exact ih
  | cons_cons x h ih =>
    rw [elementsFrom_cons,elementsFrom_cons]
    split
    · exact (h.cons_cons x).length_le
    · exact ih

/-- New elements in front, and some of the old ones removed. -/
def Grows (head head' : List ℕ) : Prop :=
  ∃ new old, head' = new++old ∧ old.Sublist head ∧ ∀ x ∈ new, x ∉ head

theorem Grows.elementsFrom {head head' : List ℕ} (h : Grows head head') {e : ℕ} (he : e ∈ head) :
    (elementsFrom head' e).length ≤ (elementsFrom head e).length := by
  obtain ⟨new,old,rfl,hold,hnew⟩ := h
  have hskip : Ae.elementsFrom (new++old) e = Ae.elementsFrom old e := by
    rw [Ae.elementsFrom,List.dropWhile_append_of_pos]
    · rfl
    · intro x hx
      exact decide_eq_true fun hxe => hnew x hx (hxe ▸ he)
  rw [hskip]
  exact elementsFrom_sublist hold e

/-- The list of a loop after something that only adds in front and removes. -/
def KeepsList (m m' : Machine V S) : Prop :=
  ∀ head, m.el.timeEventHead = some head → head.Nodup →
    ∃ head', m'.el.timeEventHead = some head' ∧ head'.Nodup ∧ Grows head head'

theorem KeepsList.of_eq {m m' : Machine V S} (h : m'.el.timeEventHead = m.el.timeEventHead) :
    KeepsList m m' :=
  fun head hm hd => ⟨head,h.trans hm,hd,[],head,rfl,.refl head,by simp⟩

theorem processTimer_keepsList {timeProc : TimeProc V S} {clock : ℕ → ℤ}
    (hproc : ∀ proc m id clientData m' when' retVal,
      timeProc proc m id clientData = some (m',when',retVal) → KeepsList m m')
    {m m' : Machine V S} {now now' : ℤ} {e : ℕ} {v : Visit}
    (h : processTimer timeProc clock m now e = some (m',now',v)) : KeepsList m m' := by
  rw [processTimer] at h
  obtain ⟨te,-,h⟩ := Option.bind_eq_some_iff.mp h
  dsimp only at h
  split_ifs at h with hdel href hid hwhen
  · cases h
    exact .of_eq rfl
  · cases h
    intro head hm hd
    refine ⟨head.erase e,?_,hd.erase e,[],head.erase e,rfl,List.erase_sublist,by simp⟩
    simp [hm]
  · cases h
    exact .of_eq rfl
  · obtain ⟨⟨m₁,when',retVal⟩,hr,hm'⟩ := Option.map_eq_some_iff.mp h
    cases hm'
    intro head hm hd
    exact hproc _ _ _ _ m₁ _ _ hr head hm hd
  · cases h
    exact .of_eq rfl

/-- Fuel for the elements ahead and one more is enough, whatever the callbacks add in front
and remove. -/
theorem processFrom_fuel {timeProc : TimeProc V S} {clock : ℕ → ℤ}
    (hproc : ∀ proc m id clientData m' when' retVal,
      timeProc proc m id clientData = some (m',when',retVal) → KeepsList m m')
    {fuel : ℕ} {m : Machine V S} {now : ℤ} {e : Option ℕ} {head : List ℕ}
    (hm : m.el.timeEventHead = some head) (hd : head.Nodup)
    (hfuel : ∀ x, e = some x → (elementsFrom head x).length < fuel) (k : ℕ) :
    processFrom timeProc clock (fuel+k) m now e = processFrom timeProc clock fuel m now e := by
  induction fuel generalizing m now e head with
  | zero =>
    cases e with
    | none => cases k <;> rfl
    | some x => exact absurd (hfuel x rfl) (Nat.not_lt_zero _)
  | succ fuel ih =>
    cases e with
    | none => rw [Nat.succ_add]; rfl
    | some x =>
      rw [Nat.succ_add,processFrom,processFrom]
      cases hv : processTimer timeProc clock m now x with
      | none => rfl
      | some r =>
        obtain ⟨m₁,now₁,v⟩ := r
        obtain ⟨head₁,hm₁,hd₁,hg⟩ := processTimer_keepsList hproc hv head hm hd
        rw [Option.bind_some,Option.bind_some]
        dsimp only
        rw [ih hm₁ hd₁]
        intro y hy
        rw [hm,Option.bind_some] at hy
        have hlt := elementsFrom_next hd hy
        have hle := hg.elementsFrom (nextElement_mem hy)
        have := hfuel x rfl
        omega

/-- A call on a loop. -/
inductive Call (V : Type)
  | createTimeEvent (milliseconds : ℤ) (proc clientData finalizerProc : V)
  | deleteTimeEvent (id : ℤ)
  | processTimeEvents
  | file (call : FileCall V)

/-- A finished pass: the loop it began with, its visits, and the loop it left. -/
structure Pass (V S : Type) where
  before : Machine V S
  visits : List Visit
  after : Machine V S

/-- One call, with the passes it made. A `CreateFileEvent` that fails changes nothing. -/
def Call.exec (api : Backend S ε) (timeProc : TimeProc V S) (clock : ℕ → ℤ) (m : Machine V S) :
    Call V → Option (Machine V S × List (Pass V S))
  | .createTimeEvent ms proc clientData finalizerProc =>
    (Ae.createTimeEvent clock m ms proc clientData finalizerProc).map fun m => (m,[])
  | .deleteTimeEvent id => (Ae.deleteTimeEvent m id).map fun r => (r.1,[])
  | .processTimeEvents =>
    (Ae.processTimeEvents timeProc clock m).map fun r => (r.1,[⟨m,r.2,r.1⟩])
  | .file call =>
    match call.exec api m.el with
    | .ok el => some ({ m with el := el },[])
    | .error _ => some (m,[])

/-- The calls in order, with the passes they made. -/
def runCalls (api : Backend S ε) (timeProc : TimeProc V S) (clock : ℕ → ℤ) :
    List (Call V) → Machine V S → Option (Machine V S × List (Pass V S))
  | [], m => some (m,[])
  | c::calls, m =>
    (c.exec api timeProc clock m).bind fun (m,passes) =>
      (runCalls api timeProc clock calls m).map fun r => (r.1,passes++r.2)

/-- How often a pass called the callback of a timer. -/
def calledTimes (visits : List Visit) (e : ℕ) : ℕ :=
  visits.countP fun v => v.timer = e ∧ v.retVal.isSome

/-- A pass calls every timer of the list it begins with that is not deleted and due, unless
a callback deletes it first, and calls no deleted timer and none before its time. -/
structure PassRight (clock : ℕ → ℤ) (p : Pass V S) : Prop where
  due : ∀ head, p.before.el.timeEventHead = some head → ∀ e ∈ head, ∀ te,
    p.before.el.timeEvents[e]? = some te → te.id ≠ DELETED_EVENT_ID →
    te.when ≤ clock p.before.reads →
    calledTimes p.visits e = 1 ∨ (calledTimes p.visits e = 0 ∧
      (p.after.el.timeEvents[e]?.map TimeEvent.id) = some DELETED_EVENT_ID)
  called : ∀ v ∈ p.visits, v.retVal.isSome → v.id ≠ DELETED_EVENT_ID ∧ v.when ≤ v.now

/-- No call panics, every pass is right, and a timer whose callback returned `NOMORE` is not
called by a later pass. -/
def TimersRight (api : Backend S ε) (timeProc : TimeProc V S) (clock : ℕ → ℤ) (m : Machine V S)
    (calls : List (Call V)) : Prop :=
  ∃ m' passes, runCalls api timeProc clock calls m = some (m',passes) ∧
    (∀ p ∈ passes, PassRight clock p) ∧
    passes.Pairwise fun p q => ∀ v ∈ p.visits, v.retVal = some NOMORE → calledTimes q.visits v.timer = 0

variable (api : Backend S ε) (timeProc : TimeProc V S) (clock : ℕ → ℤ)

theorem createFileEvent_timeEventHead {api : Backend S ε} {el el' : EventLoop V S} {fd : ℕ} {mask : Action}
    {proc clientData : V} (h : createFileEvent api el fd mask proc clientData = .ok el') :
    el'.timeEventHead = el.timeEventHead := by
  rw [createFileEvent] at h
  split at h
  · rename_i hfd
    cases hadd : api.apiAddEvent el.apidata el.events[fd].mask fd mask with
    | error err => simp [hadd] at h
    | ok apidata =>
      simp only [hadd,Except.ok.injEq] at h
      subst h
      rfl
  · cases h

theorem deleteFileEvent_timeEventHead (el : EventLoop V S) (fd : ℕ) (mask : Action) :
    (deleteFileEvent api el fd mask).timeEventHead = el.timeEventHead := by
  rw [deleteFileEvent]
  split
  · dsimp only
    split
    · rfl
    · split <;> rfl
  · rfl

/-- A call on the table of file events never panics and leaves the timers alone. -/
theorem exec_file (m : Machine V S) (call : FileCall V) :
    ∃ m', (Call.file call).exec api timeProc clock m = some (m',[]) ∧
      m'.el.timeEventHead = m.el.timeEventHead := by
  rw [Call.exec]
  cases call with
  | create fd mask proc clientData =>
    rw [FileCall.exec]
    cases h : createFileEvent api m.el fd mask proc clientData with
    | error err => exact ⟨m,rfl,rfl⟩
    | ok el => exact ⟨_,rfl,createFileEvent_timeEventHead h⟩
  | delete fd mask => exact ⟨_,rfl,deleteFileEvent_timeEventHead api m.el fd mask⟩

/-- Without a list every call on the timers panics. -/
theorem exec_of_nil {m : Machine V S} (hm : m.el.timeEventHead = none) {c : Call V}
    (hc : ∀ call, c ≠ .file call) : c.exec api timeProc clock m = none := by
  cases c with
  | createTimeEvent ms proc clientData finalizerProc => simp [Call.exec,createTimeEvent,hm]
  | deleteTimeEvent id => simp [Call.exec,deleteTimeEvent,hm]
  | processTimeEvents => simp [Call.exec,processTimeEvents,hm]
  | file call => exact absurd rfl (hc call)

theorem runCalls_file {calls : List (Call V)} (hc : ∀ c ∈ calls, ∃ call, c = .file call)
    (m : Machine V S) : ∃ m', runCalls api timeProc clock calls m = some (m',[]) := by
  induction calls generalizing m with
  | nil => exact ⟨m,rfl⟩
  | cons c calls ih =>
    obtain ⟨⟨call,rfl⟩,hcalls⟩ := List.forall_mem_cons.mp hc
    obtain ⟨m₁,hexec,-⟩ := exec_file api timeProc clock m call
    obtain ⟨m₂,hrest⟩ := ih hcalls m₁
    refine ⟨m₂,?_⟩
    rw [runCalls,hexec,Option.bind_some]
    dsimp only
    rw [hrest]
    rfl

/-- Without a list a run that calls the timers panics. -/
theorem runCalls_timer {calls : List (Call V)} {c : Call V} (hc : c ∈ calls)
    (hcall : ∀ call, c ≠ .file call) {m : Machine V S} (hm : m.el.timeEventHead = none) :
    runCalls api timeProc clock calls m = none := by
  induction calls generalizing m with
  | nil => cases hc
  | cons c' calls ih =>
    rw [runCalls]
    by_cases hfile : ∃ call, c' = .file call
    · obtain ⟨call,rfl⟩ := hfile
      obtain ⟨m₁,hexec,hm₁⟩ := exec_file api timeProc clock m call
      have hc : c ∈ calls := (List.mem_cons.mp hc).resolve_left (hcall call)
      rw [hexec,Option.bind_some]
      dsimp only
      rw [ih hc (hm₁.trans hm)]
      rfl
    · rw [exec_of_nil api timeProc clock hm (not_exists.mp hfile)]
      rfl

/-- On a loop from `Create` the timers are right exactly as long as no call touches them. -/
theorem timers_right_iff (setSize : ℕ) (apidata : S) (reads : ℕ) (calls : List (Call V)) :
    TimersRight api timeProc clock ⟨create setSize apidata,reads⟩ calls ↔
      ∀ c ∈ calls, ∃ call, c = .file call := by
  constructor
  · rintro ⟨m',passes,h,-⟩ c hc
    by_contra hcall
    rw [runCalls_timer api timeProc clock hc (not_exists.mp hcall) rfl] at h
    cases h
  · intro hc
    obtain ⟨m',h⟩ := runCalls_file api timeProc clock hc ⟨create setSize apidata,reads⟩
    exact ⟨m',[],h,by simp,.nil⟩

/-- One timer on a loop from `Create` panics. -/
theorem createTimeEvent_panics :
    ¬TimersRight epoll (fun _ m _ _ => some (m,0,NOMORE)) (fun n => n)
      ⟨create 1 [],0⟩ [.createTimeEvent 5 () () ()] := by
  rintro ⟨m',passes,h,-⟩
  cases h

end Ae
end RecycleBin
