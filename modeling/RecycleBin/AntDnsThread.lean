import Mathlib.Data.Finset.Card
import RecycleBin.Transition

/-! The loop of `thread_dns_main`: its connections to the name server, the table of those it can
send on, and the names it takes off `queue_dns`, where other threads put them. A step is one
operation on the queue, one system call or one event. -/
namespace RecycleBin
namespace AntDnsThread

def MAX_NCONN : ℕ := 2
def DNS_MAX_EVENT : ℕ := 4

/-- An event: EPOLLERR or EPOLLHUP, EPOLLIN and EPOLLOUT. -/
structure Ready where
  fd : ℕ
  error : Bool
  input : Bool
  output : Bool
  deriving DecidableEq

/-- Where the loop is: behind `while (nsock < MAX_NCONN)`, at the events of `epoll_wait`, at an
entry of `cache_sock` with the tasks it has left, behind `fail`, or behind `exit(0)`. -/
inductive Pc
  | connecting
  | events (ready : List Ready)
  | sending (i ntask : ℕ)
  | failed
  | exited
  deriving DecidableEq

/-- The variables of the thread and `queue_dns`. Of the kernel: the connections that are open,
those of them EPOLLOUT is asked for, and whether a descriptor was used that is none. Of the past:
the names that were put, and the calls of `dns_send_packet`. -/
structure State (D : Type) where
  conns : Finset ℕ
  waiting : Finset ℕ
  stray : Bool
  cacheSock : List ℕ
  nsock : ℤ
  check : Bool
  queue : List D
  put : List D
  sent : List (ℕ × D)
  pc : Pc

variable {D : Type}

def start : State D where
  conns := ∅
  waiting := ∅
  stray := false
  cacheSock := List.replicate MAX_NCONN 0
  nsock := 0
  check := true
  queue := []
  put := []
  sent := []
  pc := .connecting

/-- A system call on the descriptor. -/
def touch (sock : ℕ) (s : State D) : State D := { s with stray := s.stray || sock ∉ s.conns }

/-- `cache_sock[i] = 0` where it is `sock`. -/
def clear (sock : ℕ) (cells : List ℕ) : List ℕ := cells.map fun c => if c = sock then 0 else c

/-- `clean_fd`. -/
def cleanFd (sock : ℕ) (s : State D) : State D :=
  let s := touch sock { s with cacheSock := clear sock s.cacheSock }
  { s with conns := s.conns.erase sock,waiting := s.waiting.erase sock,nsock := s.nsock-1 }

/-- `cache_sock[j] = sock` at the first entry that is 0. -/
def store (sock : ℕ) : List ℕ → List ℕ
  | [] => []
  | c::cells => if c = 0 then sock::cells else c::store sock cells

/-- EPOLLOUT: the connection is stored, and from now on only EPOLLIN is asked for, unless
`epoll_ctl` fails. -/
def writable (sock : ℕ) (modified : Bool) (s : State D) : State D :=
  let s := touch sock { s with cacheSock := store sock s.cacheSock }
  if modified then { s with waiting := s.waiting.erase sock } else { s with pc := .failed }

/-- The body of the loop over the events; `closed` tells whether `dns_recv_packet` returned 0 or
an error other than EAGAIN. -/
def handle (e : Ready) (closed modified : Bool) (s : State D) : State D :=
  if e.error then cleanFd e.fd s
  else
    let s := { s with check := false }
    let s := if e.input then touch e.fd s else s
    if e.input ∧ closed then cleanFd e.fd s
    else if e.output then writable e.fd modified s
    else s

/-- What `epoll_wait` can report: distinct connections, and EPOLLOUT only where it is asked for. -/
def Reported (s : State D) (ready : List Ready) : Prop :=
  ready.length ≤ DNS_MAX_EVENT ∧ (ready.map Ready.fd).Nodup ∧
    ∀ e ∈ ready,e.fd ∈ s.conns ∧ (e.output = true → e.fd ∈ s.waiting)

instance (s : State D) (ready : List Ready) : Decidable (Reported s ready) :=
  inferInstanceAs (Decidable (_ ∧ _ ∧ ∀ e ∈ ready,_))

/-- Another thread puts a name; the thread makes a connection, waits for events, or handles one;
it goes on with the entries of `cache_sock`, or sends. A call that fails returns none. -/
inductive Act (D : Type)
  | put (name : D)
  | connect (sock : Option ℕ)
  | wait (ready : Option (List Ready))
  | event (closed modified : Bool)
  | send (failed : Bool)

/-- The body of `for (ntask = 4; ntask-- > 0;)`, and where it leads. -/
def sendTask (i ntask : ℕ) (failed : Bool) (s : State D) : State D :=
  match s.cacheSock[i]? with
  | none => { s with pc := .connecting }
  | some sock =>
    if sock = 0 ∨ ntask = 0 then { s with pc := .sending (i+1) 4 }
    else
      match s.queue with
      | [] => { s with pc := .sending (i+1) 4 }
      | name::queue =>
        let s := touch sock { s with queue := queue,sent := s.sent++[(sock,name)] }
        if failed then cleanFd sock { s with pc := .sending (i+1) 4 }
        else { s with pc := .sending i (ntask-1) }

/-- One step, or none where the thread is not at it. -/
def exec (a : Act D) (s : State D) : Option (State D) :=
  match a, s.pc with
  | .put _, .exited => none
  | .put name, _ => some { s with queue := s.queue++[name],put := s.put++[name] }
  | .connect none, .connecting =>
    if s.nsock < MAX_NCONN then some { s with pc := .failed } else none
  | .connect (some sock), .connecting =>
    if s.nsock < MAX_NCONN ∧ sock ∉ s.conns then
      some { s with
        conns := insert sock s.conns
        waiting := insert sock s.waiting
        nsock := s.nsock+1 }
    else none
  | .wait none, .connecting =>
    if s.nsock < MAX_NCONN then none else some { s with pc := .events [] }
  | .wait (some ready), .connecting =>
    if s.nsock < MAX_NCONN ∨ ¬Reported s ready then none
    else some { s with pc := if s.check ∧ ready = [] then .exited else .events ready }
  | .event closed modified, .events (e::ready) =>
    some (handle e closed modified { s with pc := .events ready })
  | .send _, .events [] => some { s with pc := .sending 0 4 }
  | .send failed, .sending i ntask => some (sendTask i ntask failed s)
  | _, _ => none

/-- No guard. -/
abbrev Any (_ : Act D) (_ : State D) : Prop := True

/-- The thread counts its connections and has two at most. It never uses a descriptor that is
not one of them, and none is in its table twice. -/
structure Sockets (s : State D) : Prop where
  stray : s.stray = false
  nsock : s.nsock = s.conns.card
  few : s.conns.card ≤ MAX_NCONN
  distinct : (s.cacheSock.filter (· ≠ 0)).Nodup
  room : s.cacheSock.length = MAX_NCONN
  subset : s.waiting ⊆ s.conns

/-- In the table are the connections that are made; a 0 in it is a free place. -/
def Table (s : State D) : Prop :=
  ∀ fd,fd ≠ 0 → (fd ∈ s.cacheSock ↔ fd ∈ s.conns ∧ fd ∉ s.waiting)

/-- Every name is sent once, in the order in which the names were put; the program is given up
only while no connection was ever made. -/
structure Sound (s : State D) : Prop where
  sockets : Sockets s
  table : s.pc ≠ .failed → Table s
  names : s.put = s.sent.map Prod.snd++s.queue
  exits : s.pc = .exited → s.conns = s.waiting ∧ s.sent = []

/-! ### The table -/

theorem store_perm {sock : ℕ} {cells : List ℕ} (h : 0 ∈ cells) :
    (store sock cells).Perm (sock::cells.erase 0) := by
  induction cells with
  | nil => cases h
  | cons c cells ih =>
    by_cases hc : c = 0
    · rw [store,if_pos hc,hc,List.erase_cons_head]
    · have hmem : 0 ∈ cells := (List.mem_cons.mp h).resolve_left (Ne.symm hc)
      rw [store,if_neg hc,List.erase_cons_tail (by simpa using hc)]
      exact ((ih hmem).cons c).trans (List.Perm.swap sock c _)

theorem length_store (sock : ℕ) (cells : List ℕ) : (store sock cells).length = cells.length := by
  induction cells with
  | nil => rfl
  | cons c cells ih =>
    by_cases hc : c = 0
    · rw [store,if_pos hc]
      rfl
    · rw [store,if_neg hc,List.length_cons,List.length_cons,ih]

theorem mem_store {sock fd : ℕ} {cells : List ℕ} (h : 0 ∈ cells) (hfd : fd ≠ 0) :
    fd ∈ store sock cells ↔ fd = sock ∨ fd ∈ cells := by
  rw [(store_perm h).mem_iff,List.mem_cons,List.mem_erase_of_ne hfd]

theorem filter_store {sock : ℕ} {cells : List ℕ} (h : 0 ∈ cells) :
    ((store sock cells).filter (· ≠ 0)).Perm ((sock::cells).filter (· ≠ 0)) := by
  have herase := ((List.perm_cons_erase h).filter (· ≠ 0)).symm
  have hstore := (@store_perm sock cells h).filter (· ≠ 0)
  by_cases hs : sock = 0
  · subst hs
    exact hstore.trans (herase.trans (by simp))
  · rw [List.filter_cons_of_pos (by simpa using hs)] at hstore ⊢
    exact hstore.trans ((herase.trans (by simp)).cons sock)

theorem mem_clear {sock fd : ℕ} {cells : List ℕ} (hfd : fd ≠ 0) :
    fd ∈ clear sock cells ↔ fd ∈ cells ∧ fd ≠ sock := by
  rw [clear,List.mem_map]
  constructor
  · rintro ⟨c,hc,rfl⟩
    split_ifs at hfd ⊢ with h
    · exact absurd rfl hfd
    · exact ⟨hc,h⟩
  · rintro ⟨hc,h⟩
    exact ⟨fd,hc,if_neg h⟩

theorem filter_clear (sock : ℕ) (cells : List ℕ) :
    (clear sock cells).filter (· ≠ 0) = (cells.filter (· ≠ 0)).filter (· ≠ sock) := by
  induction cells with
  | nil => rfl
  | cons c cells ih =>
    rw [clear,List.map_cons,← clear]
    by_cases hc : c = 0 <;> by_cases hs : c = sock <;> simp_all

/-- While a connection is not made yet, there is room for it. -/
theorem Sockets.free {s : State D} (h : Sockets s) (ht : Table s) {fd : ℕ} (hfd : fd ∈ s.waiting) :
    0 ∈ s.cacheSock := by
  by_contra hno
  have hne : ∀ c ∈ s.cacheSock,c ≠ 0 := fun c hc h0 => hno (h0 ▸ hc)
  have hall : s.cacheSock.filter (· ≠ 0) = s.cacheSock :=
    List.filter_eq_self.mpr fun c hc => decide_eq_true (hne c hc)
  have hsub : s.cacheSock.toFinset ⊆ s.conns.erase fd := by
    intro c hc
    rw [List.mem_toFinset] at hc
    have hmade := (ht c (hne c hc)).mp hc
    exact Finset.mem_erase.mpr ⟨fun he => hmade.2 (he ▸ hfd),hmade.1⟩
  have hcard := Finset.card_le_card hsub
  rw [List.toFinset_card_of_nodup (hall ▸ h.distinct),h.room,
    Finset.card_erase_of_mem (h.subset hfd)] at hcard
  have hpos : 0 < s.conns.card := Finset.card_pos.mpr ⟨fd,h.subset hfd⟩
  have hfew := h.few
  omega

/-! ### The operations -/

theorem touch_eq {s : State D} {sock : ℕ} (h : sock ∈ s.conns) : touch sock s = s := by
  simp [touch,h]

theorem cleanFd_eq {s : State D} {sock : ℕ} (h : sock ∈ s.conns) :
    cleanFd sock s = { s with
      cacheSock := clear sock s.cacheSock
      conns := s.conns.erase sock
      waiting := s.waiting.erase sock
      nsock := s.nsock-1 } := by
  rw [cleanFd,touch_eq (s := { s with cacheSock := clear sock s.cacheSock }) h]

theorem writable_eq {s : State D} {sock : ℕ} (h : sock ∈ s.conns) (modified : Bool) :
    writable sock modified s =
      if modified then { s with cacheSock := store sock s.cacheSock,waiting := s.waiting.erase sock }
      else { s with cacheSock := store sock s.cacheSock,pc := .failed } := by
  rw [writable,touch_eq (s := { s with cacheSock := store sock s.cacheSock }) h]

theorem Sockets.cleanFd {s : State D} (h : Sockets s) {sock : ℕ} (hs : sock ∈ s.conns) :
    Sockets (cleanFd sock s) := by
  rw [cleanFd_eq hs]
  have hpos : 0 < s.conns.card := Finset.card_pos.mpr ⟨sock,hs⟩
  refine ⟨h.stray,?_,?_,?_,?_,?_⟩
  · have hcount := h.nsock
    have herase := Finset.card_erase_of_mem hs
    simp only
    omega
  · exact (Finset.card_erase_le).trans h.few
  · rw [filter_clear]
    exact h.distinct.filter _
  · exact (List.length_map _).trans h.room
  · exact Finset.erase_subset_erase sock h.subset

theorem Table.cleanFd {s : State D} (h : Table s) {sock : ℕ} (hs : sock ∈ s.conns) :
    Table (cleanFd sock s) := by
  intro fd hfd
  rw [cleanFd_eq hs]
  simp only [mem_clear hfd,Finset.mem_erase,h fd hfd]
  tauto

theorem Sockets.writable {s : State D} (h : Sockets s) (ht : Table s) {sock : ℕ}
    (hs : sock ∈ s.waiting) (modified : Bool) : Sockets (writable sock modified s) := by
  have hdistinct : ((store sock s.cacheSock).filter (· ≠ 0)).Nodup := by
    rw [(filter_store (h.free ht hs)).nodup_iff]
    by_cases h0 : sock = 0
    · rw [List.filter_cons_of_neg (by simpa using h0)]
      exact h.distinct
    · rw [List.filter_cons_of_pos (by simpa using h0),List.nodup_cons]
      exact ⟨fun hmem => ((ht sock h0).mp (List.mem_of_mem_filter hmem)).2 hs,h.distinct⟩
  have hroom := (length_store sock s.cacheSock).trans h.room
  rw [writable_eq (h.subset hs)]
  cases modified with
  | false => exact ⟨h.stray,h.nsock,h.few,hdistinct,hroom,h.subset⟩
  | true =>
    exact ⟨h.stray,h.nsock,h.few,hdistinct,hroom,(Finset.erase_subset _ _).trans h.subset⟩

theorem Sockets.table_writable {s : State D} (h : Sockets s) (ht : Table s) {sock : ℕ}
    (hs : sock ∈ s.waiting) : Table (AntDnsThread.writable sock true s) := by
  intro fd hfd
  rw [writable_eq (h.subset hs),if_pos rfl]
  simp only [mem_store (h.free ht hs) hfd,Finset.mem_erase,ht fd hfd]
  by_cases he : fd = sock
  · simp [he,h.subset hs]
  · simp [he]

theorem Sockets.connect {s : State D} (h : Sockets s) {sock : ℕ} (hs : sock ∉ s.conns)
    (hn : s.nsock < MAX_NCONN) :
    Sockets { s with
      conns := insert sock s.conns,waiting := insert sock s.waiting,nsock := s.nsock+1 } := by
  have hcard := Finset.card_insert_of_notMem hs
  have hcount := h.nsock
  refine ⟨h.stray,?_,?_,h.distinct,h.room,Finset.insert_subset_insert sock h.subset⟩
  · simp only
    omega
  · simp only
    omega

theorem Table.connect {s : State D} (h : Table s) {sock : ℕ} (hs : sock ∉ s.conns) :
    Table { s with
      conns := insert sock s.conns,waiting := insert sock s.waiting,nsock := s.nsock+1 } := by
  intro fd hfd
  simp only [Finset.mem_insert,h fd hfd]
  by_cases he : fd = sock
  · simp [he,hs]
  · simp [he]

/-! ### The events -/

/-- What becomes of an event of a connection. -/
inductive Handled (e : Ready) (s : State D) : State D → Prop
  | cleaned (check : Bool) : (check = true → s.check = true) →
      Handled e s (cleanFd e.fd { s with check := check })
  | made (modified : Bool) : e.output = true →
      Handled e s (writable e.fd modified { s with check := false })
  | read : Handled e s { s with check := false }

theorem handle_handled {e : Ready} {s : State D} (h : e.fd ∈ s.conns) (closed modified : Bool) :
    Handled e s (handle e closed modified s) := by
  have htouch : touch e.fd { s with check := false } = { s with check := false } := touch_eq h
  rw [handle]
  by_cases herror : e.error = true
  · rw [if_pos herror]
    exact .cleaned s.check id
  · rw [if_neg herror]
    simp only [htouch,ite_self]
    by_cases hclosed : e.input = true ∧ closed = true
    · rw [if_pos hclosed]
      exact .cleaned false (by simp)
    · rw [if_neg hclosed]
      by_cases hout : e.output = true
      · rw [if_pos hout]
        exact .made modified hout
      · rw [if_neg hout]
        exact .read

/-- Only the connection of the event changes. -/
theorem Handled.frame {e : Ready} {s t : State D} (h : Handled e s t) (hfd : e.fd ∈ s.conns) :
    s.conns.erase e.fd ⊆ t.conns ∧ s.waiting.erase e.fd ⊆ t.waiting ∧
      (t.pc = s.pc ∨ t.pc = .failed) ∧ t.put = s.put ∧ t.sent = s.sent ∧ t.queue = s.queue := by
  cases h with
  | cleaned check _ =>
    rw [cleanFd_eq (s := { s with check := check }) hfd]
    exact ⟨subset_rfl,subset_rfl,.inl rfl,rfl,rfl,rfl⟩
  | made modified =>
    rw [writable_eq (s := { s with check := false }) hfd]
    cases modified with
    | false =>
      exact ⟨Finset.erase_subset _ _,Finset.erase_subset _ _,.inr rfl,rfl,rfl,rfl⟩
    | true => exact ⟨Finset.erase_subset _ _,subset_rfl,.inl rfl,rfl,rfl,rfl⟩
  | read => exact ⟨Finset.erase_subset _ _,Finset.erase_subset _ _,.inl rfl,rfl,rfl,rfl⟩

/-- An event that is no error ends the time in which nothing has been made. -/
theorem Handled.fresh {e : Ready} {s t : State D} (h : Handled e s t) (hfd : e.fd ∈ s.conns)
    (hs : s.check = true → s.conns = s.waiting ∧ s.sent = []) :
    t.check = true → t.conns = t.waiting ∧ t.sent = [] := by
  cases h with
  | cleaned check hcheck =>
    rw [cleanFd_eq (s := { s with check := check }) hfd]
    intro ht
    obtain ⟨hconns,hsent⟩ := hs (hcheck ht)
    exact ⟨congrArg (Finset.erase · e.fd) hconns,hsent⟩
  | made modified =>
    rw [writable_eq (s := { s with check := false }) hfd]
    cases modified with
    | false => exact fun ht => by cases ht
    | true => exact fun ht => by cases ht
  | read => exact fun ht => by cases ht

theorem Handled.sockets {e : Ready} {s t : State D} (h : Handled e s t) (hs : Sockets s)
    (ht : Table s) (hfd : e.fd ∈ s.conns) (hout : e.output = true → e.fd ∈ s.waiting) :
    Sockets t ∧ (t.pc ≠ .failed → Table t) := by
  cases h with
  | cleaned check _ =>
    have hc : Sockets { s with check := check } := { hs with }
    exact ⟨hc.cleanFd hfd,fun _ => Table.cleanFd (s := { s with check := check }) ht hfd⟩
  | made modified ho =>
    have hc : Sockets { s with check := false } := { hs with }
    refine ⟨hc.writable ht (hout ho) modified,fun hpc => ?_⟩
    cases modified with
    | false =>
      rw [writable_eq (s := { s with check := false }) hfd] at hpc
      exact absurd rfl hpc
    | true => exact hc.table_writable ht (hout ho)
  | read => exact ⟨{ hs with },fun _ => ht⟩

/-! ### Runs -/

/-- The invariant: the events still to be handled are of connections, and while `check` is set
none has been made. -/
structure Inv (s : State D) : Prop where
  sockets : Sockets s
  table : s.pc ≠ .failed → Table s
  names : s.put = s.sent.map Prod.snd++s.queue
  reported : ∀ ready,s.pc = .events ready → Reported s ready
  fresh : s.check = true → s.conns = s.waiting ∧ s.sent = []
  exited : s.pc = .exited → s.check = true

theorem Inv.sound {s : State D} (h : Inv s) : Sound s :=
  ⟨h.sockets,h.table,h.names,fun hpc => h.fresh (h.exited hpc)⟩

/-- What a step can do. -/
inductive Step (s : State D) : State D → Prop
  | put (name : D) : Step s { s with queue := s.queue++[name],put := s.put++[name] }
  | goto (pc : Pc) : s.pc ≠ .failed → (∀ ready,pc = .events ready → Reported s ready) →
      (pc = .exited → s.check = true) → Step s { s with pc := pc }
  | connect (sock : ℕ) : s.pc = .connecting → s.nsock < MAX_NCONN → sock ∉ s.conns →
      Step s { s with
        conns := insert sock s.conns,waiting := insert sock s.waiting,nsock := s.nsock+1 }
  | event (e : Ready) (ready : List Ready) (closed modified : Bool) :
      s.pc = .events (e::ready) →
      Step s (handle e closed modified { s with pc := .events ready })
  | send (i ntask : ℕ) (failed : Bool) : s.pc = .sending i ntask → Step s (sendTask i ntask failed s)

theorem reported_nil (s : State D) : Reported s [] := by simp [Reported]

theorem exec_step {a : Act D} {s t : State D} (h : exec a s = some t) : Step s t := by
  cases a with
  | put name =>
    cases hpc : s.pc <;> simp only [exec,hpc,Option.some.injEq,reduceCtorEq] at h <;> subst h <;>
      exact hpc ▸ .put name
  | connect sock =>
    cases hpc : s.pc <;> cases sock <;> simp only [exec,hpc,reduceCtorEq] at h <;>
      split_ifs at h with hn <;> cases h
    · exact .goto .failed (by simp [hpc]) (by simp) (by simp)
    · have hstep := Step.connect (s := s) _ hpc hn.1 hn.2
      rwa [hpc] at hstep
  | wait ready =>
    cases hpc : s.pc <;> cases ready <;> simp only [exec,hpc,reduceCtorEq] at h <;>
      split_ifs at h with hn <;> cases h
    · refine .goto (.events []) (by simp [hpc]) (fun ready hr => ?_) (by simp)
      cases hr
      exact reported_nil s
    · rename_i hcheck
      exact .goto .exited (by simp [hpc]) (by simp) fun _ => hcheck.1
    · refine .goto (.events _) (by simp [hpc]) (fun rest hr => ?_) (by simp)
      cases hr
      exact not_not.mp fun hno => hn (.inr hno)
  | event closed modified =>
    cases hpc : s.pc with
    | events ready =>
      cases ready with
      | nil => simp [exec,hpc] at h
      | cons e ready =>
        simp only [exec,hpc,Option.some.injEq] at h
        exact h ▸ .event e ready closed modified hpc
    | _ => simp [exec,hpc] at h
  | send failed =>
    cases hpc : s.pc with
    | events ready =>
      cases ready with
      | nil =>
        simp only [exec,hpc,Option.some.injEq] at h
        exact h ▸ .goto _ (by simp [hpc]) (by simp) (by simp)
      | cons e ready => simp [exec,hpc] at h
    | sending i ntask =>
      simp only [exec,hpc,Option.some.injEq] at h
      exact h ▸ .send i ntask failed hpc
    | _ => simp [exec,hpc] at h

theorem inv_start : Inv (start : State D) where
  sockets := ⟨rfl,rfl,Nat.zero_le _,by simp [start],rfl,subset_rfl⟩
  table := fun _ fd hfd => by simp [start,MAX_NCONN,hfd]
  names := rfl
  reported := fun ready h => by cases h
  fresh := fun _ => ⟨rfl,rfl⟩
  exited := fun h => by cases h

theorem Inv.goto {s : State D} (h : Inv s) {pc : Pc} (hpc : s.pc ≠ .failed)
    (hr : ∀ ready,pc = .events ready → Reported s ready) (he : pc = .exited → s.check = true) :
    Inv { s with pc := pc } where
  sockets := { h.sockets with }
  table := fun _ => h.table hpc
  names := h.names
  reported := hr
  fresh := h.fresh
  exited := he

theorem Inv.event {s : State D} (h : Inv s) {e : Ready} {ready : List Ready}
    (hpc : s.pc = .events (e::ready)) (closed modified : Bool) :
    Inv (handle e closed modified { s with pc := .events ready }) := by
  obtain ⟨hlen,hnodup,hmem⟩ := h.reported _ hpc
  obtain ⟨hfd,hout⟩ := hmem e List.mem_cons_self
  have hs : Sockets { s with pc := .events ready } := { h.sockets with }
  have ht : Table s := h.table (by simp [hpc])
  have hhandled := handle_handled (s := { s with pc := .events ready }) hfd closed modified
  obtain ⟨hconns,hwaiting,hnext,hput,hsent,hqueue⟩ := hhandled.frame hfd
  obtain ⟨hs',ht'⟩ := hhandled.sockets hs ht hfd hout
  refine ⟨hs',ht',?_,fun rest hrest => ?_,hhandled.fresh hfd h.fresh,fun hexit => ?_⟩
  · rw [hput,hsent,hqueue]
    exact h.names
  · have hrest' : rest = ready := by
      rcases hnext with hn | hn
      · exact (Pc.events.inj (hn.symm.trans hrest)).symm
      · cases hn.symm.trans hrest
    subst hrest'
    rw [List.map_cons,List.nodup_cons] at hnodup
    refine ⟨(Nat.le_succ _).trans hlen,hnodup.2,fun r hr => ?_⟩
    have hne : r.fd ≠ e.fd := fun he => hnodup.1 (he ▸ List.mem_map_of_mem hr)
    obtain ⟨hrfd,hrout⟩ := hmem r (List.mem_cons_of_mem e hr)
    exact ⟨hconns (Finset.mem_erase.mpr ⟨hne,hrfd⟩),
      fun ho => hwaiting (Finset.mem_erase.mpr ⟨hne,hrout ho⟩)⟩
  · rcases hnext with hn | hn
    · cases hn.symm.trans hexit
    · cases hn.symm.trans hexit

theorem Inv.send {s : State D} (h : Inv s) {i ntask : ℕ} (hpc : s.pc = .sending i ntask)
    (failed : Bool) : Inv (sendTask i ntask failed s) := by
  have hne : s.pc ≠ .failed := by simp [hpc]
  have ht := h.table hne
  cases hcell : s.cacheSock[i]? with
  | none =>
    simp only [sendTask,hcell]
    exact h.goto hne (fun ready hr => by cases hr) (by simp)
  | some sock =>
    by_cases hskip : sock = 0 ∨ ntask = 0
    · simp only [sendTask,hcell,if_pos hskip]
      exact h.goto hne (fun ready hr => by cases hr) (by simp)
    cases hqueue : s.queue with
    | nil =>
      have hgoto : sendTask i ntask failed s = { s with pc := .sending (i+1) 4 } := by
        simp only [sendTask,hcell,if_neg hskip,hqueue]
      rw [hgoto]
      exact h.goto hne (fun ready hr => by cases hr) (by simp)
    | cons name queue =>
      obtain ⟨hsock,hmade⟩ :=
        (ht sock fun h0 => hskip (.inl h0)).mp (List.mem_of_getElem? hcell)
      have hcheck : s.check ≠ true := fun hc => hmade ((h.fresh hc).1 ▸ hsock)
      simp only [sendTask,hcell,if_neg hskip,hqueue]
      rw [touch_eq (s := { s with queue := queue,sent := s.sent++[(sock,name)] }) hsock]
      have hnames : s.put = (s.sent++[(sock,name)]).map Prod.snd++queue := by
        rw [h.names,hqueue,List.map_append,List.append_assoc]
        rfl
      -- whether the call fails or not, the name is gone from the queue
      cases failed with
      | false =>
        exact ⟨{ h.sockets with },fun _ => ht,hnames,fun ready hr => (by cases hr),
          fun hc => absurd hc hcheck,fun he => by cases he⟩
      | true =>
        rw [if_pos rfl,cleanFd_eq (s := { s with
          queue := queue,sent := s.sent++[(sock,name)],pc := .sending (i+1) 4 }) hsock]
        have hs := h.sockets.cleanFd hsock
        have ht' := ht.cleanFd hsock
        rw [cleanFd_eq hsock] at hs ht'
        exact ⟨{ hs with },fun _ => ht',hnames,fun ready hr => (by cases hr),
          fun hc => absurd hc hcheck,fun he => by cases he⟩

theorem Inv.step {s t : State D} (h : Inv s) (hst : Step s t) : Inv t := by
  cases hst with
  | put name =>
    refine ⟨{ h.sockets with },h.table,?_,h.reported,h.fresh,h.exited⟩
    simp only
    rw [h.names,List.append_assoc]
  | goto pc hpc hr he => exact h.goto hpc hr he
  | connect sock hpc hn hs =>
    have ht := h.table (by simp [hpc])
    refine ⟨h.sockets.connect hs hn,fun _ => ht.connect hs,h.names,
      fun ready hr => (by cases hpc.symm.trans hr),fun hc => ⟨?_,(h.fresh hc).2⟩,
      fun he => by cases hpc.symm.trans he⟩
    exact congrArg (insert sock) (h.fresh hc).1
  | event e ready closed modified hpc => exact h.event hpc closed modified
  | send i ntask failed hpc => exact h.send hpc failed

/-- In every run, whatever the name server and the other threads do: the thread counts its
connections right, its table holds exactly those that are made, each once, it never uses a
descriptor after it has closed it, and every name is sent exactly once, in the order in which the
names were put. A name whose `dns_send_packet` failed does not come back, and `exit(0)` is called
only while no name was sent. -/
theorem thread_sound {s : State D} (h : Reach start (Via Any exec) s) : Sound s := by
  have hinv : Inv s := by
    refine h.invariant inv_start fun s t hs hst => ?_
    obtain ⟨a,-,ha⟩ := hst
    exact hs.step (exec_step ha)
  exact hinv.sound

/-- Two connections are made, and the first is lost with the name that is sent on it. -/
def oneLost : List (Act ℕ) :=
  [.put 1,.connect (some 7),.connect (some 8),
    .wait (some [⟨7,false,false,true⟩,⟨8,false,false,true⟩]),
    .event false true,.event false true,.put 2,.send false,.send true,.send false]

theorem thread_sound_lost : ∃ s,path Any exec oneLost start = some s ∧ Sound s ∧
    s.conns = {8} ∧ s.cacheSock = [0,8] ∧ s.sent = [(7,1),(8,2)] := by
  obtain ⟨s,hs⟩ : ∃ s,path Any exec oneLost start = some s := ⟨_,rfl⟩
  have hsound := thread_sound (.of_path .start hs)
  cases hs
  exact ⟨_,rfl,hsound,by decide,by decide,by decide⟩

end AntDnsThread
end RecycleBin
