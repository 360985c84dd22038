import RecycleBin.AntArray
import RecycleBin.TorStatus

/-!
# The event loop of the static file server

`do_loop` and `list_dir` of `http_server/src/mini_tor.c`, with the table `cache_sock` of
`tor_array.c` and the contexts it points to. What the system answers comes with each event;
the number of a connection is its place among those accepted.
-/

namespace RecycleBin
namespace TorLoop

open AntHash AntVisited CString TorHttp

def TOR_MAX_EVENT : ℕ := 256

def EPOLLIN : BitVec 32 := 1

def EPOLLERR : BitVec 32 := 8

def EPOLLHUP : BitVec 32 := 16

/-! ## One request -/

/-- The answers of the system while one request is served. -/
structure Request where
  /-- the bytes unread on the socket -/
  queue : Bytes
  sys : Answers
  /-- where `http_join_head_body` starts -/
  errno : ℤ
  /-- the names `readdir` gives; none where `opendir` fails -/
  entries : Option (List Bytes)
  /-- the descriptor of the directory -/
  dirFd : ℕ
  /-- the bytes mapped from the file -/
  content : Bytes
  /-- how many bytes `writev` takes -/
  room : ℕ

def Request.isDir (a : Request) (name : Bytes) : Bool :=
  decide ((a.sys.stat name).toOption = some .dir)

/-- `list_dir` -/
def listDir (names : List Bytes) : Bytes :=
  ascii "<html>"++
    (names.filter fun n => n ≠ ascii "." ∧ n ≠ ascii "..").flatMap
      (fun n => ascii "<a href = "++n++ascii "> "++n++ascii " </a> </br>")++
    ascii "</html>"

/-- `http->page` as `http_join_head_body` leaves it. -/
def page (a : Request) (kind : Option Kind) : Bytes :=
  if kind = some .dir then a.entries.elim [] listDir
  else if kind = some .reg ∧ a.sys.openFile = none then a.content
  else []

/-- `http_read_head` and `do_process` on a context: the bytes `writev` sends, and the
descriptor of the directory that `list_dir` opened and does not close. -/
def serve (http : Http) (a : Request) : Except Fault (Bytes × Option ℕ) := do
  let r ← httpReadHead a.isDir http a.queue
  let name ← joinName r.2.1
  let line ← httpJoinHeadBody a.sys r.2.1 a.errno
  let kind := (a.sys.stat name).toOption
  .ok ((line.1++[13,10]++page a kind).take a.room,
    if kind = some .dir ∧ a.entries.isSome then some a.dirFd else none)

/-! ## The descriptors -/

/-- What the kernel knows: the connection behind each descriptor, and what was sent on it. -/
structure Kernel where
  conn : ℕ → Option ℕ
  accepted : ℕ
  /-- `sfd` is open and in the epoll set -/
  listening : Bool
  /-- the descriptors of directories -/
  leaked : List ℕ
  sent : List (ℕ × Bytes)

namespace Kernel

def accept (k : Kernel) (fd : ℕ) : Kernel :=
  { k with
    conn := Function.update k.conn fd (some k.accepted)
    accepted := k.accepted+1 }

/-- `close`, which takes the descriptor out of the epoll set too. -/
def close (sfd : ℕ) (k : Kernel) (fd : ℕ) : Kernel :=
  { k with
    conn := Function.update k.conn fd none
    listening := k.listening && fd ≠ sfd }

def writev (k : Kernel) (fd : ℕ) (bytes : Bytes) : Kernel :=
  (k.conn fd).elim k fun n => { k with sent := k.sent++[(n,bytes)] }

def opendir (k : Kernel) (fd : Option ℕ) : Kernel := { k with leaked := fd.toList++k.leaked }

/-- The descriptor is in the epoll set. -/
def Watched (sfd : ℕ) (k : Kernel) (fd : ℕ) : Prop :=
  if fd = sfd then k.listening = true else (k.conn fd).isSome = true

instance (sfd : ℕ) (k : Kernel) (fd : ℕ) : Decidable (Watched sfd k fd) :=
  inferInstanceAs (Decidable (ite _ _ _))

end Kernel

/-- One element of `events`, with the answers to the calls made for it. -/
structure Event where
  events : BitVec 32
  fd : ℕ
  /-- what `accept` returns, up to its failure -/
  accepted : List ℕ
  request : Request

/-- The test in front of `close`. -/
def Event.Bad (e : Event) : Prop :=
  e.events &&& EPOLLERR ≠ 0 ∨ e.events &&& EPOLLHUP ≠ 0 ∨ e.events &&& EPOLLIN = 0

instance (e : Event) : Decidable e.Bad := inferInstanceAs (Decidable (_ ∨ _))

/-! ## The loop -/

/-- `http_context`, as far as `http_new` and the loop need it. -/
structure Context where
  fd : ℕ
  http : Http

/-- The contexts made so far, none once freed, and the table of pointers to them: 0 is
`NULL`, `n+1` the context made `n`-th. -/
structure Server extends Kernel where
  contexts : List (Option Context)
  cacheSock : AntArray.Table ℕ

/-- `tor_array_put`, the same code as `ant_array_put`. -/
def torArrayPut (a : AntArray.Table ℕ) (i elem : ℕ) : Except Fault (AntArray.Table ℕ) :=
  AntArray.antArrayPut a i elem

def torArrayGet (a : AntArray.Table ℕ) (i : ℕ) : Except Fault ℕ := AntArray.antArrayGet a i

/-- A context read through a pointer: not through `NULL`, nor after `http_free`. -/
def Server.deref (s : Server) (p : ℕ) : Except Fault Context :=
  if p = 0 then .error .undefined
  else s.contexts[p-1]?.join.elim (.error .undefined) .ok

/-- One connection accepted: `http_new` and `tor_array_put`. -/
def acceptOne (d : DataDir) (s : Server) (connfd : ℕ) : Except Fault Server := do
  let t ← torArrayPut s.cacheSock connfd (s.contexts.length+1)
  .ok ⟨s.toKernel.accept connfd,s.contexts++[some ⟨connfd,httpNew d⟩],t⟩

/-- One turn of the loop over `events`. -/
def handle (d : DataDir) (sfd : ℕ) (s : Server) (e : Event) : Except Fault Server :=
  if e.Bad then .ok { s with toKernel := s.toKernel.close sfd e.fd }
  else if e.fd = sfd then e.accepted.foldlM (acceptOne d) s
  else do
    let p ← torArrayGet s.cacheSock e.fd
    let c ← s.deref p
    let r ← serve c.http e.request
    -- `http_free` closes the descriptor of the context
    .ok ⟨((s.toKernel.opendir r.2).writev c.fd r.1).close sfd c.fd,s.contexts.set (p-1) none,
      s.cacheSock⟩

def start : Server :=
  ⟨⟨fun _ => none,0,true,[],[]⟩,[],AntArray.antArrayNew TOR_MAX_EVENT⟩

/-- `do_loop`, on what `epoll_wait` returns each time. -/
def doLoop (d : DataDir) (sfd : ℕ) (s : Server) (batches : List (List Event)) :
    Except Fault Server :=
  batches.foldlM (fun s batch => batch.foldlM (handle d sfd) s) s

/-! ## The sessions -/

/-- The server without contexts and pointers; of the table only the length is left. -/
structure Sessions extends Kernel where
  length : ℕ

namespace Sessions

def acceptOne (a : Sessions) (connfd : ℕ) : Except Fault Sessions :=
  if AntArray.Fits a.length connfd then
    .ok ⟨a.toKernel.accept connfd,AntArray.grown a.length connfd⟩
  else .error .undefined

/-- A connection is answered by a context of its own, as `http_new` makes it. -/
def handle (d : DataDir) (sfd : ℕ) (a : Sessions) (e : Event) : Except Fault Sessions :=
  if e.Bad then .ok { a with toKernel := a.toKernel.close sfd e.fd }
  else if e.fd = sfd then e.accepted.foldlM acceptOne a
  else do
    let r ← serve (httpNew d) e.request
    .ok { a with toKernel := ((a.toKernel.opendir r.2).writev e.fd r.1).close sfd e.fd }

def doLoop (d : DataDir) (sfd : ℕ) (a : Sessions) (batches : List (List Event)) :
    Except Fault Sessions :=
  batches.foldlM (fun a batch => batch.foldlM (handle d sfd) a) a

end Sessions

def forget (s : Server) : Sessions := ⟨s.toKernel,s.cacheSock.array.length⟩

/-- What `epoll_wait` promises: different descriptors, all in the epoll set. -/
def Polled (d : DataDir) (sfd : ℕ) : List (List Event) → Sessions → Prop
  | [],_ => True
  | batch::batches,a =>
    (batch.map Event.fd).Nodup ∧ (∀ e ∈ batch,a.toKernel.Watched sfd e.fd) ∧
      ∀ a',batch.foldlM (Sessions.handle d sfd) a = .ok a' → Polled d sfd batches a'

/-! ## Contexts and connections -/

variable {d : DataDir} {sfd : ℕ}

/-- The slot of an open connection points to its context, not used before; the contexts freed
are those of the connections answered. -/
structure Coherent (d : DataDir) (s : Server) : Prop where
  slot : ∀ fd n,s.conn fd = some n → s.cacheSock.array[fd]? = some (n+1)
  live : ∀ fd n,s.conn fd = some n → s.contexts[n]? = some (some ⟨fd,httpNew d⟩)
  count : s.contexts.length = s.accepted
  pos : 0 < s.cacheSock.array.length
  freed : ∀ n,s.contexts[n]? = some none ↔ n ∈ s.sent.map Prod.fst
  once : (s.sent.map Prod.fst).Nodup

theorem coherent_start : Coherent d start where
  slot _ _ h := by cases h
  live _ _ h := by cases h
  count := rfl
  pos := by
    show 0 < (List.replicate 256 0).length
    rw [List.length_replicate]
    decide
  freed n := by simp [start]
  once := List.nodup_nil

/-- A step of the server beside one of the sessions. -/
def Alike (d : DataDir) (x : Except Fault Server) (y : Except Fault Sessions) : Prop :=
  x.map forget = y ∧ ∀ s,x = .ok s → Coherent d s

theorem alike_ok {s : Server} {a : Sessions} (h : forget s = a) (hs : Coherent d s) :
    Alike d (.ok s) (.ok a) := by
  refine ⟨by rw [Except.map,h],?_⟩
  rintro _ ⟨⟩
  exact hs

theorem alike_error (e : Fault) : Alike d (.error e) (.error e) :=
  ⟨rfl,by rintro _ ⟨⟩⟩

theorem alike_bind {x : Except Fault Server} {y : Except Fault Sessions}
    {f : Server → Except Fault Server} {g : Sessions → Except Fault Sessions} (h : Alike d x y)
    (hf : ∀ s,x = .ok s → Coherent d s → Alike d (f s) (g (forget s))) :
    Alike d (x >>= f) (y >>= g) := by
  obtain ⟨hxy,hs⟩ := h
  cases x with
  | error e =>
    rw [← hxy]
    exact alike_error e
  | ok s =>
    rw [← hxy]
    exact hf s rfl (hs s rfl)

/-- A put keeps the other slots. -/
theorem torArrayPut_ok {t : AntArray.Table ℕ} {i elem : ℕ}
    (hf : AntArray.Fits t.array.length i) :
    ∃ t',torArrayPut t i elem = .ok t' ∧ t'.array.length = AntArray.grown t.array.length i ∧
      t'.array[i]? = some elem ∧
      ∀ j e,j ≠ i → t.array[j]? = some e → t'.array[j]? = some e := by
  obtain ⟨ncurr,hput⟩ := AntArray.antArrayPut_eq (a := t) (e := elem) hf
  have hslots := AntArray.getElem?_antArrayPut hput
  have hle := AntArray.length_le_grown t.array.length i
  refine ⟨_,hput,?_,?_,fun j e hj he => ?_⟩
  · simp only [List.length_set,List.length_append,List.length_replicate]
    omega
  · rw [hslots,if_pos rfl]
  · rw [hslots,if_neg hj,if_pos (List.getElem?_eq_some_iff.mp he).1,he]

/-- A new context, and the slot of its descriptor. -/
theorem Coherent.accept {s : Server} (hs : Coherent d s) {connfd : ℕ} {t : AntArray.Table ℕ}
    (hlen : s.cacheSock.array.length ≤ t.array.length)
    (hself : t.array[connfd]? = some (s.contexts.length+1))
    (hother : ∀ j e,j ≠ connfd → s.cacheSock.array[j]? = some e → t.array[j]? = some e) :
    Coherent d ⟨s.toKernel.accept connfd,s.contexts++[some ⟨connfd,httpNew d⟩],t⟩ := by
  have hold : ∀ (n : ℕ) (c : Option Context),s.contexts[n]? = some c →
      (s.contexts++[some ⟨connfd,httpNew d⟩])[n]? = some c := by
    intro n c h
    rw [List.getElem?_append_left (List.getElem?_eq_some_iff.mp h).1,h]
  constructor
  · intro fd n h
    by_cases hfd : fd = connfd
    · subst hfd
      simp only [Kernel.accept,Function.update_self,Option.some.injEq] at h
      rw [hself,← h,hs.count]
    · simp only [Kernel.accept,Function.update_of_ne hfd] at h
      exact hother fd _ hfd (hs.slot fd n h)
  · intro fd n h
    by_cases hfd : fd = connfd
    · subst hfd
      simp only [Kernel.accept,Function.update_self,Option.some.injEq] at h
      simp [← h,← hs.count]
    · simp only [Kernel.accept,Function.update_of_ne hfd] at h
      exact hold n _ (hs.live fd n h)
  · simp [Kernel.accept,hs.count]
  · exact hs.pos.trans_le hlen
  · intro n
    show _ ↔ n ∈ s.sent.map Prod.fst
    rw [← hs.freed]
    constructor
    · intro h
      rcases lt_trichotomy n s.contexts.length with hlt | rfl | hgt
      · rwa [List.getElem?_append_left hlt] at h
      · simp at h
      · rw [List.getElem?_eq_none (by simp; omega)] at h
        cases h
    · exact hold n none
  · exact hs.once

theorem acceptOne_alike {s : Server} (hs : Coherent d s) (connfd : ℕ) :
    Alike d (acceptOne d s connfd) ((forget s).acceptOne connfd) := by
  rw [acceptOne,Sessions.acceptOne]
  by_cases hf : AntArray.Fits (forget s).length connfd
  · obtain ⟨t,hput,hlen,hself,hother⟩ := @torArrayPut_ok _ _ (s.contexts.length+1) hf
    have hle : s.cacheSock.array.length ≤ t.array.length := by
      rw [hlen]
      exact AntArray.length_le_grown _ _
    rw [hput,ok_bind,if_pos hf]
    refine alike_ok ?_ (hs.accept hle hself hother)
    rw [forget,hlen]
    rfl
  · rw [torArrayPut,AntArray.antArrayPut_undefined hf,error_bind,if_neg hf]
    exact alike_error _

theorem accept_alike {s : Server} (hs : Coherent d s) (fds : List ℕ) :
    Alike d (fds.foldlM (acceptOne d) s) (fds.foldlM Sessions.acceptOne (forget s)) := by
  induction fds generalizing s with
  | nil => exact alike_ok rfl hs
  | cons fd fds ih =>
    rw [List.foldlM_cons,List.foldlM_cons]
    exact alike_bind (acceptOne_alike hs fd) fun s' _ hs' => ih hs'

theorem Coherent.close {s : Server} (hs : Coherent d s) (fd : ℕ) :
    Coherent d { s with toKernel := s.toKernel.close sfd fd } := by
  have hconn : ∀ fd' n,Function.update s.conn fd none fd' = some n → s.conn fd' = some n := by
    intro fd' n h
    by_cases hfd : fd' = fd
    · subst hfd
      simp at h
    · rwa [Function.update_of_ne hfd] at h
  exact ⟨fun fd' n h => hs.slot fd' n (hconn fd' n h),fun fd' n h => hs.live fd' n (hconn fd' n h),
    hs.count,hs.pos,hs.freed,hs.once⟩

/-- The answer on an open connection, and `http_free`. -/
theorem Coherent.reply {s : Server} (hs : Coherent d s) {fd n : ℕ} (hfd : s.conn fd = some n)
    (bytes : Bytes) (dir : Option ℕ) :
    Coherent d ⟨((s.toKernel.opendir dir).writev fd bytes).close sfd fd,s.contexts.set n none,
      s.cacheSock⟩ := by
  have hwrite : (s.toKernel.opendir dir).writev fd bytes =
      { s.toKernel.opendir dir with sent := s.sent++[(n,bytes)] } := by
    simp [Kernel.writev,Kernel.opendir,hfd]
  have hn := hs.live fd n hfd
  have hlt : n < s.contexts.length := (List.getElem?_eq_some_iff.mp hn).1
  have hnew : n ∉ s.sent.map Prod.fst := by
    rw [← hs.freed,hn]
    simp
  have hconn : ∀ fd' n',Function.update s.conn fd none fd' = some n' →
      s.conn fd' = some n' ∧ n ≠ n' := by
    intro fd' n' h
    by_cases he : fd' = fd
    · subst he
      simp at h
    rw [Function.update_of_ne he] at h
    refine ⟨h,?_⟩
    rintro rfl
    have hn' := hs.live fd' n h
    rw [hn] at hn'
    simp only [Option.some.injEq,Context.mk.injEq,and_true] at hn'
    exact he hn'.symm
  rw [hwrite]
  constructor
  · exact fun fd' n' h => hs.slot fd' n' (hconn fd' n' h).1
  · intro fd' n' h
    obtain ⟨h,hne⟩ := hconn fd' n' h
    rw [List.getElem?_set_ne hne]
    exact hs.live fd' n' h
  · rw [List.length_set]
    exact hs.count
  · exact hs.pos
  · intro m
    simp only [Kernel.close,List.map_append,List.map_cons,List.map_nil,List.mem_append,
      List.mem_singleton,← hs.freed]
    by_cases hm : m = n
    · subst hm
      simp [List.getElem?_set_self hlt]
    · simp [List.getElem?_set_ne (Ne.symm hm),hm]
  · simp only [Kernel.close,List.map_append,List.map_cons,List.map_nil]
    rw [← List.concat_eq_append]
    exact List.Nodup.concat hnew hs.once

theorem handle_alike {s : Server} (hs : Coherent d s) {e : Event}
    (hw : s.toKernel.Watched sfd e.fd) :
    Alike d (handle d sfd s e) ((forget s).handle d sfd e) := by
  rw [handle,Sessions.handle]
  by_cases hbad : e.Bad
  · rw [if_pos hbad,if_pos hbad]
    exact alike_ok rfl (hs.close e.fd)
  rw [if_neg hbad,if_neg hbad]
  by_cases hfd : e.fd = sfd
  · rw [if_pos hfd,if_pos hfd]
    exact accept_alike hs e.accepted
  rw [if_neg hfd,if_neg hfd]
  rw [Kernel.Watched,if_neg hfd,Option.isSome_iff_exists] at hw
  obtain ⟨n,hn⟩ := hw
  have hget : torArrayGet s.cacheSock e.fd = .ok (n+1) := by
    rw [torArrayGet,AntArray.antArrayGet,hs.slot _ n hn]
  have hderef : s.deref (n+1) = .ok ⟨e.fd,httpNew d⟩ := by
    simp [Server.deref,hs.live _ n hn]
  rw [hget,ok_bind,hderef,ok_bind]
  cases hserve : serve (httpNew d) e.request with
  | error err => exact alike_error err
  | ok r => exact alike_ok rfl (hs.reply hn r.1 r.2)

/-! ## A descriptor stays in the epoll set until its own turn -/

theorem Kernel.Watched.accept {k : Kernel} {fd : ℕ} (h : k.Watched sfd fd) (connfd : ℕ) :
    (k.accept connfd).Watched sfd fd := by
  rw [Kernel.Watched] at h ⊢
  split
  · rename_i hfd
    rwa [if_pos hfd] at h
  · rename_i hfd
    rw [if_neg hfd] at h
    simp only [Kernel.accept,Function.update_apply]
    split
    · rfl
    · exact h

theorem Kernel.Watched.close {k : Kernel} {fd fd' : ℕ} (h : k.Watched sfd fd) (hne : fd ≠ fd') :
    (k.close sfd fd').Watched sfd fd := by
  rw [Kernel.Watched] at h ⊢
  split
  · rename_i hfd
    rw [if_pos hfd] at h
    simp only [Kernel.close,h,Bool.true_and,decide_eq_true_eq]
    exact fun hc => hne (hfd.trans hc.symm)
  · rename_i hfd
    rw [if_neg hfd] at h
    simp only [Kernel.close]
    rwa [Function.update_of_ne hne]

theorem Kernel.Watched.reply {k : Kernel} {fd : ℕ} (h : k.Watched sfd fd) (dir : Option ℕ)
    (fd' : ℕ) (bytes : Bytes) : ((k.opendir dir).writev fd' bytes).Watched sfd fd := by
  have hk : (k.opendir dir).Watched sfd fd := h
  rw [Kernel.writev]
  cases (k.opendir dir).conn fd' with
  | none => exact hk
  | some n => exact hk

theorem accept_watched {fds : List ℕ} {a a' : Sessions} {fd : ℕ}
    (h : a.toKernel.Watched sfd fd) (ha : fds.foldlM Sessions.acceptOne a = .ok a') :
    a'.toKernel.Watched sfd fd := by
  induction fds generalizing a with
  | nil =>
    cases ha
    exact h
  | cons connfd fds ih =>
    rw [List.foldlM_cons] at ha
    obtain ⟨a₁,h₁,ha⟩ := bind_eq_ok.mp ha
    rw [Sessions.acceptOne] at h₁
    split at h₁
    · cases h₁
      exact ih (h.accept connfd) ha
    · cases h₁

theorem handle_watched {a a' : Sessions} {e : Event} {fd : ℕ} (h : a.toKernel.Watched sfd fd)
    (hne : fd ≠ e.fd) (ha : a.handle d sfd e = .ok a') : a'.toKernel.Watched sfd fd := by
  rw [Sessions.handle] at ha
  split at ha
  · cases ha
    exact h.close hne
  split at ha
  · exact accept_watched h ha
  obtain ⟨r,-,ha⟩ := bind_eq_ok.mp ha
  cases ha
  exact (h.reply r.2 e.fd r.1).close hne

/-! ## Runs -/

theorem batch_alike {batch : List Event} {s : Server} (hs : Coherent d s)
    (hnodup : (batch.map Event.fd).Nodup)
    (hw : ∀ e ∈ batch,s.toKernel.Watched sfd e.fd) :
    Alike d (batch.foldlM (handle d sfd) s) (batch.foldlM (Sessions.handle d sfd) (forget s)) := by
  induction batch generalizing s with
  | nil => exact alike_ok rfl hs
  | cons e batch ih =>
    rw [List.map_cons,List.nodup_cons] at hnodup
    rw [List.foldlM_cons,List.foldlM_cons]
    have halike := handle_alike hs (hw e List.mem_cons_self)
    refine alike_bind halike fun s' h' hs' => ih hs' hnodup.2 fun e' he' => ?_
    have hne : e'.fd ≠ e.fd := by
      intro hfd
      exact hnodup.1 (hfd ▸ List.mem_map_of_mem he')
    have hspec : (forget s).handle d sfd e = .ok (forget s') := by
      rw [← halike.1,h']
      rfl
    exact handle_watched (hw e' (List.mem_cons_of_mem e he')) hne hspec

theorem doLoop_alike {batches : List (List Event)} {s : Server} (hs : Coherent d s)
    (hp : Polled d sfd batches (forget s)) :
    Alike d (doLoop d sfd s batches) ((forget s).doLoop d sfd batches) := by
  induction batches generalizing s with
  | nil => exact alike_ok rfl hs
  | cons batch batches ih =>
    rw [doLoop,Sessions.doLoop,List.foldlM_cons,List.foldlM_cons]
    have halike := batch_alike hs hp.1 hp.2.1
    refine alike_bind halike fun s' h' hs' => ih hs' (hp.2.2 _ ?_)
    rw [← halike.1,h']
    rfl

/-- Two connections; the second is answered while nothing has come on it, the first fails. -/
def twoConnections : List (List Event) :=
  let request : Request := ⟨[],served,0,none,0,ascii "text",4096⟩
  [[⟨EPOLLIN,3,[5,6],request⟩],[⟨EPOLLIN,6,[],request⟩,⟨EPOLLHUP,5,[],request⟩]]

set_option maxRecDepth 4000 in
theorem polled_twoConnections : Polled here 3 twoConnections (forget start) := by
  refine ⟨by decide,by decide,?_⟩
  rintro _ ⟨⟩
  refine ⟨by decide,by decide,?_⟩
  exact fun _ _ => trivial

/-- After every run each connection has been answered at most once; a context has been freed
exactly if its connection was answered, so that the contexts of connections closed on an error
stay; and every open connection has an unused context in its slot. -/
theorem doLoop_contexts (d : DataDir) (sfd : ℕ) (batches : List (List Event)) (s : Server)
    (hp : Polled d sfd batches (forget start)) (h : doLoop d sfd start batches = .ok s) :
    (s.sent.map Prod.fst).Nodup ∧ s.contexts.length = s.accepted ∧
    (∀ n,s.contexts[n]? = some none ↔ n ∈ s.sent.map Prod.fst) ∧
    ∀ fd n,s.conn fd = some n → s.cacheSock.array[fd]? = some (n+1) ∧
      s.contexts[n]? = some (some ⟨fd,httpNew d⟩) := by
  have hs := (doLoop_alike coherent_start hp).2 s h
  exact ⟨hs.once,hs.count,hs.freed,fun fd n hfd => ⟨hs.slot fd n hfd,hs.live fd n hfd⟩⟩

set_option maxRecDepth 4000 in
theorem doLoop_contexts_two :
    ∃ s,doLoop here 3 start twoConnections = .ok s ∧ (s.sent.map Prod.fst).Nodup := by
  obtain ⟨s,h⟩ : ∃ s,doLoop here 3 start twoConnections = .ok s := ⟨_,rfl⟩
  exact ⟨s,h,(doLoop_contexts here 3 twoConnections s polled_twoConnections h).1⟩

end TorLoop
end RecycleBin
