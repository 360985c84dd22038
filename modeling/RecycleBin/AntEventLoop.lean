import Mathlib.Data.Finmap
import RecycleBin.AntArray
import RecycleBin.Transition

/-! The connection table of `http_event_loop`: `socks` maps a descriptor to the `http_info`
of its connection. A step is one admission or one event; the acts carry the outcome of the
system calls, in any order. -/
namespace RecycleBin
namespace AntEventLoop
open AntArray

/-- The fields of `struct http_info` the loop works on; `fd` is none for -1. -/
structure HttpInfo (U : Type) where
  fd : Option ℕ
  url : U
  tryNum : ℕ
  deriving DecidableEq

/-- The variables of the loop. `heap` holds the `http_info` objects that are not freed, by
their address. -/
structure Loop (U : Type) where
  socks : Table ℕ
  heap : Finmap fun _ : ℕ => HttpInfo U
  nconn : ℤ
  cacheUrl : List U

/-- The process runs, or it left the loop through `exit`, an assertion or `goto fail`, or it
made an access the language leaves undefined. -/
inductive Outcome (U : Type)
  | running (s : Loop U)
  | ended
  | undefined

/-- `socket` and `connect` fail, or give a descriptor that `epoll_ctl` adds or not. -/
inductive Conn
  | refused
  | connected (fd : ℕ) (added : Bool)
  deriving DecidableEq

/-- An event: EPOLLERR or EPOLLHUP, EPOLLIN with EPOLLOUT, EPOLLOUT alone (where the head is
sent or `do_error` connects anew, and `epoll_ctl` succeeds or not), or EPOLLIN alone (which
ends the download or not). -/
inductive Ready
  | error (conn : Conn)
  | inOut (conn : Conn)
  | out (failed : Option Conn) (modified : Bool)
  | inn (finished : Bool)
  deriving DecidableEq

/-- An admission with the address `malloc` returns, or an event for a descriptor. -/
inductive Act (U : Type)
  | create (p : ℕ) (url : U) (conn : Conn)
  | event (fd : ℕ) (ready : Ready)

variable {U : Type}

namespace Loop

/-- The loop before the first task, with the URLs of the log in the cache. -/
def start (cacheUrl : List U) : Loop U := ⟨antArrayNew 50,∅,0,cacheUrl⟩

/-- The descriptor belongs to a connection. -/
def Open (s : Loop U) (fd : ℕ) : Prop :=
  ∃ p ∈ s.heap.keys,(s.heap.lookup p).bind HttpInfo.fd = some fd

instance (s : Loop U) (fd : ℕ) : Decidable (s.Open fd) :=
  inferInstanceAs (Decidable (∃ p ∈ s.heap.keys,(s.heap.lookup p).bind HttpInfo.fd = some fd))

end Loop

/-- `do_create`, with its success. -/
def doCreate (s : Loop U) (p : ℕ) (http : HttpInfo U) : Conn → Except (Outcome U) (Bool × Loop U)
  | .refused => .ok (false,s)
  | .connected fd added =>
    if fd = 0 then .error .ended
    else
      match antArrayPut s.socks fd p with
      | .ok socks => .ok (added,{ s with
          socks := socks,heap := s.heap.insert p { http with fd := some fd } })
      | .error _ => .error .undefined

/-- `do_error`: close the descriptor and connect anew, at most twice. -/
def doError (s : Loop U) (p : ℕ) (http : HttpInfo U) (conn : Conn) :
    Except (Outcome U) (Bool × Loop U) :=
  match http.fd with
  | none => .error .ended
  | some fd =>
    match antArrayClear s.socks fd with
    | .error _ => .error .ended
    | .ok socks =>
      let http := { http with fd := none,tryNum := http.tryNum+1 }
      if http.tryNum > 2 then .error .ended
      else doCreate { s with socks := socks,heap := s.heap.insert p http } p http conn

/-- `http_clean` and `nconn--`. -/
def httpClean (s : Loop U) (p : ℕ) : Loop U :=
  { s with heap := s.heap.erase p,nconn := s.nconn-1 }

/-- `do_write`: the result of `do_error` is ignored. -/
def doWrite (s : Loop U) (p : ℕ) (http : HttpInfo U) (failed : Option Conn) (modified : Bool) :
    Except (Outcome U) (Loop U) := do
  let s ← match failed with
    | none => pure s
    | some conn => do
      let r ← doError s p http conn
      pure r.2
  if modified then .ok s else .error .ended

section Model
variable [DecidableEq U]

/-- The body of the loop over the events. -/
def handle (s : Loop U) (fd : ℕ) (ready : Ready) : Except (Outcome U) (Loop U) :=
  match antArrayGet s.socks fd with
  | .error _ => .error .ended
  | .ok p =>
    match s.heap.lookup p with
    | none => .error .undefined
    | some http =>
      if http.fd ≠ some fd then .error .ended
      else
        match ready with
        | .error conn => do
          let r ← doError s p http conn
          if r.1 then .ok r.2 else .error .ended
        | ready =>
          if http.url ∈ s.cacheUrl then .ok (httpClean s p)
          else
            match ready with
            | .inOut conn => do
              let r ← doError s p http conn
              .ok r.2
            | .out failed modified => doWrite s p http failed modified
            | .inn finished =>
              if finished then
                match antArrayClear s.socks fd with
                | .error _ => .error .ended
                | .ok socks =>
                  .ok (httpClean { s with socks := socks,cacheUrl := http.url::s.cacheUrl } p)
              else .ok s
            | .error _ => .ok s

end Model

/-- The descriptor a step may open. -/
def Ready.conn : Ready → Option Conn
  | .error conn => some conn
  | .inOut conn => some conn
  | .out failed _ => failed
  | .inn _ => none

/-- `socket` returns a descriptor that is not open; `fd` has just been closed. -/
def Conn.Free (s : Loop U) (fd : Option ℕ) : Conn → Prop
  | .refused => True
  | .connected new _ => some new = fd ∨ ¬s.Open new

instance (s : Loop U) (fd : Option ℕ) : (conn : Conn) → Decidable (conn.Free s fd)
  | .refused => isTrue trivial
  | .connected new _ => inferInstanceAs (Decidable (some new = fd ∨ ¬s.Open new))

def outcome : Except (Outcome U) (Loop U) → Outcome U
  | .ok s => .running s
  | .error o => o

/-- One step: an admission while `nconn` is below the limit, at an address that is not in
use, or an event of an open connection. -/
def exec [DecidableEq U] (maxconn : ℤ) : Act U → Outcome U → Option (Outcome U)
  | .create p url conn, .running s =>
    if s.nconn < maxconn ∧ p ≠ 0 ∧ s.heap.lookup p = none ∧ conn.Free s none then
      let http : HttpInfo U := ⟨none,url,0⟩
      some (outcome do
        let r ← doCreate { s with heap := s.heap.insert p http,nconn := s.nconn+1 } p http conn
        if r.1 then .ok r.2 else .error .ended)
    else none
  | .event fd ready, .running s =>
    if s.Open fd ∧ ∀ conn ∈ ready.conn,conn.Free s (some fd) then some (outcome (handle s fd ready))
    else none
  | _, _ => none

/-- Every entry of the table points to an `http_info` that is not freed and has the entry's
index as its descriptor, and `nconn` counts the objects that are not freed. -/
structure Loop.Consistent (s : Loop U) : Prop where
  entries : ∀ fd p,s.socks.array[fd]? = some p → p ≠ 0 →
    ∃ http,s.heap.lookup p = some http ∧ http.fd = some fd
  count : s.nconn = s.heap.keys.card

def Outcome.Consistent : Outcome U → Prop
  | .running s => s.Consistent
  | .ended => True
  | .undefined => False

/-- The table can be expanded to the new descriptor. -/
def Conn.Fits (s : Loop U) : Conn → Prop
  | .refused => True
  | .connected fd _ => AntArray.Fits s.socks.array.length fd

/-- No event other than an error meets a connection whose URL is in the cache, and the
table can be expanded to each new descriptor. -/
def Regular : Act U → Outcome U → Prop
  | .create _ _ conn, .running s => conn.Fits s
  | .event fd ready, .running s =>
    ((∃ conn,ready = .error conn) ∨
      ∀ p http,s.heap.lookup p = some http → http.fd = some fd → http.url ∉ s.cacheUrl) ∧
        ∀ conn ∈ ready.conn,conn.Fits s
  | _, _ => True

/-- The invariant of the loop: the table and the descriptors determine each other. -/
structure Loop.Inv (s : Loop U) : Prop extends s.Consistent where
  registered : ∀ p http fd,s.heap.lookup p = some http → http.fd = some fd →
    s.socks.array[fd]? = some p
  nonzero : s.heap.lookup 0 = none

def Outcome.Inv : Outcome U → Prop
  | .running s => s.Inv
  | .ended => True
  | .undefined => False

theorem Loop.open_iff {s : Loop U} {fd : ℕ} :
    s.Open fd ↔ ∃ p http,s.heap.lookup p = some http ∧ http.fd = some fd := by
  constructor
  · rintro ⟨p,_,hp⟩
    obtain ⟨http,hl,hfd⟩ := Option.bind_eq_some_iff.mp hp
    exact ⟨p,http,hl,hfd⟩
  · rintro ⟨p,http,hl,hfd⟩
    refine ⟨p,?_,Option.bind_eq_some_iff.mpr ⟨http,hl,hfd⟩⟩
    rw [Finmap.mem_keys,← Finmap.lookup_isSome,hl]
    rfl

theorem keys_insert_of_lookup {heap : Finmap fun _ : ℕ => HttpInfo U} {p : ℕ} {http : HttpInfo U}
    (hl : heap.lookup p = some http) (new : HttpInfo U) : (heap.insert p new).keys = heap.keys := by
  ext q
  rw [Finmap.mem_keys,Finmap.mem_keys,Finmap.mem_insert]
  constructor
  · rintro (rfl | hq)
    · rw [← Finmap.lookup_isSome,hl]
      rfl
    · exact hq
  · exact .inr

namespace Loop.Inv
variable {s : Loop U} {p fd : ℕ} {http : HttpInfo U}

theorem start (cacheUrl : List U) : (Loop.start cacheUrl).Inv where
  entries fd p hp h0 := by
    simp only [Loop.start,antArrayNew,List.getElem?_replicate,Option.ite_none_right_eq_some,
      Option.some.injEq] at hp
    exact absurd hp.2.symm h0
  count := rfl
  registered p http fd hl := by simp [Loop.start] at hl
  nonzero := by simp [Loop.start]

/-- A new object is not connected yet. -/
theorem alloc (h : s.Inv) (hp : p ≠ 0) (hl : s.heap.lookup p = none) (url : U) :
    Inv { s with heap := s.heap.insert p ⟨none,url,0⟩,nconn := s.nconn+1 } where
  entries i q hq h0 := by
    obtain ⟨http,hlq,hfd⟩ := h.entries i q hq h0
    have hne : q ≠ p := by
      rintro rfl
      rw [hl] at hlq
      cases hlq
    exact ⟨http,by rw [Finmap.lookup_insert_of_ne _ hne,hlq],hfd⟩
  count := by
    have hkeys : (s.heap.insert p ⟨none,url,0⟩).keys = insert p s.heap.keys := by
      ext q
      simp [Finmap.mem_keys,Finmap.mem_insert]
    have hnew : p ∉ s.heap.keys := by rwa [Finmap.mem_keys,← Finmap.lookup_eq_none]
    change s.nconn+1 = _
    rw [hkeys,Finset.card_insert_of_notMem hnew,h.count]
    push_cast
    rfl
  registered q http i hlq hfd := by
    by_cases hq : q = p
    · subst hq
      rw [Finmap.lookup_insert] at hlq
      cases hlq
      cases hfd
    · rw [Finmap.lookup_insert_of_ne _ hq] at hlq
      exact h.registered q http i hlq hfd
  nonzero := by rw [Finmap.lookup_insert_of_ne _ hp.symm,h.nonzero]

/-- An object that is not connected gets a free descriptor. -/
theorem connect (h : s.Inv) (hl : s.heap.lookup p = some http) (hnone : http.fd = none)
    (hopen : ¬s.Open fd) {socks : Table ℕ} (hput : antArrayPut s.socks fd p = .ok socks) :
    Inv { s with socks := socks,heap := s.heap.insert p { http with fd := some fd } } where
  entries i q hq h0 := by
    change socks.array[i]? = some q at hq
    rw [getElem?_antArrayPut hput] at hq
    split_ifs at hq with hi hlt hlen
    · cases hq
      exact ⟨_,Finmap.lookup_insert _,by rw [hi]⟩
    · obtain ⟨http',hlq,hfd⟩ := h.entries i q hq h0
      have hne : q ≠ p := by
        rintro rfl
        rw [hl] at hlq
        cases hlq
        rw [hnone] at hfd
        cases hfd
      exact ⟨http',by rw [Finmap.lookup_insert_of_ne _ hne,hlq],hfd⟩
    · cases hq
      exact absurd rfl h0
  count := by
    change s.nconn = _
    rw [keys_insert_of_lookup hl,h.count]
  registered q http' i hlq hfd := by
    change socks.array[i]? = some q
    rw [getElem?_antArrayPut hput]
    by_cases hq : q = p
    · subst hq
      rw [Finmap.lookup_insert] at hlq
      cases hlq
      cases hfd
      rw [if_pos rfl]
    · rw [Finmap.lookup_insert_of_ne _ hq] at hlq
      have hne : i ≠ fd := by
        rintro rfl
        exact hopen (Loop.open_iff.mpr ⟨q,http',hlq,hfd⟩)
      have hold := h.registered q http' i hlq hfd
      have hlt : i < s.socks.array.length := (List.getElem?_eq_some_iff.mp hold).1
      rw [if_neg hne,if_pos hlt,hold]
  nonzero := by
    have hp : p ≠ 0 := by
      rintro rfl
      rw [h.nonzero] at hl
      cases hl
    rw [Finmap.lookup_insert_of_ne _ hp.symm,h.nonzero]

/-- Clearing the entry of a connection, whose descriptor is closed. -/
theorem disconnect (h : s.Inv) (hl : s.heap.lookup p = some http) (hfd : http.fd = some fd)
    {socks : Table ℕ} (hclear : antArrayClear s.socks fd = .ok socks) {new : HttpInfo U}
    (hnew : new.fd = none) : Inv { s with socks := socks,heap := s.heap.insert p new } where
  entries i q hq h0 := by
    change socks.array[i]? = some q at hq
    rw [getElem?_antArrayClear hclear] at hq
    split_ifs at hq with hi
    · cases hq
      exact absurd rfl h0
    · obtain ⟨http',hlq,hfdq⟩ := h.entries i q hq h0
      have hne : q ≠ p := by
        rintro rfl
        rw [hl] at hlq
        cases hlq
        rw [hfd] at hfdq
        cases hfdq
        exact hi rfl
      exact ⟨http',by rw [Finmap.lookup_insert_of_ne _ hne,hlq],hfdq⟩
  count := by
    change s.nconn = _
    rw [keys_insert_of_lookup hl,h.count]
  registered q http' i hlq hfdq := by
    change socks.array[i]? = some q
    by_cases hq : q = p
    · subst hq
      rw [Finmap.lookup_insert] at hlq
      cases hlq
      rw [hnew] at hfdq
      cases hfdq
    · rw [Finmap.lookup_insert_of_ne _ hq] at hlq
      have hold := h.registered q http' i hlq hfdq
      have hne : i ≠ fd := by
        rintro rfl
        have hp := h.registered p http i hl hfd
        rw [hold] at hp
        cases hp
        exact hq rfl
      rw [getElem?_antArrayClear hclear,if_neg hne,hold]
  nonzero := by
    have hp : p ≠ 0 := by
      rintro rfl
      rw [h.nonzero] at hl
      cases hl
    rw [Finmap.lookup_insert_of_ne _ hp.symm,h.nonzero]

/-- Freeing an object that no entry points to. -/
theorem free (h : s.Inv) (hl : s.heap.lookup p = some http) (hnone : http.fd = none) :
    Inv (httpClean s p) where
  entries i q hq h0 := by
    obtain ⟨http',hlq,hfd⟩ := h.entries i q hq h0
    have hne : q ≠ p := by
      rintro rfl
      rw [hl] at hlq
      cases hlq
      rw [hnone] at hfd
      cases hfd
    exact ⟨http',by rw [httpClean,Finmap.lookup_erase_ne hne,hlq],hfd⟩
  count := by
    have hmem : p ∈ s.heap.keys := by
      rw [Finmap.mem_keys,← Finmap.lookup_isSome,hl]
      rfl
    have hpos : 0 < s.heap.keys.card := Finset.card_pos.mpr ⟨p,hmem⟩
    change s.nconn-1 = ((s.heap.erase p).keys.card : ℤ)
    rw [Finmap.keys_erase,Finset.card_erase_of_mem hmem,h.count]
    omega
  registered q http' i hlq hfd := by
    change (s.heap.erase p).lookup q = some http' at hlq
    by_cases hq : q = p
    · subst hq
      rw [Finmap.lookup_erase] at hlq
      cases hlq
    · rw [Finmap.lookup_erase_ne hq] at hlq
      exact h.registered q http' i hlq hfd
  nonzero := by
    change (s.heap.erase p).lookup 0 = none
    by_cases hp : (0 : ℕ) = p
    · subst hp
      exact Finmap.lookup_erase _ _
    · rw [Finmap.lookup_erase_ne hp,h.nonzero]

/-- `ant_array_clear` and `http_clean` of a connection. -/
theorem complete (h : s.Inv) (hl : s.heap.lookup p = some http) (hfd : http.fd = some fd)
    {socks : Table ℕ} (hclear : antArrayClear s.socks fd = .ok socks) (cacheUrl : List U) :
    Inv (httpClean { s with socks := socks,cacheUrl := cacheUrl } p) := by
  have hnone : ({ http with fd := none } : HttpInfo U).fd = none := rfl
  have hdis := h.disconnect hl hfd hclear hnone
  have hfree := hdis.free (Finmap.lookup_insert _) rfl
  have herase : (s.heap.insert p { http with fd := none }).erase p = s.heap.erase p := by
    apply Finmap.ext_lookup
    intro q
    by_cases hq : q = p
    · subst hq
      rw [Finmap.lookup_erase,Finmap.lookup_erase]
    · rw [Finmap.lookup_erase_ne hq,Finmap.lookup_erase_ne hq,Finmap.lookup_insert_of_ne _ hq]
  have hheap : (httpClean { s with
      socks := socks,heap := s.heap.insert p { http with fd := none } } p).heap =
        (httpClean { s with socks := socks,cacheUrl := cacheUrl } p).heap := herase
  constructor
  · constructor
    · rw [← hheap]
      exact hfree.entries
    · rw [← hheap]
      exact hfree.count
  · rw [← hheap]
    exact hfree.registered
  · rw [← hheap]
    exact hfree.nonzero

end Loop.Inv

section Steps
variable {s : Loop U} {p fd : ℕ} {http : HttpInfo U} {conn : Conn}

/-- `do_create` keeps the invariant, and makes no undefined access. -/
theorem doCreate_inv (h : s.Inv) (hl : s.heap.lookup p = some http) (hnone : http.fd = none)
    (hfree : ∀ new added,conn = .connected new added → ¬s.Open new) (hfit : conn.Fits s) :
    (∃ b t,doCreate s p http conn = .ok (b,t) ∧ t.Inv) ∨ doCreate s p http conn = .error .ended := by
  cases conn with
  | refused => exact .inl ⟨false,s,rfl,h⟩
  | connected new added =>
    by_cases h0 : new = 0
    · exact .inr (by rw [doCreate,if_pos h0])
    · obtain ⟨ncurr,hput⟩ := antArrayPut_eq (a := s.socks) (e := p) hfit
      refine .inl ⟨added,_,?_,h.connect hl hnone (hfree new added rfl) hput⟩
      rw [doCreate,if_neg h0,hput]

/-- So does `do_error`, when the new descriptor is free once the old one is closed. -/
theorem doError_inv (h : s.Inv) (hl : s.heap.lookup p = some http) (hfd : http.fd = some fd)
    (hfree : conn.Free s (some fd)) (hfit : conn.Fits s) :
    (∃ b t,doError s p http conn = .ok (b,t) ∧ t.Inv) ∨ doError s p http conn = .error .ended := by
  have hreg := h.registered p http fd hl hfd
  have hlt : fd < s.socks.array.length := (List.getElem?_eq_some_iff.mp hreg).1
  have hclear : antArrayClear s.socks fd = .ok ⟨s.socks.array.set fd 0,s.socks.ncurr-1⟩ := by
    rw [antArrayClear,if_pos hlt]
  by_cases htry : http.tryNum+1 > 2
  · refine .inr ?_
    simp only [doError,hfd,hclear,if_pos htry]
  · have hnone : ({ http with fd := none,tryNum := http.tryNum+1 } : HttpInfo U).fd = none := rfl
    have hdis := h.disconnect hl hfd hclear hnone
    have heq : doError s p http conn = doCreate { s with
        socks := ⟨s.socks.array.set fd 0,s.socks.ncurr-1⟩
        heap := s.heap.insert p { http with fd := none,tryNum := http.tryNum+1 } } p
          { http with fd := none,tryNum := http.tryNum+1 } conn := by
      simp only [doError,hfd,hclear,if_neg htry]
    rw [heq]
    apply doCreate_inv hdis (Finmap.lookup_insert _) rfl
    · rintro new added rfl
      intro hopen
      obtain ⟨q,http',hq,hfdq⟩ := Loop.open_iff.mp hopen
      have hne : q ≠ p := by
        rintro rfl
        rw [Finmap.lookup_insert] at hq
        cases hq
        cases hfdq
      rw [Finmap.lookup_insert_of_ne _ hne] at hq
      rcases hfree with hsame | hnot
      · cases hsame
        have hold := h.registered q http' fd hq hfdq
        rw [hreg] at hold
        cases hold
        exact hne rfl
      · exact hnot (Loop.open_iff.mpr ⟨q,http',hq,hfdq⟩)
    · cases conn with
      | refused => trivial
      | connected new added => simpa [Conn.Fits] using hfit

theorem doWrite_inv (h : s.Inv) (hl : s.heap.lookup p = some http) (hfd : http.fd = some fd)
    {failed : Option Conn} (hfree : ∀ conn ∈ failed,conn.Free s (some fd))
    (hfit : ∀ conn ∈ failed,conn.Fits s) (modified : Bool) :
    (outcome (doWrite s p http failed modified)).Inv := by
  have hend : ∀ t : Loop U,t.Inv →
      (outcome (if modified then .ok t else .error .ended)).Inv := by
    intro t ht
    split_ifs
    · exact ht
    · trivial
  cases failed with
  | none => exact hend s h
  | some conn =>
    rcases doError_inv h hl hfd (hfree conn rfl) (hfit conn rfl) with ⟨b,t,he,ht⟩ | he
    · simp only [doWrite,he,ok_bind,pure_eq_ok]
      exact hend t ht
    · simp only [doWrite,he,error_bind]
      trivial

variable [DecidableEq U]

/-- An event of an open connection keeps the invariant, if it is an error or the URL is not
in the cache. -/
theorem handle_inv (h : s.Inv) {ready : Ready} (hl : s.heap.lookup p = some http)
    (hfd : http.fd = some fd) (hfree : ∀ conn ∈ ready.conn,conn.Free s (some fd))
    (hfit : ∀ conn ∈ ready.conn,conn.Fits s)
    (hcache : (∃ conn,ready = .error conn) ∨ http.url ∉ s.cacheUrl) :
    (outcome (handle s fd ready)).Inv := by
  have hreg := h.registered p http fd hl hfd
  have hget : antArrayGet s.socks fd = .ok p := by rw [antArrayGet,hreg]
  have hlt : fd < s.socks.array.length := (List.getElem?_eq_some_iff.mp hreg).1
  simp only [handle,hget,hl,hfd,ne_eq,not_true_eq_false,if_false]
  cases ready with
  | error conn =>
    rcases doError_inv h hl hfd (hfree conn rfl) (hfit conn rfl) with ⟨b,t,he,ht⟩ | he
    · simp only [he,ok_bind]
      cases b
      · trivial
      · exact ht
    · simp only [he,error_bind]
      trivial
  | inOut conn =>
    have hnot : http.url ∉ s.cacheUrl := hcache.resolve_left (by simp)
    simp only [if_neg hnot]
    rcases doError_inv h hl hfd (hfree conn rfl) (hfit conn rfl) with ⟨b,t,he,ht⟩ | he
    · simp only [he,ok_bind]
      exact ht
    · simp only [he,error_bind]
      trivial
  | out failed modified =>
    have hnot : http.url ∉ s.cacheUrl := hcache.resolve_left (by simp)
    simp only [if_neg hnot]
    exact doWrite_inv h hl hfd hfree hfit modified
  | inn finished =>
    have hnot : http.url ∉ s.cacheUrl := hcache.resolve_left (by simp)
    have hclear : antArrayClear s.socks fd = .ok ⟨s.socks.array.set fd 0,s.socks.ncurr-1⟩ := by
      rw [antArrayClear,if_pos hlt]
    simp only [if_neg hnot]
    cases finished with
    | false => exact h
    | true =>
      simp only [if_true,hclear]
      exact h.complete hl hfd hclear (http.url::s.cacheUrl)

/-- One regular step keeps the invariant. -/
theorem exec_inv {maxconn : ℤ} {o t : Outcome U} {a : Act U} (h : o.Inv) (hg : Regular a o)
    (he : exec maxconn a o = some t) : t.Inv := by
  cases o with
  | ended => cases a <;> cases he
  | undefined => cases h
  | running s =>
    cases a with
    | create p url conn =>
      simp only [exec] at he
      split_ifs at he with hc
      cases he
      obtain ⟨_,hp,hl,hconn⟩ := hc
      have halloc : Loop.Inv { s with heap := s.heap.insert p ⟨none,url,0⟩,nconn := s.nconn+1 } :=
        Loop.Inv.alloc h hp hl url
      have hfree : ∀ new added,conn = .connected new added →
          ¬Loop.Open { s with heap := s.heap.insert p ⟨none,url,0⟩,nconn := s.nconn+1 } new := by
        rintro new added rfl hopen
        obtain ⟨q,http',hq,hfdq⟩ := Loop.open_iff.mp hopen
        have hne : q ≠ p := by
          rintro rfl
          rw [Finmap.lookup_insert] at hq
          cases hq
          cases hfdq
        rw [Finmap.lookup_insert_of_ne _ hne] at hq
        rcases hconn with hnone | hnot
        · cases hnone
        · exact hnot (Loop.open_iff.mpr ⟨q,http',hq,hfdq⟩)
      have hfit : conn.Fits { s with heap := s.heap.insert p ⟨none,url,0⟩,nconn := s.nconn+1 } := by
        cases conn with
        | refused => trivial
        | connected new added => exact hg
      rcases doCreate_inv halloc (Finmap.lookup_insert _) rfl hfree hfit with ⟨b,u,hu,hi⟩ | hu
      · simp only [hu,ok_bind]
        cases b
        · trivial
        · exact hi
      · simp only [hu,error_bind]
        trivial
    | event fd ready =>
      simp only [exec] at he
      split_ifs at he with hc
      cases he
      obtain ⟨p,http,hl,hfd⟩ := Loop.open_iff.mp hc.1
      exact handle_inv h hl hfd hc.2 hg.2 (hg.1.imp_right fun hn => hn p http hl hfd)

end Steps

/-- The connection table in every run of regular steps. -/
theorem consistent_of_regular [DecidableEq U] {maxconn : ℤ} {cacheUrl : List U} {o : Outcome U}
    (h : Reach (.running (.start cacheUrl)) (Via Regular (exec maxconn)) o) : o.Consistent := by
  have hinv : o.Inv := by
    apply h.invariant (I := Outcome.Inv)
      (show Outcome.Inv (.running (.start cacheUrl)) from Loop.Inv.start cacheUrl)
    rintro s t hs ⟨a,hg,he⟩
    exact exec_inv hs hg he
  cases o with
  | running s => exact Loop.Inv.toConsistent hinv
  | ended => trivial
  | undefined => exact hinv

/-- A connection whose URL is in the cache is freed with its entry left in the table. -/
theorem not_consistent_of_cached [DecidableEq U] {s : Loop U} (h : s.Inv) {p fd : ℕ}
    {http : HttpInfo U} (hl : s.heap.lookup p = some http) (hfd : http.fd = some fd)
    (hcache : http.url ∈ s.cacheUrl) {ready : Ready} (hr : ∀ conn,ready ≠ .error conn) :
    ¬(outcome (handle s fd ready)).Consistent := by
  have hreg := h.registered p http fd hl hfd
  have hget : antArrayGet s.socks fd = .ok p := by rw [antArrayGet,hreg]
  have hp : p ≠ 0 := by
    rintro rfl
    rw [h.nonzero] at hl
    cases hl
  have hclean : handle s fd ready = .ok (httpClean s p) := by
    simp only [handle,hget,hl,hfd,ne_eq,not_true_eq_false,if_false]
    cases ready with
    | error conn => exact absurd rfl (hr conn)
    | _ => simp only [if_pos hcache]
  rw [hclean]
  intro hc
  obtain ⟨http',hl',_⟩ := hc.entries fd p hreg hp
  change (s.heap.erase p).lookup p = some http' at hl'
  rw [Finmap.lookup_erase] at hl'
  cases hl'

/-- A descriptor the expansion misses is written behind the table. -/
theorem doCreate_undefined {s : Loop U} {p new : ℕ} {http : HttpInfo U} {added : Bool}
    (h0 : new ≠ 0) (hfit : ¬Conn.Fits s (.connected new added)) :
    doCreate s p http (.connected new added) = .error .undefined := by
  rw [doCreate,if_neg h0,antArrayPut_undefined hfit]

/-- One download from its admission to its end. -/
theorem consistent_of_regular_download :
    ∃ s : Loop ℕ,Reach (.running (.start [])) (Via Regular (exec 10)) (.running s) ∧
      s.cacheUrl = [7] ∧ Outcome.Consistent (.running s) := by
  have hcreate : Regular (.create 1 7 (.connected 5 true)) (.running (Loop.start ([] : List ℕ))) := by
    change AntArray.Fits 50 5
    decide
  have h₁ : Reach (.running (.start [])) (Via Regular (exec 10)) _ :=
    .next .start ⟨.create 1 7 (.connected 5 true),hcreate,rfl⟩
  have h₂ := Reach.next h₁ ⟨.event 5 (.inn true),⟨.inr fun _ _ _ _ => List.not_mem_nil,by simp [Ready.conn]⟩,rfl⟩
  exact ⟨_,h₂,rfl,consistent_of_regular h₂⟩

/-- A URL of the log, admitted and ready to be written to. -/
theorem not_consistent_logged :
    ¬∀ (maxconn : ℤ) (cacheUrl : List ℕ) (o : Outcome ℕ),
      Reach (.running (.start cacheUrl)) (Via (fun _ _ => True) (exec maxconn)) o →
        o.Consistent := by
  intro h
  have h₁ : Reach (.running (.start [7])) (Via (fun _ _ => True) (exec 10)) _ :=
    .next .start ⟨.create 1 7 (.connected 5 true),trivial,rfl⟩
  have h₂ := Reach.next h₁ ⟨.event 5 (.out none true),trivial,rfl⟩
  obtain ⟨http,hl,_⟩ := (h 10 [7] _ h₂).entries 5 1 rfl one_ne_zero
  cases hl

end AntEventLoop
end RecycleBin
