import RecycleBin.Refinement

/-! A connected socket, and the reads of `ant_socket.c` on it. What the peer sends arrives
in segments; a segment that is not there yet arrives while a call waits for it. -/
namespace RecycleBin
namespace AntSocket

abbrev Bytes := List UInt8

/-- What happens to a socket next: the segment `b::bs` arrives, or nothing for longer than
the timeout of a `select`, or the connection fails. -/
inductive Arrival
  | data (b : UInt8) (bs : Bytes)
  | pause
  | error
  deriving DecidableEq

/-- A socket with the bytes that can be read, and what is to come. `closed` says if the peer
closes the connection after that. -/
structure Sock where
  buffer : Bytes
  arrivals : List Arrival
  closed : Bool
  deriving DecidableEq

/-- Why a call did not return: a fault, or it waits for data that never comes. -/
inductive Stop
  | fault (f : Fault)
  | blocked
  deriving DecidableEq

def ofFault {α : Type} : Except Fault α → Except Stop α
  | .ok a => .ok a
  | .error f => .error (.fault f)

theorem ofFault_eq_ok {α : Type} {x : Except Fault α} {a : α} : ofFault x = .ok a ↔ x = .ok a := by
  cases x <;> simp [ofFault]

/-! ### System calls -/

/-- The result of `recv`: bytes, none of them at the end of the stream, or -1 with EAGAIN or
with another error. -/
inductive Recv
  | bytes (bs : Bytes)
  | again
  | failed
  deriving DecidableEq

/-- A `recv` that finds no bytes. -/
def recvEmpty (s : Sock) : Recv × Sock :=
  match s.arrivals with
  | .error::rest => (.failed,{ s with arrivals := rest })
  | [] => (if s.closed then .bytes [] else .again,s)
  | _ => (.again,s)

/-- `recv` of up to `n` bytes. -/
def recv (s : Sock) (n : ℕ) : Recv × Sock :=
  if s.buffer = [] then recvEmpty s
  else (.bytes (s.buffer.take n),{ s with buffer := s.buffer.drop n })

/-- `recv` with MSG_PEEK. -/
def peek (s : Sock) (n : ℕ) : Recv × Sock :=
  if s.buffer = [] then recvEmpty s else (.bytes (s.buffer.take n),s)

/-- What `select` without a timeout waits for. -/
def selectFrom (closed : Bool) : List Arrival → Except Stop Sock
  | [] => if closed then .ok ⟨[],[],closed⟩ else .error .blocked
  | .data b bs::rest => .ok ⟨b::bs,rest,closed⟩
  | .pause::rest => selectFrom closed rest
  | .error::rest => .ok ⟨[],.error::rest,closed⟩

/-- `select` without a timeout. -/
def select (s : Sock) : Except Stop Sock :=
  if s.buffer = [] then selectFrom s.closed s.arrivals else .ok s

/-- `select` with a timeout: whether the socket is ready. -/
def selectTimeout (s : Sock) : Bool × Sock :=
  if s.buffer = [] then
    match s.arrivals with
    | [] => (s.closed,s)
    | .data b bs::rest => (true,⟨b::bs,rest,s.closed⟩)
    | .pause::rest => (false,{ s with arrivals := rest })
    | .error::_ => (true,s)
  else (true,s)

/-! ### Reads -/

/-- `sock_read`; MSG_PEEK is the only flag it is called with. -/
def sockRead (s : Sock) (n : ℕ) : Except Stop (Recv × Sock) := do
  let s ← select s
  pure (peek s n)

/-- The result of `readn_block` and `readn_nonblock`: the bytes read, none of them missing or
the peer having closed; the bytes read before a timeout; or -1. -/
inductive Read
  | bytes (bs : Bytes)
  | timeout (bs : Bytes)
  | failed
  deriving DecidableEq

/-- The loop of the two, over how they wait: `cnt` bytes are missing behind `bp`. -/
def readn (wait : Sock → Except Stop (Bool × Sock)) : ℕ → Sock → ℕ → Bytes →
    Except Stop (Read × Sock)
  | _, s, 0, bp => .ok (.bytes bp,s)
  | 0, _, _, _ => .error (.fault .exhausted)
  | n+1, s, cnt, bp =>
    match recv s cnt with
    | (.failed,s) => .ok (.failed,s)
    | (.bytes [],s) => .ok (.bytes bp,s)
    | (.bytes bs,s) => readn wait n s (cnt-bs.length) (bp++bs)
    | (.again,s) => do
      match ← wait s with
      | (true,s) => readn wait n s cnt bp
      | (false,s) => .ok (.timeout bp,s)

def waitBlock (s : Sock) : Except Stop (Bool × Sock) := do
  let s ← select s
  pure (true,s)

def waitNonblock (s : Sock) : Except Stop (Bool × Sock) := .ok (selectTimeout s)

/-- The passes either loop can take: one for what is there, two for each arrival. -/
def Sock.passes (s : Sock) : ℕ := 2*s.arrivals.length+2

def readnBlock (s : Sock) (len : ℕ) : Except Stop (Read × Sock) :=
  readn waitBlock s.passes s len []

def readnNonblock (s : Sock) (len : ℕ) : Except Stop (Read × Sock) :=
  readn waitNonblock s.passes s len []

/-- The next segment arrives. -/
def deliverFrom (buffer : Bytes) (closed : Bool) : List Arrival → Option Sock
  | [] => none
  | .data b bs::rest => some ⟨buffer++b::bs,rest,closed⟩
  | .pause::rest => deliverFrom buffer closed rest
  | .error::_ => none

def Sock.deliver (s : Sock) : Option Sock := deliverFrom s.buffer s.closed s.arrivals

/-! ### The stream -/

/-- The segments to come. -/
def segments : List Arrival → List Bytes
  | [] => []
  | .data b bs::rest => (b::bs)::segments rest
  | .pause::rest => segments rest
  | .error::rest => segments rest

/-- The bytes to be read, and to come. -/
def Sock.stream (s : Sock) : Bytes := s.buffer++(segments s.arrivals).flatten

/-- Of the bytes from position `p` on, those in the segment of the first one. -/
def availFrom : List Bytes → ℕ → ℕ
  | [], _ => 0
  | seg::segs, p => if p < seg.length then seg.length-p else availFrom segs (p-seg.length)

def Sock.avail (s : Sock) (p : ℕ) : ℕ := availFrom (s.buffer::segments s.arrivals) p

/-- The connection does not fail. -/
def Sock.Sound (s : Sock) : Prop := Arrival.error ∉ s.arrivals

instance (s : Sock) : Decidable s.Sound := inferInstanceAs (Decidable (Arrival.error ∉ s.arrivals))

theorem availFrom_nil (segs : List Bytes) (p : ℕ) : availFrom ([]::segs) p = availFrom segs p := rfl

theorem availFrom_drop {seg : Bytes} {k : ℕ} (hk : k ≤ seg.length) (segs : List Bytes) (p : ℕ) :
    availFrom (seg.drop k::segs) p = availFrom (seg::segs) (k+p) := by
  rw [availFrom,availFrom,List.length_drop]
  by_cases h : k+p < seg.length
  · rw [if_pos h,if_pos (by omega)]
    omega
  · rw [if_neg h,if_neg (by omega)]
    congr 1
    omega

/-- `t` is `s` with the first `k` bytes read. -/
structure Skips (s : Sock) (k : ℕ) (t : Sock) : Prop where
  le : k ≤ s.stream.length
  stream : t.stream = s.stream.drop k
  avail : ∀ p,t.avail p = s.avail (k+p)
  arrivals : t.arrivals <:+ s.arrivals

namespace Skips
variable {s t u : Sock} {j k : ℕ}

theorem refl (s : Sock) : Skips s 0 s :=
  ⟨Nat.zero_le _,rfl,fun p => by rw [Nat.zero_add],List.suffix_rfl⟩

theorem trans (h : Skips s j t) (h' : Skips t k u) : Skips s (j+k) u where
  le := by
    have hle := h'.le
    rw [h.stream,List.length_drop] at hle
    have := h.le
    omega
  stream := by rw [h'.stream,h.stream,List.drop_drop]
  avail p := by rw [h'.avail,h.avail,Nat.add_assoc]
  arrivals := h'.arrivals.trans h.arrivals

theorem sound (h : Skips s k t) (hs : s.Sound) : t.Sound := fun he => hs (h.arrivals.subset he)

/-- The bytes read, and those of a read behind them. -/
theorem take_add (h : Skips s j t) : s.stream.take (j+k) = s.stream.take j++t.stream.take k := by
  rw [List.take_add,h.stream]

end Skips

/-! ### What the calls read -/

section Calls
variable {s : Sock}

/-- A segment that arrives after the buffer is used up. -/
theorem skips_data {b : UInt8} {bs : Bytes} {rest : List Arrival} (hb : s.buffer = [])
    (ha : s.arrivals = .data b bs::rest) : Skips s 0 ⟨b::bs,rest,s.closed⟩ where
  le := Nat.zero_le _
  stream := by
    simp only [Sock.stream,hb,ha,segments,List.flatten_cons,List.nil_append]
    rfl
  avail p := by
    simp only [Sock.avail,hb,ha,segments,availFrom_nil,Nat.zero_add]
  arrivals := by
    rw [ha]
    exact List.suffix_cons _ _

theorem skips_pause {rest : List Arrival} (ha : s.arrivals = .pause::rest) :
    Skips s 0 { s with arrivals := rest } where
  le := Nat.zero_le _
  stream := by
    simp only [Sock.stream,ha,segments]
    rfl
  avail p := by
    simp only [Sock.avail,ha,segments,Nat.zero_add]
  arrivals := by
    rw [ha]
    exact List.suffix_cons _ _

/-- A `recv` of bytes that are there. -/
theorem recv_buffer (hb : s.buffer ≠ []) (n : ℕ) :
    ∃ t,recv s n = (.bytes (s.buffer.take n),t) ∧ Skips s (min n s.buffer.length) t ∧
      t.buffer = s.buffer.drop n ∧ t.arrivals = s.arrivals := by
  have hdrop : s.buffer.drop n = s.buffer.drop (min n s.buffer.length) := by
    by_cases h : n ≤ s.buffer.length
    · rw [Nat.min_eq_left h]
    · rw [List.drop_of_length_le (by omega),List.drop_of_length_le (by omega)]
  have hmin : min n s.buffer.length ≤ s.buffer.length := Nat.min_le_right _ _
  refine ⟨_,if_neg hb,⟨?_,?_,?_,List.suffix_rfl⟩,rfl,rfl⟩
  · rw [Sock.stream,List.length_append]
    omega
  · simp only [Sock.stream]
    rw [hdrop,List.drop_append_of_le_length hmin]
  · intro p
    simp only [Sock.avail]
    rw [hdrop,availFrom_drop hmin]

/-- `select` passes over pauses to the segment they delay. -/
theorem select_data (as : List Arrival) : ∀ {s : Sock},s.arrivals = as → s.Sound → s.buffer = [] →
    s.stream ≠ [] → ∃ t,select s = .ok t ∧ Skips s 0 t ∧ t.buffer ≠ [] ∧
      t.arrivals.length < s.arrivals.length := by
  induction as with
  | nil =>
    intro s ha _ hb hne
    simp only [Sock.stream,hb,ha,segments,List.flatten_nil,List.append_nil] at hne
    exact absurd rfl hne
  | cons a as ih =>
    intro s ha hs hb hne
    cases a with
    | data b bs =>
      refine ⟨_,?_,skips_data hb ha,List.cons_ne_nil _ _,?_⟩
      · rw [select,if_pos hb,ha]
        rfl
      · rw [ha]
        exact Nat.lt_succ_self _
    | pause =>
      have hskip := skips_pause ha
      have hstream : ({ s with arrivals := as } : Sock).stream ≠ [] := by
        rw [hskip.stream]
        exact hne
      obtain ⟨t,ht,hskip',hbuf,hlt⟩ := ih (s := { s with arrivals := as }) rfl (hskip.sound hs) hb hstream
      refine ⟨t,?_,hskip.trans hskip',hbuf,?_⟩
      · rw [select,if_pos hb] at ht ⊢
        rw [ha]
        exact ht
      · rw [ha]
        exact Nat.lt_succ_of_lt hlt
    | error => exact absurd (by rw [ha]; exact List.mem_cons_self) hs

/-- A segment that arrives adds nothing to the stream. -/
theorem deliverFrom_some {buffer : Bytes} {closed : Bool} (as : List Arrival) : ∀ {t : Sock},
    deliverFrom buffer closed as = some t → t.stream = buffer++(segments as).flatten ∧
      t.arrivals <:+ as ∧ t.arrivals.length < as.length ∧
        (buffer = [] → ∀ p,t.avail p = availFrom (segments as) p) := by
  induction as with
  | nil => exact fun h => nomatch h
  | cons a as ih =>
    intro t h
    cases a with
    | data b bs =>
      cases h
      refine ⟨?_,List.suffix_cons _ _,Nat.lt_succ_self _,?_⟩
      · simp only [Sock.stream,segments,List.flatten_cons,List.append_assoc]
      · intro hb p
        rw [hb]
        rfl
    | pause =>
      obtain ⟨hstream,hsuffix,hlt,havail⟩ := ih h
      exact ⟨hstream,hsuffix.trans (List.suffix_cons _ _),Nat.lt_succ_of_lt hlt,havail⟩
    | error => cases h

theorem deliver_stream {t : Sock} (h : s.deliver = some t) : t.stream = s.stream :=
  (deliverFrom_some _ h).1

/-- A segment that arrives after the buffer is used up. -/
theorem deliver_skips {t : Sock} (hb : s.buffer = []) (h : s.deliver = some t) :
    Skips s 0 t ∧ t.arrivals.length < s.arrivals.length := by
  obtain ⟨hstream,hsuffix,hlt,havail⟩ := deliverFrom_some _ h
  refine ⟨⟨Nat.zero_le _,hstream,fun p => ?_,hsuffix⟩,hlt⟩
  rw [havail hb,Sock.avail,hb,availFrom_nil,Nat.zero_add]

theorem deliver_data (as : List Arrival) : ∀ {s : Sock},s.arrivals = as → s.Sound →
    segments as ≠ [] → ∃ t,s.deliver = some t := by
  induction as with
  | nil => exact fun _ _ h => absurd rfl h
  | cons a as ih =>
    intro s ha hs hne
    cases a with
    | data b bs =>
      refine ⟨⟨s.buffer++b::bs,as,s.closed⟩,?_⟩
      rw [Sock.deliver,ha]
      rfl
    | pause =>
      obtain ⟨t,ht⟩ := ih (s := { s with arrivals := as }) rfl ((skips_pause ha).sound hs) hne
      refine ⟨t,?_⟩
      rw [Sock.deliver,ha]
      exact ht
    | error => exact absurd (by rw [ha]; exact List.mem_cons_self) hs

/-- How a loop waits when nothing is there but something is to come. -/
def Waits (wait : Sock → Except Stop (Bool × Sock)) : Prop :=
  ∀ s : Sock,s.Sound → s.buffer = [] → s.stream ≠ [] → ∃ ready t,wait s = .ok (ready,t) ∧
    Skips s 0 t ∧ t.arrivals.length < s.arrivals.length ∧ (t.buffer = [] ↔ ready = false)

theorem waits_block : Waits waitBlock := by
  intro s hs hb hne
  obtain ⟨t,ht,hskip,hbuf,hlt⟩ := select_data s.arrivals rfl hs hb hne
  refine ⟨true,t,?_,hskip,hlt,?_⟩
  · rw [waitBlock,ht]
    rfl
  · simp [hbuf]

theorem waits_nonblock : Waits waitNonblock := by
  intro s hs hb hne
  cases ha : s.arrivals with
  | nil =>
    simp only [Sock.stream,hb,ha,segments,List.flatten_nil,List.append_nil] at hne
    exact absurd rfl hne
  | cons a as =>
    cases a with
    | data b bs =>
      refine ⟨true,_,?_,skips_data hb ha,?_,?_⟩
      · rw [waitNonblock,selectTimeout,if_pos hb,ha]
      · exact Nat.lt_succ_self _
      · simp
    | pause =>
      refine ⟨false,_,?_,skips_pause ha,?_,?_⟩
      · rw [waitNonblock,selectTimeout,if_pos hb,ha]
      · exact Nat.lt_succ_self _
      · simp [hb]
    | error => exact absurd (by rw [ha]; exact List.mem_cons_self) hs

/-- A read of bytes that are there or to come: all of them, or those before a timeout. -/
def Reads (s : Sock) (cnt : ℕ) (bp : Bytes) : Except Stop (Read × Sock) → Prop
  | .ok (.bytes bs,t) => bs = bp++s.stream.take cnt ∧ Skips s cnt t
  | .ok (.timeout bs,t) => ∃ k < cnt,bs = bp++s.stream.take k ∧ Skips s k t ∧ t.buffer = []
  | _ => False

theorem Reads.of_skips {s t : Sock} {j cnt : ℕ} {bp : Bytes} {x : Except Stop (Read × Sock)}
    (h : Skips s j t) (hx : Reads t cnt (bp++s.stream.take j) x) : Reads s (j+cnt) bp x := by
  cases x with
  | error e => exact hx
  | ok r =>
    obtain ⟨r,u⟩ := r
    cases r with
    | failed => exact hx
    | bytes bs =>
      obtain ⟨hbs,hskip⟩ := hx
      exact ⟨by rw [hbs,h.take_add,List.append_assoc],h.trans hskip⟩
    | timeout bs =>
      obtain ⟨k,hk,hbs,hskip,hbuf⟩ := hx
      exact ⟨j+k,by omega,by rw [hbs,h.take_add,List.append_assoc],h.trans hskip,hbuf⟩

theorem recv_again (hs : s.Sound) (hb : s.buffer = []) (hne : s.stream ≠ []) (n : ℕ) :
    recv s n = (.again,s) := by
  rw [recv,if_pos hb,recvEmpty]
  cases ha : s.arrivals with
  | nil =>
    simp only [Sock.stream,hb,ha,segments,List.flatten_nil,List.append_nil] at hne
    exact absurd rfl hne
  | cons a as =>
    cases a with
    | data b bs => rfl
    | pause => rfl
    | error => exact absurd (by rw [ha]; exact List.mem_cons_self) hs

theorem readn_zero (wait : Sock → Except Stop (Bool × Sock)) (n : ℕ) (s : Sock) (bp : Bytes) :
    readn wait n s 0 bp = .ok (.bytes bp,s) := by
  cases n <;> rfl

theorem readn_bytes {wait : Sock → Except Stop (Bool × Sock)} {n cnt : ℕ} {s t : Sock}
    {bp bs : Bytes} (h : recv s (cnt+1) = (.bytes bs,t)) (hbs : bs ≠ []) :
    readn wait (n+1) s (cnt+1) bp = readn wait n t (cnt+1-bs.length) (bp++bs) := by
  cases bs with
  | nil => exact absurd rfl hbs
  | cons b bs =>
    rw [readn,h]
    exact Nat.succ_ne_zero _

theorem readn_again {wait : Sock → Except Stop (Bool × Sock)} {n cnt : ℕ} {s t u : Sock}
    {bp : Bytes} {ready : Bool} (h : recv s (cnt+1) = (.again,t)) (hw : wait t = .ok (ready,u)) :
    readn wait (n+1) s (cnt+1) bp =
      if ready then readn wait n u (cnt+1) bp else .ok (.timeout bp,u) := by
  rw [readn,h]
  · simp only [hw,ok_bind]
    cases ready <;> rfl
  · exact Nat.succ_ne_zero _

/-- A pass that finds nothing waits, and leaves the bytes to the passes behind it. -/
theorem reads_waited {wait : Sock → Except Stop (Bool × Sock)} (hw : Waits wait) {n cnt : ℕ}
    {s : Sock} {bp : Bytes} (hs : s.Sound) (hb : s.buffer = []) (hcnt : cnt+1 ≤ s.stream.length)
    (hrest : ∀ {t : Sock},t.Sound → t.buffer ≠ [] → t.arrivals.length < s.arrivals.length →
      cnt+1 ≤ t.stream.length → Reads t (cnt+1) bp (readn wait n t (cnt+1) bp)) :
    Reads s (cnt+1) bp (readn wait (n+1) s (cnt+1) bp) := by
  have hne : s.stream ≠ [] := List.length_pos_iff.mp (Nat.zero_lt_of_lt hcnt)
  obtain ⟨ready,t,ht,hskip,hlt,hready⟩ := hw s hs hb hne
  have hlen : cnt+1 ≤ t.stream.length := by
    rw [hskip.stream]
    exact hcnt
  rw [readn_again (recv_again hs hb hne _) ht]
  cases ready with
  | true =>
    have htb : t.buffer ≠ [] := fun h => nomatch hready.mp h
    have hread := hrest (hskip.sound hs) htb hlt hlen
    rw [← Nat.zero_add (cnt+1)]
    apply Reads.of_skips hskip
    rw [List.take_zero,List.append_nil,Nat.zero_add]
    exact hread
  | false =>
    refine ⟨0,Nat.succ_pos _,?_,hskip,hready.mpr rfl⟩
    rw [List.take_zero,List.append_nil]

/-- A pass that finds bytes takes what it may of them, and leaves the others to the passes
behind it. -/
theorem reads_taken {wait : Sock → Except Stop (Bool × Sock)} {n cnt : ℕ} {s : Sock} {bp : Bytes}
    (hs : s.Sound) (hb : s.buffer ≠ []) (hcnt : cnt+1 ≤ s.stream.length)
    (hrest : ∀ {t : Sock} {cnt : ℕ} (bp : Bytes),t.Sound → t.buffer = [] →
      t.arrivals = s.arrivals → cnt ≤ t.stream.length → Reads t cnt bp (readn wait n t cnt bp)) :
    Reads s (cnt+1) bp (readn wait (n+1) s (cnt+1) bp) := by
  obtain ⟨t,ht,hskip,hbuf,harr⟩ := recv_buffer hb (cnt+1)
  let bs := s.buffer.take (cnt+1)
  have hbs : bs = s.stream.take (min (cnt+1) s.buffer.length) := by
    rw [Sock.stream,List.take_append_of_le_length (Nat.min_le_right _ _),← List.take_eq_take_min]
  have hlen : bs.length = min (cnt+1) s.buffer.length := List.length_take
  have hne : bs ≠ [] := by
    have := List.length_pos_iff.mpr hb
    exact List.length_pos_iff.mp (by omega)
  rw [readn_bytes ht hne]
  by_cases hall : cnt+1 ≤ s.buffer.length
  · rw [Nat.min_eq_left hall] at hskip hbs hlen
    rw [hlen,Nat.sub_self,readn_zero]
    exact ⟨by rw [← hbs],hskip⟩
  · have hall' : s.buffer.length ≤ cnt+1 := by omega
    have htb : t.buffer = [] := by rw [hbuf,List.drop_of_length_le hall']
    rw [Nat.min_eq_right hall'] at hskip hbs hlen
    have hrest' : cnt+1-bs.length ≤ t.stream.length := by
      rw [hskip.stream,List.length_drop,hlen]
      omega
    have hread := hrest (bp++bs) (hskip.sound hs) htb harr hrest'
    have hcnt' : s.buffer.length+(cnt+1-bs.length) = cnt+1 := by omega
    rw [← hcnt']
    apply Reads.of_skips hskip
    rw [hcnt',← hbs]
    exact hread

theorem readn_spec {wait : Sock → Except Stop (Bool × Sock)} (hw : Waits wait) (n : ℕ) :
    ∀ {s : Sock} {cnt : ℕ} {p : Bytes},s.Sound → cnt ≤ s.stream.length →
      2*s.arrivals.length+(if s.buffer = [] then 0 else 1) < n →
        Reads s cnt p (readn wait n s cnt p) := by
  induction n with
  | zero => exact fun _ _ h => absurd h (Nat.not_lt_zero _)
  | succ n ih =>
    intro s cnt bp hs hcnt hn
    cases cnt with
    | zero =>
      rw [readn]
      exact ⟨by rw [List.take_zero,List.append_nil],.refl s⟩
    | succ cnt =>
      by_cases hb : s.buffer = []
      · rw [if_pos hb] at hn
        refine reads_waited hw hs hb hcnt fun hsound htb hlt hlen => ih hsound hlen ?_
        rw [if_neg htb]
        omega
      · rw [if_neg hb] at hn
        refine reads_taken hs hb hcnt fun _ hsound htb harr hlen => ih hsound hlen ?_
        rw [if_pos htb,harr]
        omega

/-- The loop of `readn_block` ends with all bytes, the end of the stream or an error. -/
theorem readn_block_ne_timeout (n : ℕ) : ∀ {s t : Sock} {cnt : ℕ} {bp bs : Bytes},
    readn waitBlock n s cnt bp ≠ .ok (.timeout bs,t) := by
  induction n with
  | zero =>
    intro s t cnt bp bs h
    cases cnt with
    | zero => cases h
    | succ cnt => cases h
  | succ n ih =>
    intro s t cnt bp bs h
    cases cnt with
    | zero => cases h
    | succ cnt =>
      cases hr : recv s (cnt+1) with
      | mk r u =>
        cases r with
        | failed =>
          rw [readn,hr] at h
          · cases h
          · exact Nat.succ_ne_zero _
        | bytes bs' =>
          by_cases hbs : bs' = []
          · rw [readn,hr,hbs] at h
            · cases h
            · exact Nat.succ_ne_zero _
          · rw [readn_bytes hr hbs] at h
            exact ih h
        | again =>
          cases hw : select u with
          | error e =>
            rw [readn,hr] at h
            · simp only [waitBlock,hw,error_bind] at h
              cases h
            · exact Nat.succ_ne_zero _
          | ok v =>
            have hwait : waitBlock u = .ok (true,v) := by
              rw [waitBlock,hw]
              rfl
            rw [readn_again hr hwait,if_pos rfl] at h
            exact ih h

theorem readn_passes (s : Sock) :
    2*s.arrivals.length+(if s.buffer = [] then 0 else 1) < s.passes := by
  rw [Sock.passes]
  split <;> omega

/-- `readn_block` waits for all the bytes. -/
theorem readnBlock_spec (hs : s.Sound) {len : ℕ} (hlen : len ≤ s.stream.length) :
    ∃ t,readnBlock s len = .ok (.bytes (s.stream.take len),t) ∧ Skips s len t := by
  have h := readn_spec waits_block s.passes (p := []) hs hlen (readn_passes s)
  rw [readnBlock]
  cases hr : readn waitBlock s.passes s len [] with
  | error e =>
    rw [hr] at h
    exact h.elim
  | ok r =>
    obtain ⟨r,t⟩ := r
    rw [hr] at h
    cases r with
    | failed => exact h.elim
    | timeout bs => exact absurd hr (readn_block_ne_timeout _)
    | bytes bs =>
      obtain ⟨hbs,hskip⟩ := h
      exact ⟨t,by rw [hbs,List.nil_append],hskip⟩

theorem readnNonblock_spec (hs : s.Sound) {len : ℕ} (hlen : len ≤ s.stream.length) :
    Reads s len [] (readnNonblock s len) :=
  readn_spec waits_nonblock s.passes hs hlen (readn_passes s)

/-- Bytes that are there are read at once. -/
theorem readnNonblock_buffer {n : ℕ} (hpos : 0 < n) (hlen : n ≤ s.buffer.length) :
    ∃ t,readnNonblock s n = .ok (.bytes (s.buffer.take n),t) ∧ Skips s n t := by
  have hb : s.buffer ≠ [] := List.length_pos_iff.mp (Nat.lt_of_lt_of_le hpos hlen)
  obtain ⟨t,ht,hskip,-,-⟩ := recv_buffer hb n
  rw [Nat.min_eq_left hlen] at hskip
  refine ⟨t,?_,hskip⟩
  have htake : (s.buffer.take n).length = n := List.length_take_of_le hlen
  obtain ⟨m,rfl⟩ : ∃ m,n = m+1 := ⟨n-1,by omega⟩
  have hne : s.buffer.take (m+1) ≠ [] := List.length_pos_iff.mp (by omega)
  rw [readnNonblock,Sock.passes,readn_bytes ht hne,htake,Nat.sub_self,readn_zero,List.nil_append]

/-- A peek shows what has arrived of the segment the stream is in. -/
theorem sockRead_spec (hs : s.Sound) (hne : s.stream ≠ []) (n : ℕ) :
    ∃ t,sockRead s n = .ok (.bytes (s.stream.take (min n (s.avail 0))),t) ∧ Skips s 0 t ∧
      t.buffer = s.stream.take (s.avail 0) ∧ t.buffer.length = s.avail 0 := by
  have hready : ∃ t,select s = .ok t ∧ Skips s 0 t ∧ t.buffer ≠ [] := by
    by_cases hb : s.buffer = []
    · obtain ⟨t,ht,hskip,hbuf,-⟩ := select_data s.arrivals rfl hs hb hne
      exact ⟨t,ht,hskip,hbuf⟩
    · exact ⟨s,if_neg hb,.refl s,hb⟩
  obtain ⟨t,ht,hskip,hbuf⟩ := hready
  have hpos : 0 < t.buffer.length := List.length_pos_iff.mpr hbuf
  have havail : s.avail 0 = t.buffer.length := by
    rw [← hskip.avail 0,Sock.avail,availFrom,if_pos hpos,Nat.sub_zero]
  have hstream : s.stream = t.buffer++(segments t.arrivals).flatten := hskip.stream.symm
  refine ⟨t,?_,hskip,?_,havail.symm⟩
  · rw [sockRead,ht]
    simp only [ok_bind,peek,if_neg hbuf,pure_eq_ok]
    rw [havail,hstream,List.take_append_of_le_length (Nat.min_le_right _ _),← List.take_eq_take_min]
  · rw [havail,hstream,List.take_left]

end Calls
end AntSocket
end RecycleBin
