import RecycleBin.SmtpCapture

/-! What the mails of one connection should be, from its own packets only, against what the
capture makes of all packets together. A connection is its address. -/
namespace RecycleBin
namespace SmtpCapture
open CString AntHash Interleaving

/-- The data packet of a port 25 connection that a callback brings. -/
def Callback.packet (cb : Callback) : Option HalfStream :=
  if cb.aTcp.addr.dest = 25 ∧ cb.aTcp.nidsState = .NIDS_DATA ∧ cb.aTcp.server.countNewUrg = 0 then
    some cb.aTcp.hlf
  else none

/-- What a packet is to the capture. -/
inductive Kind
  | mail | quit | other
  deriving DecidableEq

def HalfStream.kind (hlf : HalfStream) : Kind :=
  if returnPath.isPrefixOf hlf.data then .mail
  else if SmtpCapture.quit.isPrefixOf hlf.data then .quit
  else .other

structure Mail where
  fname : Bytes
  contents : Bytes
  deriving DecidableEq

/-- The name of the file for the packets collected. -/
def Callback.mailName (cb : Callback) (queue : List Bytes) : Option Bytes :=
  queue.head?.bind fun d => setMailName cb.tvSec (d++cb.beyond)

/-- The mail that the packets collected make at a `QUIT`, if its file opens. -/
def Callback.mails (cb : Callback) (queue : List Bytes) : List Mail :=
  (cb.mailName queue).elim [] fun fname => if cb.opens then [⟨fname,queue.flatten⟩] else []

/-- A connection: the packets from its last `Return-Path` on, if no `QUIT` came behind, and the
mails it has completed. -/
structure Connection where
  collecting : Option (List Bytes)
  mails : List Mail

def Connection.init : Connection := ⟨none,[]⟩

def Connection.packet (c : Connection) (cb : Callback) (hlf : HalfStream) : Connection :=
  match hlf.kind with
  | .mail => { c with collecting := some [hlf.new] }
  | .quit => { collecting := none,mails := c.mails++c.collecting.elim [] cb.mails }
  | .other => { c with collecting := c.collecting.map (·++[hlf.new]) }

def Connection.step (c : Connection) (cb : Callback) : Connection :=
  cb.packet.elim c (c.packet cb)

/-- A connection after its own packets. -/
def connection (a : Tuple4) (cbs : List Callback) : Connection :=
  own (fun cb => cb.aTcp.addr) Connection.step .init a cbs

/-- The files written for a connection, as mails. -/
def mailsOf (written : List Written) (a : Tuple4) : List Mail :=
  (written.filter fun w => w.addr = a).map fun w => ⟨w.fname,w.contents⟩

/-- The capture is defined, has for every connection the packets and the mails it should have,
and every file still holds its mail. -/
structure Separate (cbs : List Callback) (s : State) : Prop where
  queue : ∀ a, s.hash a = (connection a cbs).collecting
  mails : ∀ a, mailsOf s.written a = (connection a cbs).mails
  kept : ∀ w ∈ s.written, holds s.written w.fname = some w.contents

def Isolated (cbs : List Callback) : Prop := ∃ s, run cbs = some s ∧ Separate cbs s

def begunStep (b : Bool) (cb : Callback) : Bool :=
  cb.packet.elim b fun hlf =>
    match hlf.kind with
    | .mail => true
    | .quit => false
    | .other => b

/-- A `Return-Path` of some connection came, and behind it no `QUIT` of any. -/
def begun (cbs : List Callback) : Bool := cbs.foldl begunStep false

/-- A `QUIT` comes on a connection that collects, with a name for its mail that fits and that no
mail with other contents has; another packet of a connection that collects comes before any
`QUIT` behind the last `Return-Path`, and is counted by an `int`. -/
def Clear (cbs : List Callback) (cb : Callback) (hlf : HalfStream) : Prop :=
  match hlf.kind with
  | .mail => True
  | .quit => ∃ queue, (connection cb.aTcp.addr cbs).collecting = some queue ∧
      ∃ fname, cb.mailName queue = some fname ∧ (cb.opens = true → ∀ a,
        ∀ m ∈ (connection a cbs).mails, m.fname = fname → m.contents = queue.flatten)
  | .other => ∀ queue, (connection cb.aTcp.addr cbs).collecting = some queue →
      begun cbs = true ∧ queue.length < 2^31-1

/-! ### One callback -/

theorem packet_pos {cb : Callback} {hlf : HalfStream} (h : cb.packet = some hlf) :
    0 < hlf.countNew := by
  rw [Callback.packet] at h
  split at h
  · rename_i hdata
    cases h
    rw [TcpStream.hlf]
    split
    · omega
    · have := cb.aTcp.new_data hdata.2.1 hdata.2.2
      omega
  · cases h

/-- `antSmtpInit` and `antSmtpProcess` are called for the data packets of port 25 only. -/
theorem tcpCallback_eq (s : State) (cb : Callback) :
    tcpCallback s cb = cb.packet.elim (some s) fun hlf =>
      antSmtpProcess (antSmtpInit s cb.aTcp.addr hlf) cb hlf := by
  by_cases hdest : cb.aTcp.addr.dest = 25
  · rw [tcpCallback,Callback.packet,if_neg fun h => h.1 hdest]
    cases cb.aTcp.nidsState with
    | NIDS_DATA =>
      dsimp only
      by_cases hurg : cb.aTcp.server.countNewUrg = 0
      · rw [if_neg (not_not.mpr hurg),if_pos hdest,if_pos ⟨hdest,rfl,hurg⟩]
        rfl
      · rw [if_pos hurg,if_neg fun h => hurg h.2.2]
        rfl
    | _ => simp
  · have hnone : cb.packet = none := if_neg fun h => hdest h.1
    rw [hnone,tcpCallback]
    simp only [if_neg hdest,ite_self,Option.elim_none]
    cases cb.aTcp.nidsState <;> exact ite_self _

section Packet
variable {s : State} {cb : Callback} {hlf : HalfStream}

theorem process_mail (hpos : 0 < hlf.countNew) (hk : hlf.kind = .mail) :
    antSmtpProcess (antSmtpInit s cb.aTcp.addr hlf) cb hlf = some {
      s with smtp := .ANT_BEGIN,hash := Function.update s.hash cb.aTcp.addr (some [hlf.new]) } := by
  have hprefix : returnPath.isPrefixOf hlf.data = true := by
    rw [HalfStream.kind] at hk
    split_ifs at hk with h
    exact h
  rw [antSmtpInit,if_pos hprefix,antSmtpProcess]
  simp [hpos,queuePut]

theorem process_quit (hk : hlf.kind = .quit) :
    antSmtpProcess (antSmtpInit s cb.aTcp.addr hlf) cb hlf =
      (s.hash cb.aTcp.addr).bind fun queue => (cb.mailName queue).map fun fname => {
        smtp := .ANT_INIT
        hash := Function.update s.hash cb.aTcp.addr none
        written := dumpFile s.written cb.aTcp.addr queue fname cb.opens } := by
  rw [HalfStream.kind] at hk
  split_ifs at hk with hmail hquit
  rw [antSmtpInit,if_neg hmail,if_pos hquit,antSmtpProcess]
  simp [Callback.mailName,Option.map_bind]

theorem process_other (hpos : 0 < hlf.countNew) (hk : hlf.kind = .other)
    (hs : s.smtp ≠ .ANT_DOWNLOAD) :
    antSmtpProcess (antSmtpInit s cb.aTcp.addr hlf) cb hlf =
      if s.smtp = .ANT_BEGIN then
        (s.hash cb.aTcp.addr).elim (some s) fun queue => (queuePut hlf.new queue).map fun queue =>
          { s with hash := Function.update s.hash cb.aTcp.addr (some queue) }
      else some s := by
  rw [HalfStream.kind] at hk
  split_ifs at hk with hmail hquit
  rw [antSmtpInit,if_neg hmail,if_neg hquit,antSmtpProcess]
  by_cases hbegin : s.smtp = .ANT_BEGIN
  · rw [if_pos ⟨hbegin,hpos⟩,if_pos hbegin]
    cases s.hash cb.aTcp.addr <;> rfl
  · rw [if_neg fun h => hbegin h.1,if_neg hs,if_neg hbegin]

/-- No other packet changes the status. -/
theorem smtp_of_other {t : State} (hpos : 0 < hlf.countNew) (hk : hlf.kind = .other)
    (hs : s.smtp ≠ .ANT_DOWNLOAD)
    (h : antSmtpProcess (antSmtpInit s cb.aTcp.addr hlf) cb hlf = some t) : t.smtp = s.smtp := by
  rw [process_other hpos hk hs] at h
  split at h
  · cases hq : s.hash cb.aTcp.addr with
    | none =>
      rw [hq] at h
      cases h
      rfl
    | some queue =>
      rw [hq,Option.elim_some] at h
      obtain ⟨queue',-,h⟩ := Option.map_eq_some_iff.mp h
      cases h
      rfl
  · cases h
    rfl

end Packet

/-! ### A run and one more callback -/

theorem run_concat (cbs : List Callback) (cb : Callback) :
    run (cbs++[cb]) = (run cbs).bind fun s => tcpCallback s cb := by
  rw [run,List.foldlM_append]
  have hlast : (fun s => [cb].foldlM tcpCallback s) = fun s => tcpCallback s cb := by
    funext s
    exact bind_pure (tcpCallback s cb)
  rw [hlast]
  rfl

theorem begun_concat (cbs : List Callback) (cb : Callback) :
    begun (cbs++[cb]) = begunStep (begun cbs) cb := by
  rw [begun,List.foldl_concat,begun]

theorem connection_concat_self (cbs : List Callback) (cb : Callback) :
    connection cb.aTcp.addr (cbs++[cb]) = (connection cb.aTcp.addr cbs).step cb :=
  own_concat_self (fun cb : Callback => cb.aTcp.addr) rfl cbs

theorem connection_concat_ne {a : Tuple4} {cb : Callback} (h : cb.aTcp.addr ≠ a)
    (cbs : List Callback) : connection a (cbs++[cb]) = connection a cbs :=
  own_concat_ne (fun cb : Callback => cb.aTcp.addr) h cbs

/-- A queue that is there has a packet in it. -/
theorem collecting_ne_nil (a : Tuple4) (cbs : List Callback) :
    (connection a cbs).collecting ≠ some [] := by
  refine own_invariant (I := fun c : Connection => c.collecting ≠ some []) _
    (by simp [Connection.init]) (fun c cb hc => ?_) a cbs
  rw [Connection.step]
  cases cb.packet with
  | none => exact hc
  | some hlf =>
    rw [Option.elim_some,Connection.packet]
    cases hlf.kind with
    | mail => simp
    | quit => simp
    | other =>
      dsimp only
      cases c.collecting <;> simp

/-- Of a connection that collects, only a name that does not fit is undefined. -/
theorem mailName_collecting {a : Tuple4} {cbs : List Callback} {queue : List Bytes}
    (h : (connection a cbs).collecting = some queue) (cb : Callback) :
    ∃ d ds, queue = d::ds ∧ cb.mailName queue = setMailName cb.tvSec (d++cb.beyond) := by
  cases queue with
  | nil => exact absurd h (collecting_ne_nil a cbs)
  | cons d ds => exact ⟨d,ds,rfl,rfl⟩

theorem holds_concat (written : List Written) (w : Written) (fname : Bytes) :
    holds (written++[w]) fname =
      if w.fname = fname then some w.contents else holds written fname := by
  rw [holds,List.foldl_concat,holds]

theorem mailsOf_concat_self (written : List Written) (w : Written) :
    mailsOf (written++[w]) w.addr = mailsOf written w.addr++[⟨w.fname,w.contents⟩] := by
  simp [mailsOf]

theorem mailsOf_concat_ne {written : List Written} {w : Written} {a : Tuple4} (h : w.addr ≠ a) :
    mailsOf (written++[w]) a = mailsOf written a := by
  simp [mailsOf,h]

/-- The status between two callbacks. -/
def status (begun : Bool) : DumpStatus :=
  if begun then .ANT_BEGIN else .ANT_INIT

theorem status_ne_download (b : Bool) : status b ≠ .ANT_DOWNLOAD := by
  cases b <;> simp [status]

theorem smtp_of_callback {s t : State} {b : Bool} {cb : Callback} (hs : s.smtp = status b)
    (h : tcpCallback s cb = some t) : t.smtp = status (begunStep b cb) := by
  rw [tcpCallback_eq] at h
  rw [begunStep]
  cases hp : cb.packet with
  | none =>
    rw [hp] at h
    cases h
    exact hs
  | some hlf =>
    rw [hp,Option.elim_some] at h
    rw [Option.elim_some]
    cases hk : hlf.kind with
    | mail =>
      rw [process_mail (packet_pos hp) hk] at h
      cases h
      rfl
    | quit =>
      rw [process_quit hk] at h
      obtain ⟨queue,-,h⟩ := Option.bind_eq_some_iff.mp h
      obtain ⟨fname,-,h⟩ := Option.map_eq_some_iff.mp h
      cases h
      rfl
    | other =>
      have hdown : s.smtp ≠ .ANT_DOWNLOAD := hs ▸ status_ne_download b
      rw [smtp_of_other (packet_pos hp) hk hdown h]
      exact hs

theorem status_of_run {cbs : List Callback} {s : State} (h : run cbs = some s) :
    s.smtp = status (begun cbs) := by
  induction cbs using List.reverseRecOn generalizing s with
  | nil =>
    cases h
    rfl
  | append_singleton cbs cb ih =>
    rw [run_concat] at h
    obtain ⟨s₀,hs₀,h⟩ := Option.bind_eq_some_iff.mp h
    rw [begun_concat]
    exact smtp_of_callback (ih hs₀) h

/-- What a callback leaves to the other connections it leaves separate. -/
theorem Separate.concat_iff {cbs : List Callback} {s s' : State} (h : Separate cbs s)
    {cb : Callback} (hhash : ∀ a, cb.aTcp.addr ≠ a → s'.hash a = s.hash a)
    (hmails : ∀ a, cb.aTcp.addr ≠ a → mailsOf s'.written a = mailsOf s.written a) :
    Separate (cbs++[cb]) s' ↔
      s'.hash cb.aTcp.addr = ((connection cb.aTcp.addr cbs).step cb).collecting ∧
      mailsOf s'.written cb.aTcp.addr = ((connection cb.aTcp.addr cbs).step cb).mails ∧
      ∀ w ∈ s'.written, holds s'.written w.fname = some w.contents := by
  rw [← connection_concat_self]
  constructor
  · intro hs
    exact ⟨hs.queue _,hs.mails _,hs.kept⟩
  · rintro ⟨hqueue,hmail,hkept⟩
    refine ⟨fun a => ?_,fun a => ?_,hkept⟩
    · by_cases ha : cb.aTcp.addr = a
      · rw [← ha,hqueue]
      · rw [hhash a ha,connection_concat_ne ha,h.queue a]
    · by_cases ha : cb.aTcp.addr = a
      · rw [← ha,hmail]
      · rw [hmails a ha,connection_concat_ne ha,h.mails a]

section Steps
variable {cbs : List Callback} {s : State} {cb : Callback} {hlf : HalfStream}

theorem Connection.step_packet (c : Connection) (hp : cb.packet = some hlf) :
    c.step cb = c.packet cb hlf := by
  rw [Connection.step,hp,Option.elim_some]

theorem Separate.forall_mails (h : Separate cbs s) (P : Mail → Prop) :
    (∀ a, ∀ m ∈ (connection a cbs).mails, P m) ↔ ∀ w ∈ s.written, P ⟨w.fname,w.contents⟩ := by
  simp only [← h.mails,mailsOf,List.forall_mem_map,List.mem_filter,decide_eq_true_eq]
  exact ⟨fun hall w hw => hall w.addr w ⟨hw,rfl⟩,fun hall _ w hw => hall w hw.1⟩

theorem Separate.skip (h : Separate cbs s) (hp : cb.packet = none) : Separate (cbs++[cb]) s := by
  refine (h.concat_iff (fun _ _ => rfl) fun _ _ => rfl).mpr ?_
  rw [Connection.step,hp]
  exact ⟨h.queue _,h.mails _,h.kept⟩

theorem Separate.mail (h : Separate cbs s) (hp : cb.packet = some hlf) (hk : hlf.kind = .mail) :
    Separate (cbs++[cb]) { s with
      smtp := .ANT_BEGIN,hash := Function.update s.hash cb.aTcp.addr (some [hlf.new]) } := by
  refine Iff.mpr (h.concat_iff (fun a ha => Function.update_of_ne ha.symm _ _) fun _ _ => rfl) ?_
  rw [Connection.step_packet _ hp,Connection.packet,hk]
  exact ⟨Function.update_self _ _ _,h.mails _,h.kept⟩

theorem Separate.other_none (h : Separate cbs s) (hp : cb.packet = some hlf)
    (hk : hlf.kind = .other) (hqueue : s.hash cb.aTcp.addr = none) : Separate (cbs++[cb]) s := by
  have hcollecting := (h.queue _).symm.trans hqueue
  refine (h.concat_iff (fun _ _ => rfl) fun _ _ => rfl).mpr ?_
  rw [Connection.step_packet _ hp,Connection.packet,hk]
  dsimp only
  rw [hcollecting,hqueue]
  exact ⟨rfl,h.mails _,h.kept⟩

theorem Separate.other_put (h : Separate cbs s) (hp : cb.packet = some hlf)
    (hk : hlf.kind = .other) {queue : List Bytes} (hqueue : s.hash cb.aTcp.addr = some queue) :
    Separate (cbs++[cb])
      { s with hash := Function.update s.hash cb.aTcp.addr (some (queue++[hlf.new])) } := by
  have hcollecting := (h.queue _).symm.trans hqueue
  refine Iff.mpr (h.concat_iff (fun a ha => Function.update_of_ne ha.symm _ _) fun _ _ => rfl) ?_
  rw [Connection.step_packet _ hp,Connection.packet,hk]
  dsimp only
  rw [hcollecting,Option.map_some]
  exact ⟨Function.update_self _ _ _,h.mails _,h.kept⟩

/-- A packet of a connection that collects is missed if nothing is stored. -/
theorem Separate.other_dropped (h : Separate cbs s) (hp : cb.packet = some hlf)
    (hk : hlf.kind = .other) {queue : List Bytes} (hqueue : s.hash cb.aTcp.addr = some queue) :
    ¬Separate (cbs++[cb]) s := by
  intro hs
  have hcollecting := (h.queue _).symm.trans hqueue
  have hq := ((h.concat_iff (fun _ _ => rfl) fun _ _ => rfl).mp hs).1
  rw [Connection.step_packet _ hp,Connection.packet,hk] at hq
  dsimp only at hq
  rw [hqueue,hcollecting,Option.map_some,Option.some.injEq] at hq
  simp at hq

/-- The files stay as they are exactly if no other contents had the name. -/
theorem Separate.kept_concat_iff (h : Separate cbs s) (w : Written) :
    (∀ v ∈ s.written++[w], holds (s.written++[w]) v.fname = some v.contents) ↔
      ∀ v ∈ s.written, v.fname = w.fname → v.contents = w.contents := by
  simp only [List.forall_mem_append,List.forall_mem_singleton,holds_concat,if_true,and_true]
  refine forall₂_congr fun v hv => ?_
  by_cases hname : w.fname = v.fname
  · rw [if_pos hname,Option.some.injEq]
    exact ⟨fun he _ => he.symm,fun he => (he hname.symm).symm⟩
  · rw [if_neg hname]
    exact ⟨fun _ he => absurd he.symm hname,fun _ => h.kept v hv⟩

theorem Separate.quit_iff (h : Separate cbs s) (hp : cb.packet = some hlf) (hk : hlf.kind = .quit)
    {queue : List Bytes} (hqueue : s.hash cb.aTcp.addr = some queue) {fname : Bytes}
    (hname : cb.mailName queue = some fname) :
    Separate (cbs++[cb]) {
        smtp := .ANT_INIT
        hash := Function.update s.hash cb.aTcp.addr none
        written := dumpFile s.written cb.aTcp.addr queue fname cb.opens } ↔
      (cb.opens = true → ∀ a, ∀ m ∈ (connection a cbs).mails, m.fname = fname →
        m.contents = queue.flatten) := by
  have hcollecting := (h.queue _).symm.trans hqueue
  have hstep : (connection cb.aTcp.addr cbs).step cb =
      ⟨none,(connection cb.aTcp.addr cbs).mails++cb.mails queue⟩ := by
    rw [Connection.step_packet _ hp,Connection.packet,hk]
    dsimp only
    rw [hcollecting,Option.elim_some]
  rw [h.forall_mails fun m => m.fname = fname → m.contents = queue.flatten]
  cases hopens : cb.opens with
  | false =>
    have hmails : cb.mails queue = [] := by simp [Callback.mails,hname,hopens]
    refine Iff.trans (h.concat_iff (fun a ha => Function.update_of_ne ha.symm _ _) fun _ _ => rfl) ?_
    rw [hstep,hmails,List.append_nil]
    exact iff_of_true ⟨Function.update_self _ _ _,h.mails _,h.kept⟩ fun hf => by cases hf
  | true =>
    have hmails : cb.mails queue = [⟨fname,queue.flatten⟩] := by simp [Callback.mails,hname,hopens]
    refine (h.concat_iff (fun a ha => Function.update_of_ne ha.symm _ _)
      fun a ha => mailsOf_concat_ne ha).trans ?_
    rw [hstep,hmails]
    constructor
    · intro hs _
      exact (h.kept_concat_iff ⟨cb.aTcp.addr,fname,queue.flatten⟩).mp hs.2.2
    · intro hs
      refine ⟨Function.update_self _ _ _,?_,(h.kept_concat_iff _).mpr (hs rfl)⟩
      have happ := mailsOf_concat_self s.written ⟨cb.aTcp.addr,fname,queue.flatten⟩
      rw [h.mails] at happ
      exact happ

theorem isolated_concat (hrun : run cbs = some s) :
    Isolated (cbs++[cb]) ↔ ∃ t, tcpCallback s cb = some t ∧ Separate (cbs++[cb]) t := by
  rw [Isolated,run_concat,hrun,Option.bind_some]

theorem isolated_quit_iff (h : Separate cbs s) (hrun : run cbs = some s)
    (hp : cb.packet = some hlf) (hk : hlf.kind = .quit) :
    Isolated (cbs++[cb]) ↔ Clear cbs cb hlf := by
  rw [isolated_concat hrun,tcpCallback_eq,hp,Option.elim_some,process_quit hk,Clear,hk]
  dsimp only
  rw [← h.queue]
  cases hqueue : s.hash cb.aTcp.addr with
  | none => simp
  | some queue =>
    rw [Option.bind_some]
    cases hname : cb.mailName queue with
    | none => simp [hname]
    | some fname =>
      rw [Option.map_some]
      constructor
      · rintro ⟨t,ht,hsep⟩
        cases ht
        exact ⟨queue,rfl,fname,hname,(h.quit_iff hp hk hqueue hname).mp hsep⟩
      · rintro ⟨queue',hq,fname',hname',hmails⟩
        cases hq
        rw [hname] at hname'
        cases hname'
        exact ⟨_,rfl,(h.quit_iff hp hk hqueue hname).mpr hmails⟩

theorem isolated_other_iff (h : Separate cbs s) (hrun : run cbs = some s)
    (hp : cb.packet = some hlf) (hk : hlf.kind = .other) :
    Isolated (cbs++[cb]) ↔ Clear cbs cb hlf := by
  have hstatus := status_of_run hrun
  have hdown : s.smtp ≠ .ANT_DOWNLOAD := hstatus ▸ status_ne_download _
  rw [isolated_concat hrun,tcpCallback_eq,hp,Option.elim_some,
    process_other (packet_pos hp) hk hdown,Clear,hk]
  dsimp only
  rw [← h.queue]
  cases hqueue : s.hash cb.aTcp.addr with
  | none =>
    rw [Option.elim_none,ite_self]
    exact iff_of_true ⟨s,rfl,h.other_none hp hk hqueue⟩ fun queue hq => by cases hq
  | some queue =>
    rw [Option.elim_some]
    cases hbegun : begun cbs with
    | false =>
      have hinit : s.smtp ≠ .ANT_BEGIN := by
        rw [hstatus,hbegun]
        simp [status]
      rw [if_neg hinit]
      refine iff_of_false ?_ fun hc => by cases (hc queue rfl).1
      rintro ⟨t,ht,hsep⟩
      cases ht
      exact h.other_dropped hp hk hqueue hsep
    | true =>
      have hbegin : s.smtp = .ANT_BEGIN := by rw [hstatus,hbegun,status,if_pos rfl]
      rw [if_pos hbegin,queuePut]
      by_cases hlen : queue.length < 2^31-1
      · rw [if_pos hlen]
        refine iff_of_true ⟨_,rfl,h.other_put hp hk hqueue⟩ fun queue' hq => ?_
        cases hq
        exact ⟨rfl,hlen⟩
      · rw [if_neg hlen]
        refine iff_of_false ?_ fun hc => hlen (hc queue rfl).2
        rintro ⟨t,ht,-⟩
        cases ht

/-- One callback keeps the connections apart exactly if a packet it brings is clear. -/
theorem isolated_concat_iff (h : Isolated cbs) (cb : Callback) :
    Isolated (cbs++[cb]) ↔ ∀ hlf, cb.packet = some hlf → Clear cbs cb hlf := by
  obtain ⟨s,hrun,hsep⟩ := h
  cases hp : cb.packet with
  | none =>
    rw [isolated_concat hrun,tcpCallback_eq,hp,Option.elim_none]
    exact iff_of_true ⟨s,rfl,hsep.skip hp⟩ fun hlf hh => by cases hh
  | some hlf =>
    have hiff : Isolated (cbs++[cb]) ↔ Clear cbs cb hlf := by
      cases hk : hlf.kind with
      | mail =>
        rw [isolated_concat hrun,tcpCallback_eq,hp,Option.elim_some,process_mail (packet_pos hp) hk,
          Clear,hk]
        exact iff_of_true ⟨_,rfl,hsep.mail hp hk⟩ trivial
      | quit => exact isolated_quit_iff hsep hrun hp hk
      | other => exact isolated_other_iff hsep hrun hp hk
    rw [hiff]
    exact ⟨fun hc x hx => by cases hx; exact hc,fun hc => hc hlf rfl⟩

theorem isolated_nil : Isolated [] :=
  ⟨init,rfl,fun _ => rfl,fun _ => rfl,fun _ hw => by cases hw⟩

end Steps

/-- The capture keeps the connections apart through a trace of callbacks exactly if every
packet of it is clear when it comes. -/
theorem isolated_iff (cbs : List Callback) :
    (∀ pre, pre <+: cbs → Isolated pre) ↔
      ∀ pre cb, pre++[cb] <+: cbs → ∀ hlf, cb.packet = some hlf → Clear pre cb hlf :=
  forall_prefix_iff isolated_nil (fun _ cb h => isolated_concat_iff h cb) cbs

/-- A packet that a client with the address `saddr` sends. -/
def sent (saddr : UInt32) (b : UInt8) (text : Bytes) : Callback where
  aTcp := {
    addr := ⟨1024,25,saddr,1⟩
    nidsState := .NIDS_DATA
    client := ⟨[],0,0,le_rfl⟩
    server := ⟨b::text,text.length+1,0,le_rfl⟩
    new_data := fun _ _ => .inr (Nat.succ_pos _) }
  tvSec := 7
  beyond := []
  opens := true

/-- The connections 2 and 3 begin a mail, 2 ends its mail, and 3 goes on. -/
def twoMails : List Callback :=
  [sent 2 82 (ascii "eturn-Path:"),sent 3 82 (ascii "eturn-Path:"),sent 2 81 (ascii "UIT"),
    sent 3 72 (ascii "i")]

/-- The last packet of connection 3 is lost. -/
theorem not_isolated_twoMails : ¬∀ pre, pre <+: twoMails → Isolated pre := by
  intro h
  obtain ⟨s,hrun,hsep⟩ := h _ (List.prefix_refl _)
  have hqueue : (run twoMails).map (fun s => s.hash ⟨1024,25,3,1⟩) =
      some (connection ⟨1024,25,3,1⟩ twoMails).collecting := by
    rw [hrun,Option.map_some,hsep.queue]
  revert hqueue
  decide

end SmtpCapture
end RecycleBin
