import RecycleBin.ThreadUser
import RecycleBin.Transition

/-! The RPC server with all its connections. The threads of `process_msg` take their steps in any
order; every connection is served as if it were alone, up to the recogniser they share. -/
namespace RecycleBin
namespace ThreadSession
open Bytes ThreadProto ThreadRequest ThreadRecord ThreadCall ThreadUser

section Threads
variable {ι : Type} [DecidableEq ι]

/-- The threads, what they share, and the calls of the recogniser so far. -/
structure Server (ι : Type) where
  shared : Shared
  threads : ι → Thread
  log : List (ι × LibCall)

/-- What a step of a thread leaves. Behind an undefined access the thread does nothing more. -/
def Server.after (s : Server ι) (i : ι) : Except Fault Turn → Server ι
  | .ok u =>
    { shared := u.shared,threads := Function.update s.threads i u.thread,
      log := s.log++u.calls.map (i,·) }
  | .error _ =>
    { s with threads := Function.update s.threads i { s.threads i with phase := .crashed } }

/-- A step of one thread. -/
def exec (a : ι × Env) (s : Server ι) : Option (Server ι) :=
  (turn a.2 s.shared (s.threads a.1)).map (s.after a.1)

/-- The server when the connections have been accepted. -/
def start (streams : ι → List Event) : Server ι :=
  { shared := ⟨-1,0⟩,threads := fun i => ⟨⟨none,0,streams i⟩,0,.reading,[]⟩,log := [] }

/-- The steps in surroundings that are fine. -/
def fine (a : ι × Env) (_ : Server ι) : Prop := a.2.Fine

/-- The calls a thread has made. -/
def own (i : ι) (log : List (ι × LibCall)) : List LibCall :=
  (log.filter fun e => e.1 = i).map Prod.snd

end Threads

/-- The requests of a client, one behind the other. -/
def stream (calls : List StubCall) : List UInt8 := calls.flatMap fun c => wire c.message

/-- What the server writes for a call. -/
def reply : LibCall → List UInt8
  | .serviceGetRecgResult _ _ text => wire text
  | .asrDestroy _ rv => wire (be 4 (toU32 rv))
  | _ => []

/-- The calls of the recogniser made for a request, where `h` is the connection's handle: none
for an `asr_init` that is skipped, else one with what was sent. -/
inductive Serves (h : ℤ) : StubCall → List LibCall → ℤ → Prop
  | skipped {configFile sessionNum} : Serves h (.asrInit configFile sessionNum) [] h
  | asrInit {configFile sessionNum} (asr : Option ℤ) : Serves h (.asrInit configFile sessionNum)
      [.asrInit (configFile++[0]) (.ofNat configFile.length) asr] h
  | asrDestroy (asr rv : ℤ) : Serves h .asrDestroy [.asrDestroy asr rv] h
  | serviceInit (asr : ℤ) (handle : Option ℤ) :
      Serves h .serviceInit [.serviceInit asr handle] (handle.getD h)
  | serviceStart : Serves h .serviceStart [.serviceStart h] h
  | serviceRecognize {buffer : Area 31} {flag} : Serves h (.serviceRecognize buffer flag)
      [.serviceRecognize h (buffer.bytes++[0]) (.ofNat buffer.bytes.length) flag] h
  | serviceGetRecgResult {room : ℤ} {text : List UInt8} : (text.length : ℤ) ≤ room →
      room < 2^31 → Serves h .serviceGetRecgResult [.serviceGetRecgResult h room text] h
  | serviceRelease : Serves h .serviceRelease [.serviceRelease h] h
  | serviceSetOption {id value} :
      Serves h (.serviceSetOption id value) [.serviceSetOption h id (value++[0])] h

/-- Requests served one after the other on a connection, and its handle behind them. -/
inductive Served : List StubCall → List LibCall → ℤ → Prop
  | nil : Served [] [] 0
  | snoc {cs ls h c l h'} : Served cs ls h → Serves h c l h' → Served (cs++[c]) (ls++l) h'

/-- What a thread still has to write. -/
def owed : Phase → List UInt8
  | .destroyed rv => wire (be 4 (toU32 rv))
  | _ => []

/-- The reader stands in front of the requests. -/
structure Waits (r : Reader) (calls : List StubCall) : Prop where
  ready : Ready r
  ahead : content r.stream = stream calls

/-- Where a thread stands that has served `done` and has `rest` ahead of it. -/
def Place (t : Thread) (done rest : List StubCall) : Prop :=
  match t.phase with
  | .reading => Waits t.reader rest
  | .locking => ∃ configFile sessionNum more,rest = .asrInit configFile sessionNum::more ∧
      Waits t.reader more ∧ ∃ tail,
        t.reader.p = some ((StubCall.asrInit configFile sessionNum).message++tail)
  | .waiting => ∃ more,rest = .serviceInit::more ∧ Waits t.reader more
  | .starting => ∃ more,rest = .serviceInit::more ∧ Waits t.reader more
  | .destroyed _ => ∃ pre,done = pre++[.asrDestroy]
  | .leaving => ∃ pre,done = pre++[.asrDestroy]
  | .closed => rest = [] ∨ ∃ pre,done = pre++[.asrDestroy]
  | .crashed => False

/-- A thread that made the calls `ls` has served `done` with them, has written the replies, and
has not gone astray. -/
structure Standing (calls : List StubCall) (ls : List LibCall) (t : Thread)
    (done rest : List StubCall) : Prop where
  split : calls = done++rest
  served : Served done ls t.handle
  replied : t.out++owed t.phase = ls.flatMap reply
  place : Place t done rest

/-! ### One thread -/

section Turn
variable {calls done rest : List StubCall} {ls : List LibCall} {t : Thread} {env : Env} {g : Shared}

theorem owed_reading {t : Thread} (h : t.phase = .reading) : owed t.phase = [] := by
  rw [h]
  rfl

/-- Behind a request that has been served. -/
theorem standing_served {c : StubCall} {more : List StubCall} {l : List LibCall} {t' : Thread}
    (h : Standing calls ls t done (c::more)) (howed : owed t.phase = [])
    (hc : Serves t.handle c l t'.handle) (hphase : t'.phase = .reading)
    (hout : t'.out = t.out++l.flatMap reply) (hw : Waits t'.reader more) :
    Standing calls (ls++l) t' (done++[c]) more := by
  have hreplied := h.replied
  rw [howed,List.append_nil] at hreplied
  refine ⟨?_,.snoc h.served hc,?_,?_⟩
  · rw [h.split,List.append_assoc]
    rfl
  · rw [owed_reading hphase,List.append_nil,hout,hreplied,List.flatMap_append]
  · rw [Place,hphase]
    exact hw

/-- The block may be written to between two requests. -/
theorem Waits.replace {r : Reader} {more : List StubCall} (h : Waits r more) {p old : List UInt8}
    (hold : r.p = some old) (hlen : p.length = old.length) :
    Waits { r with p := some p } more := by
  obtain ⟨⟨hvalid,hexact,hclean⟩,hahead⟩ := h
  refine ⟨⟨?_,?_,hclean⟩,hahead⟩
  · rcases hvalid with hnone | ⟨buf,hbuf,h0,hle,hmax⟩
    · rw [hold] at hnone
      cases hnone
    · rw [hold] at hbuf
      cases hbuf
      exact .inr ⟨p,rfl,h0,by rw [hlen]; exact hle,hmax⟩
  · intro buf hbuf
    cases hbuf
    rw [hlen]
    exact hexact old hold

/-- A request that was read is served, or waits for a lock. -/
theorem standing_outcome {c : StubCall} {more : List StubCall} {r' : Reader} {u : Turn}
    (h : Standing calls ls t done (c::more)) (hphase : t.phase = .reading)
    (hw : Waits r' more) {tail : List UInt8} (hp : r'.p = some (c.message++tail))
    (hout : Outcome env g { t with reader := r' } c u) :
    ∃ done' rest',Standing calls (ls++u.calls) u.thread done' rest' := by
  have howed := owed_reading hphase
  have hout₀ : t.out = ls.flatMap reply := by
    rw [← h.replied,howed,List.append_nil]
  have hdone : ∀ {l : List LibCall},Serves t.handle c l t.handle → l.flatMap reply = [] →
      ∃ done' rest',Standing calls (ls++l) { t with reader := r' } done' rest' := by
    intro l hc hl
    refine ⟨_,_,standing_served h howed hc hphase ?_ hw⟩
    rw [hl,List.append_nil]
  cases hout with
  | skipped => exact hdone .skipped rfl
  | locking =>
    refine ⟨done,_,h.split,?_,?_,_,_,more,rfl,hw,tail,hp⟩
    · rw [List.append_nil]
      exact h.served
    · rw [List.append_nil]
      exact (List.append_nil _).trans hout₀
  | destroyed =>
    refine ⟨done++[.asrDestroy],more,?_,.snoc h.served (.asrDestroy _ env.rv),?_,done,rfl⟩
    · rw [h.split,List.append_assoc]
      rfl
    · rw [List.flatMap_append,← hout₀]
      exact congrArg (t.out++·) (List.append_nil _).symm
  | waiting =>
    refine ⟨done,_,h.split,?_,?_,more,rfl,hw⟩
    · rw [List.append_nil]
      exact h.served
    · rw [List.append_nil]
      exact (List.append_nil _).trans hout₀
  | started => exact hdone .serviceStart rfl
  | recognized => exact hdone .serviceRecognize rfl
  | @result p old room text hold hlen hroom htext hle =>
    have hn : room = r'.n-5 := hroom
    have hlt' : room < 2^31 := by
      rcases hw.ready.valid with hnone | ⟨_,_,_,_,hmax⟩
      · rw [hp] at hnone
        cases hnone
      · omega
    exact ⟨_,_,standing_served h howed (.serviceGetRecgResult hle hlt') hphase
      (by simp [reply]) (hw.replace hold hlen)⟩
  | released => exact hdone .serviceRelease rfl
  | optionSet => exact hdone .serviceSetOption rfl

/-- No step of a thread goes astray, and what it leaves is in order again. -/
theorem standing_turn (henv : env.Fine) (hshort : ∀ c ∈ calls,c.message.length < 2^30)
    (h : Standing calls ls t done rest) {r : Except Fault Turn} (hr : turn env g t = some r) :
    ∃ u,r = .ok u ∧ ∃ done' rest',Standing calls (ls++u.calls) u.thread done' rest' := by
  have hplace := h.place
  rw [Place] at hplace
  rw [turn] at hr
  cases hphase : t.phase with
  | reading =>
    rw [hphase] at hplace hr
    cases hr
    cases rest with
    | nil =>
      obtain ⟨r',hrecv⟩ := receive_end (g:=g) henv hplace.ready hplace.ahead
      refine ⟨_,hrecv,done,[],h.split,?_,?_,.inl rfl⟩
      · rw [List.append_nil]
        exact h.served
      · rw [List.append_nil,← h.replied,hphase]
        rfl
    | cons c more =>
      have hc : c ∈ calls := by
        rw [h.split]
        exact List.mem_append_right _ List.mem_cons_self
      obtain ⟨r',u,tail,hrecv,hout,hready,hmore,hp⟩ :=
        receive_message (g:=g) henv c hplace.ready hplace.ahead (hshort c hc)
      exact ⟨u,hrecv,standing_outcome h hphase ⟨hready,hmore⟩ hp hout⟩
  | locking =>
    rw [hphase] at hplace hr
    cases hr
    obtain ⟨configFile,sessionNum,more,rfl,hw,tail,hp⟩ := hplace
    have hc : StubCall.asrInit configFile sessionNum ∈ calls := by
      rw [h.split]
      exact List.mem_append_right _ List.mem_cons_self
    refine ⟨_,initialise_message henv hw.ready hp (hshort _ hc),_,_,
      standing_served h (by rw [hphase]; rfl) (.asrInit env.handle) rfl ?_ hw⟩
    exact (List.append_nil _).symm
  | waiting =>
    rw [hphase] at hplace hr
    simp only at hr
    split_ifs at hr
    cases hr
    refine ⟨_,rfl,done,rest,h.split,?_,?_,hplace⟩
    · rw [List.append_nil]
      exact h.served
    · rw [List.append_nil,← h.replied,hphase]
      rfl
  | starting =>
    rw [hphase] at hplace hr
    cases hr
    obtain ⟨more,rfl,hw⟩ := hplace
    refine ⟨_,rfl,_,_,standing_served h (by rw [hphase]; rfl) (.serviceInit g.userAsr env.handle)
      rfl ?_ hw⟩
    exact (List.append_nil _).symm
  | destroyed rv =>
    rw [hphase] at hplace hr
    cases hr
    refine ⟨_,rfl,done,rest,h.split,?_,?_,hplace⟩
    · rw [List.append_nil]
      exact h.served
    · rw [List.append_nil,← h.replied,hphase,sendRv,writen_all henv.writes]
      exact List.append_nil _
  | leaving =>
    rw [hphase] at hplace hr
    cases hr
    refine ⟨_,rfl,done,rest,h.split,?_,?_,.inr hplace⟩
    · rw [List.append_nil]
      exact h.served
    · rw [List.append_nil,← h.replied,hphase]
      rfl
  | closed =>
    rw [hphase] at hr
    cases hr
  | crashed =>
    rw [hphase] at hr
    cases hr

end Turn

/-! ### All threads -/

section After
variable {ι : Type} [DecidableEq ι]

theorem own_append_self (i : ι) (log : List (ι × LibCall)) (ls : List LibCall) :
    own i (log++ls.map (i,·)) = own i log++ls := by
  simp [own,List.filter_append,List.filter_map,Function.comp_def]

theorem own_append_ne {i j : ι} (h : j ≠ i) (log : List (ι × LibCall)) (ls : List LibCall) :
    own i (log++ls.map (j,·)) = own i log := by
  simp [own,List.filter_append,List.filter_map,Function.comp_def,h]

theorem after_log (s : Server ι) (i : ι) (u : Turn) :
    (s.after i (.ok u)).log = s.log++u.calls.map (i,·) := rfl

theorem after_self (s : Server ι) (i : ι) (u : Turn) : (s.after i (.ok u)).threads i = u.thread := by
  simp [Server.after]

theorem after_ne (s : Server ι) {i j : ι} (u : Turn) (h : j ≠ i) :
    (s.after i (.ok u)).threads j = s.threads j := by
  simp [Server.after,h]

end After

/-! ### A first step -/

/-- Surroundings in which everything goes well. -/
def smooth : Env :=
  { avail := true,mem := AntBuf.plenty,fill := fun _ => 0,rv := 0,handle := some 7,
    result := fun room => if room ≤ 0 then ([],0) else ([65],1),writes := [.eintr,.room 1] }

theorem smooth_fine : smooth.Fine := by
  refine ⟨rfl,fun n hn => AntBuf.plenty_grants n (by omega),fun room hroom => ?_,?_⟩
  · rw [smooth]
    by_cases h : room ≤ 0
    · simp only [if_pos h]
      exact ⟨rfl,hroom⟩
    · simp only [if_neg h]
      exact ⟨rfl,by simp; omega⟩
  · intro e he
    simp only [smooth,List.mem_cons,List.not_mem_nil,or_false] at he
    rcases he with rfl | rfl
    · exact .inl rfl
    · exact .inr ⟨0,rfl⟩

/-- A request in two pieces. -/
def pieces (c : StubCall) (_ : Unit) : List Event :=
  [.data ((wire c.message).take 3),.eintr,.data ((wire c.message).drop 3)]

theorem pieces_clean (c : StubCall) (i : Unit) : Clean (pieces c i) := by
  have hlen : 4 ≤ (wire c.message).length := by
    rw [wire_length]
    omega
  intro e he
  simp only [pieces,List.mem_cons,List.not_mem_nil,or_false] at he
  rcases he with rfl | rfl | rfl
  · exact .inr ⟨_,rfl,List.ne_nil_of_length_pos (by rw [List.length_take]; omega)⟩
  · exact .inl rfl
  · exact .inr ⟨_,rfl,List.ne_nil_of_length_pos (by rw [List.length_drop]; omega)⟩

theorem pieces_content (c : StubCall) (i : Unit) : content (pieces c i) = stream [c] := by
  simp [pieces,content,stream]

/-- The first request of the only connection. -/
theorem first_step {c : StubCall} (hshort : c.message.length < 2^30) :
    ∃ u r',Reach (start (pieces c)) (Via fine exec) ((start (pieces c)).after () (.ok u)) ∧
      Outcome smooth ⟨-1,0⟩ ⟨r',0,.reading,[]⟩ c u ∧ (c.message.length : ℤ) ≤ r'.n := by
  have hready : Ready ⟨none,0,pieces c ()⟩ := ⟨.inl rfl,by rintro _ ⟨⟩,pieces_clean c ()⟩
  have hcontent : content (pieces c ()) = wire c.message++[] := by
    rw [pieces_content]
    simp [stream]
  obtain ⟨r',u,tail,hrecv,hout,hready',-,hp⟩ := receive_message (g:=⟨-1,0⟩)
    (t:=⟨⟨none,0,pieces c ()⟩,0,.reading,[]⟩) smooth_fine c hready hcontent hshort
  refine ⟨u,r',.next .start ⟨((),smooth),smooth_fine,?_⟩,hout,?_⟩
  · exact congrArg (Option.map _) (congrArg some hrecv)
  · rw [← hready'.exact _ hp,List.length_append]
    omega

/-- The first request asks for a result. -/
theorem first_result : ∃ s room,Reach (start (pieces .serviceGetRecgResult)) (Via fine exec) s ∧
    s.log = [((),.serviceGetRecgResult 0 room [65])] ∧ (s.threads ()).phase = .reading ∧
    (s.threads ()).out = [0,0,0,1,65] := by
  have hlen : (StubCall.message .serviceGetRecgResult).length = 36 := by
    rw [StubCall.message,flatMap_wire_length]
    decide
  obtain ⟨u,r',hreach,hout,hn⟩ := first_step (c:=.serviceGetRecgResult) (by omega)
  cases hout with
  | @result p old room text hold hsame hroom htext hle =>
    have hpos : ¬room ≤ 0 := by
      have hroom' : room = r'.n-5 := hroom
      omega
    have htext' : text = [65] := by
      simp only [htext,smooth,if_neg hpos]
    subst htext'
    refine ⟨_,room,hreach,rfl,?_,?_⟩
    · rw [after_self]
    · rw [after_self]
      rfl

/-! ### Runs -/

section Runs
variable {ι : Type} [DecidableEq ι] {calls : ι → List StubCall} {streams : ι → List Event}

/-- In every run every connection is served in the order of its requests and with what they
carry, none of the threads goes astray, and the replies are written in the same order: however
the steps of the threads interleave, however the requests are cut into reads, and whatever the
other connections ask for. -/
theorem session_served (hclean : ∀ i,Clean (streams i))
    (hstream : ∀ i,content (streams i) = stream (calls i))
    (hshort : ∀ i,∀ c ∈ calls i,c.message.length < 2^30) {s : Server ι}
    (h : Reach (start streams) (Via fine exec) s) (i : ι) :
    ∃ done rest,Standing (calls i) (own i s.log) (s.threads i) done rest := by
  revert i
  refine h.invariant (I:=fun s => ∀ i,∃ done rest,
    Standing (calls i) (own i s.log) (s.threads i) done rest) (fun i => ?_) ?_
  · have hready : Ready ⟨none,0,streams i⟩ := ⟨.inl rfl,by rintro _ ⟨⟩,hclean i⟩
    exact ⟨[],calls i,rfl,.nil,rfl,hready,hstream i⟩
  · rintro s s' ih ⟨⟨j,env⟩,henv,hexec⟩ i
    obtain ⟨r,hr,rfl⟩ := Option.map_eq_some_iff.mp hexec
    obtain ⟨done,rest,hj⟩ := ih j
    obtain ⟨u,rfl,done',rest',hu⟩ := standing_turn henv (hshort j) hj hr
    by_cases hij : j = i
    · subst hij
      refine ⟨done',rest',?_⟩
      rw [after_self,after_log,own_append_self]
      exact hu
    · rw [after_ne s u (Ne.symm hij),after_log,own_append_ne hij]
      exact ih i

/-- A client whose calls fit the blocks of their stubs: what the stubs hand to `writen` is
served, and arrives whole when the sockets stay open. -/
theorem stubs_served {mem : AntBuf.Memory} {fill : ℕ → UInt8} {writes : List WriteEvent} (hopen : Open writes)
    (hclean : ∀ i,Clean (streams i)) (hfit : ∀ i,∀ c ∈ calls i,(wire c.message).length ≤ c.blockSize)
    (hstream : ∀ i,content (streams i) = (calls i).flatMap (written mem fill writes)) {s : Server ι}
    (h : Reach (start streams) (Via fine exec) s) (i : ι) :
    ∃ done rest,Standing (calls i) (own i s.log) (s.threads i) done rest := by
  refine session_served hclean (fun i => ?_) (fun i c hc => ?_) h i
  · rw [hstream,stream]
    exact congrArg List.flatten (List.map_congr_left fun c hc => written_eq hopen (hfit i c hc))
  · have hle := hfit i c hc
    rw [wire_length] at hle
    cases c with
    | serviceRecognize buffer flag =>
      rw [← wire_length] at hle
      exact absurd hle (recognize_long buffer flag)
    | _ =>
      simp only [StubCall.blockSize] at hle
      omega

/-- The request for a result is served. -/
theorem session_served_result : ∃ s room,
    Reach (start (pieces .serviceGetRecgResult)) (Via fine exec) s ∧
    s.log = [((),.serviceGetRecgResult 0 room [65])] ∧
    ∃ done rest,Standing [.serviceGetRecgResult] (own () s.log) (s.threads ()) done rest := by
  obtain ⟨s,room,hreach,hlog,-,-⟩ := first_result
  refine ⟨s,room,hreach,hlog,session_served (pieces_clean _) (pieces_content _)
    (fun _ c hc => ?_) hreach ()⟩
  rw [List.mem_singleton.mp hc,StubCall.message,flatMap_wire_length]
  decide

end Runs

/-! ### What the client gets back -/

/-- `readvrec1`: a record longer than the buffer is cut, and its rest stays in the stream. -/
def readvrec1 (es : List Event) (p : List UInt8) (n : ℤ) :
    Except Fault (ℤ × List UInt8 × List Event) := do
  let h ← readn es (List.replicate 4 0) 4
  if h.1 ≠ 4 then .ok (if h.1 < 0 then -1 else 0,p,h.2.2)
  else
    let headlen := min (ofBe h.2.1) (toU32 n)
    let d ← readn h.2.2 p headlen
    .ok (if d.1 ≠ headlen then (if d.1 < 0 then -1 else 0) else d.1,d.2)

/-- The end of `usc_mrcp_service_get_recg_result`: what it returns, and `recgStr`. -/
def recgResult (recgStr : List UInt8) (bufLen : ℤ) (es : List Event) :
    Except Fault ((ℤ × List UInt8) × List Event) := do
  let r ← readvrec1 es recgStr (bufLen-1)
  let p ← if 0 < r.1 then writeAt r.2.1 r.1.toNat [0] else .ok r.2.1
  .ok ((r.1,p),r.2.2)

/-- How a stub waits for its reply, if it does. `usc_mrcp_asr_destroy` drops it. -/
def receiveReply (recgStr : List UInt8) (bufLen : ℤ) (c : StubCall) (es : List Event) :
    Except Fault (Option (ℤ × List UInt8) × List Event) :=
  match c with
  | .serviceGetRecgResult => do
    let r ← recgResult recgStr bufLen es
    .ok (some r.1,r.2)
  | .asrDestroy => do
    let r ← readn es (List.replicate 48 0) 8
    .ok (none,r.2.2)
  | _ => .ok (none,es)

/-- A text of the recogniser as a client holds it: its length, and a buffer that begins with it. -/
def held (recgStr text : List UInt8) : ℤ × List UInt8 :=
  (text.length,if text = [] then recgStr else text++0::recgStr.drop (text.length+1))

/-- The texts of the recogniser. -/
def texts (ls : List LibCall) : List (List UInt8) :=
  ls.filterMap fun
    | .serviceGetRecgResult _ _ text => some text
    | _ => none

section Client
variable {recgStr : List UInt8} {bufLen : ℕ} {es : List Event} {more : List UInt8}

/-- A text that fits is received with a NUL behind it. -/
theorem recgResult_text {text : List UInt8} (hc : Clean es) (hs : content es = wire text++more)
    (hfit : text.length < bufLen) (hbuf : bufLen ≤ recgStr.length) (hlen : bufLen < 2^31) :
    ∃ es',recgResult recgStr bufLen es = .ok (held recgStr text,es') ∧ content es' = more ∧
      Clean es' := by
  have hwire : wire text = be 4 text.length++text := rfl
  obtain ⟨es₁,hread₁,hrest₁,hclean₁⟩ := readn_full es (List.replicate 4 0) [] hc (by simp [hs,hwire])
  have hhead : (content es).take 4 = be 4 text.length := by
    rw [hs,hwire,List.append_assoc]
    exact List.take_left' (by simp)
  have hbody : content es₁ = text++more := by
    rw [hrest₁,hs,hwire,List.append_assoc]
    exact List.drop_left' (by simp)
  simp only [List.length_replicate,List.append_nil,hhead] at hread₁
  have hword : ofBe (be 4 text.length) = text.length := ofBe_be_of_lt (by omega)
  have hroom : toU32 ((bufLen : ℤ)-1) = bufLen-1 := by
    rw [toU32]
    omega
  have hmin : min text.length (bufLen-1) = text.length := by omega
  obtain ⟨old,post,rfl,hold⟩ := exists_split (by omega : text.length ≤ recgStr.length)
  obtain ⟨es₂,hread₂,hrest₂,hclean₂⟩ := readn_full es₁ old post hclean₁ (by rw [hold,hbody]; simp)
  have htake : (content es₁).take old.length = text := by
    rw [hold,hbody,List.take_left]
  rw [htake,hold] at hread₂
  have hrec : readvrec1 es (old++post) ((bufLen : ℤ)-1) = .ok (text.length,text++post,es₂) := by
    simp only [readvrec1,hread₁,ok_bind,Nat.cast_ofNat,ne_eq,not_true_eq_false,if_false,hword,
      hroom,hmin,hread₂]
  refine ⟨es₂,?_,by rw [hrest₂,hbody,hold,List.drop_left],hclean₂⟩
  rw [recgResult,hrec]
  by_cases hnil : text = []
  · subst hnil
    have hold' : old = [] := List.length_eq_zero_iff.mp hold
    subst hold'
    rfl
  · have hpos := List.length_pos_iff.mpr hnil
    rw [List.length_append,hold] at hbuf
    obtain ⟨b,post,rfl⟩ := List.exists_cons_of_length_pos (by omega : 0 < post.length)
    have hnul : writeAt (text++b::post) text.length [0] = .ok (text++0::post) := writeAt_cons rfl
    have hdrop : (old++b::post).drop (text.length+1) = post := by
      rw [← hold,List.drop_length_add_append]
      rfl
    have hpos' : (0 : ℤ) < text.length := by omega
    simp only [ok_bind,if_pos hpos',Int.toNat_natCast,hnul,held,if_neg hnil,hdrop]

/-- The reply of one request. -/
theorem receive_served {c : StubCall} {l : List LibCall} {h h' : ℤ} (hserved : Serves h c l h')
    (hc : Clean es) (hs : content es = l.flatMap reply++more)
    (hfit : ∀ text ∈ texts l,text.length < bufLen) (hbuf : bufLen ≤ recgStr.length)
    (hlen : bufLen < 2^31) :
    ∃ o es',receiveReply recgStr bufLen c es = .ok (o,es') ∧ content es' = more ∧ Clean es' ∧
      [o].filterMap id = (texts l).map (held recgStr) := by
  cases hserved with
  | @serviceGetRecgResult room text =>
    have hs' : content es = wire text++more := by
      rw [hs]
      simp [reply]
    obtain ⟨es',hrecv,hmore,hclean⟩ :=
      recgResult_text hc hs' (hfit text List.mem_cons_self) hbuf hlen
    exact ⟨_,es',by rw [receiveReply,hrecv]; rfl,hmore,hclean,rfl⟩
  | asrDestroy asr rv =>
    have hs' : content es = wire (be 4 (toU32 rv))++more := by
      rw [hs]
      simp [reply]
    obtain ⟨es',hread,hmore,hclean⟩ :=
      readn_full es (List.replicate 8 0) (List.replicate 40 0) hc (by rw [hs']; simp)
    have hblock : List.replicate 8 (0 : UInt8)++List.replicate 40 0 = List.replicate 48 0 :=
      List.replicate_append_replicate
    rw [hblock,List.length_replicate] at hread
    refine ⟨none,es',by rw [receiveReply,hread]; rfl,?_,hclean,rfl⟩
    rw [hmore,hs']
    exact List.drop_left' (by simp)
  | _ => exact ⟨none,es,rfl,hs,hc,rfl⟩

/-- The replies of requests that were served, received one after the other. -/
theorem served_received {done : List StubCall} {ls : List LibCall} {h : ℤ} (hserved : Served done ls h)
    (hc : Clean es) (hs : content es = ls.flatMap reply++more)
    (hfit : ∀ text ∈ texts ls,text.length < bufLen) (hbuf : bufLen ≤ recgStr.length)
    (hlen : bufLen < 2^31) :
    ∃ res es',runs (receiveReply recgStr bufLen) done es = .ok (res,es') ∧ content es' = more ∧
      Clean es' ∧ res.filterMap id = (texts ls).map (held recgStr) := by
  induction hserved generalizing more with
  | nil => exact ⟨[],es,rfl,hs,hc,rfl⟩
  | @snoc done ls h c l h' hserved hstep ih =>
    rw [List.flatMap_append,List.append_assoc] at hs
    have htexts : texts (ls++l) = texts ls++texts l := List.filterMap_append
    obtain ⟨res,es₁,hrun,hmid,hclean,hres⟩ := ih hs fun text ht => hfit text (by simp [htexts,ht])
    obtain ⟨o,es₂,hlast,hend,hclean₂,ho⟩ :=
      receive_served hstep hclean hmid (fun text ht => hfit text (by simp [htexts,ht])) hbuf hlen
    refine ⟨res++[o],es₂,?_,hend,hclean₂,?_⟩
    · rw [runs_append,hrun]
      simp only [ok_bind,runs_cons,hlast,runs_nil]
    · rw [List.filterMap_append,hres,htexts,List.map_append,ho]

end Client

section Runs
variable {ι : Type} [DecidableEq ι] {calls : ι → List StubCall} {streams : ι → List Event}

/-- In every run, whatever has been served of a client's calls: the client that then waits for
the replies one after the other gets the texts of the recogniser in their order and nothing
else, in every fragmentation of what the server has written, if its buffer has room for each. -/
theorem client_receives (hclean : ∀ i,Clean (streams i))
    (hstream : ∀ i,content (streams i) = stream (calls i))
    (hshort : ∀ i,∀ c ∈ calls i,c.message.length < 2^30) {s : Server ι}
    (h : Reach (start streams) (Via fine exec) s) (i : ι) {es : List Event} (hes : Clean es)
    (hout : content es = (s.threads i).out) (howed : owed (s.threads i).phase = [])
    {recgStr : List UInt8} {bufLen : ℕ} (hbuf : bufLen ≤ recgStr.length) (hlen : bufLen < 2^31)
    (hfit : ∀ text ∈ texts (own i s.log),text.length < bufLen) :
    ∃ done res es',done <+: calls i ∧ Served done (own i s.log) (s.threads i).handle ∧
      runs (receiveReply recgStr bufLen) done es = .ok (res,es') ∧ content es' = [] ∧
      res.filterMap id = (texts (own i s.log)).map (held recgStr) := by
  obtain ⟨done,rest,hstand⟩ := session_served hclean hstream hshort h i
  have hreplied := hstand.replied
  rw [howed,List.append_nil] at hreplied
  have hcontent : content es = (own i s.log).flatMap reply++[] := by
    rw [hout,hreplied,List.append_nil]
  obtain ⟨res,es',hrun,hmore,-,hres⟩ := served_received hstand.served hes hcontent hfit hbuf hlen
  exact ⟨done,res,es',⟨rest,hstand.split.symm⟩,hstand.served,hrun,hmore,hres⟩

/-- The client has the text, in three pieces. -/
theorem client_receives_result : ∃ s done res es',
    Reach (start (pieces .serviceGetRecgResult)) (Via fine exec) s ∧
    Served done (own () s.log) (s.threads ()).handle ∧
    runs (receiveReply [1,2,3,4] 4) done [.data [0,0],.eintr,.data [0,1],.data [65]] =
      .ok (res,es') ∧ res.filterMap id = [(1,[65,0,3,4])] := by
  obtain ⟨s,room,hreach,hlog,hphase,hout⟩ := first_result
  have hown : texts (own () s.log) = [[65]] := by
    rw [hlog]
    rfl
  have hclean : Clean [.data [0,0],.eintr,.data [0,1],.data [65]] := by simp [Clean]
  have hshort : ∀ i : Unit,∀ c ∈ [StubCall.serviceGetRecgResult],c.message.length < 2^30 := by
    intro i c hc
    rw [List.mem_singleton.mp hc,StubCall.message,flatMap_wire_length]
    decide
  obtain ⟨done,res,es',-,hserved,hrun,-,hres⟩ := client_receives (pieces_clean _) (pieces_content _)
    hshort hreach () hclean (by rw [hout]; rfl) (by rw [hphase]; rfl)
    (by decide : 4 ≤ [1,2,3,(4 : UInt8)].length) (by decide) (by simp [hown])
  rw [hown] at hres
  exact ⟨s,done,res,es',hreach,hserved,hrun,hres⟩

end Runs

/-! ### The recogniser -/

/-- The call makes a recogniser. -/
def isInit : LibCall → Bool
  | .asrInit .. => true
  | _ => false

/-- The recogniser with this handle was made by one of the calls. -/
def Made {ι : Type} (log : List (ι × LibCall)) (asr : ℤ) : Prop :=
  asr = -1 ∨ ∃ i configFile sessionNum,(i,LibCall.asrInit configFile sessionNum (some asr)) ∈ log

/-- What a call needs of the calls before it: a `service_init` comes behind an `asr_init`, and
the recogniser of a `service_init` or of an `asr_destroy` is -1 or was made by an `asr_init`. -/
def Grounded {ι : Type} (pre : List (ι × LibCall)) : LibCall → Prop
  | .serviceInit asr _ => (∃ e ∈ pre,isInit e.2 = true) ∧ Made pre asr
  | .asrDestroy asr _ => Made pre asr
  | _ => True

/-- The calls that have to do with a recogniser itself. -/
def isEngine : LibCall → Bool
  | .asrInit .. => true
  | .asrDestroy .. => true
  | .serviceInit .. => true
  | _ => false

/-- What a step of a thread can do to what is shared, and which calls come with it. -/
inductive Effect (g : Shared) (phase : Phase) : Turn → Prop
  | quiet {t ls} : (∀ l ∈ ls,isEngine l = false) → t.phase ≠ .starting → Effect g phase ⟨g,t,ls⟩
  | woken {t} : g.status ≠ 0 → Effect g phase ⟨g,t,[]⟩
  | served {t handle} : phase = .starting → t.phase ≠ .starting →
      Effect g phase ⟨g,t,[.serviceInit g.userAsr handle]⟩
  | made {t configFile sessionNum asr} : t.phase ≠ .starting →
      Effect g phase ⟨⟨asr.getD g.userAsr,1⟩,t,[.asrInit configFile sessionNum asr]⟩
  | destroyed {t rv} : t.phase ≠ .starting → Effect g phase ⟨g,t,[.asrDestroy g.userAsr rv]⟩
  | cleared {t} : t.phase ≠ .starting → Effect g phase ⟨⟨-1,g.status⟩,t,[]⟩
  | left {t} : t.phase ≠ .starting → Effect g phase ⟨⟨g.userAsr,0⟩,t,[]⟩

section Effect
variable {env : Env} {g : Shared} {t : Thread} {p : List UInt8} {u : Turn}

theorem serve_effect (ht : t.phase = .reading) (h : serve env g t p = .ok u) :
    Effect g .reading u := by
  have hphase : t.phase ≠ .starting := by
    rw [ht]
    decide
  rw [serve] at h
  obtain ⟨offset,-,h⟩ := bind_eq_ok.mp h
  cases hw : which p with
  | none =>
    rw [hw] at h
    cases h
    exact .quiet (fun l hl => by cases hl) hphase
  | some f =>
    rw [hw] at h
    cases f with
    | asrInit =>
      cases h
      refine .quiet (fun l hl => by cases hl) ?_
      split_ifs
      · exact hphase
      · exact fun hlocking => by cases hlocking
    | asrDestroy =>
      cases h
      exact .destroyed fun hstart => by cases hstart
    | serviceInit =>
      cases h
      exact .quiet (fun l hl => by cases hl) fun hstart => by cases hstart
    | serviceStart =>
      cases h
      exact .quiet (by simp [isEngine]) hphase
    | serviceRecognize =>
      obtain ⟨arg,-,h⟩ := bind_eq_ok.mp h
      obtain ⟨flag,-,h⟩ := bind_eq_ok.mp h
      cases h
      exact .quiet (by simp [isEngine]) hphase
    | serviceGetRecgResult =>
      obtain ⟨p₁,-,h⟩ := bind_eq_ok.mp h
      obtain ⟨p₂,-,h⟩ := bind_eq_ok.mp h
      obtain ⟨sent,-,h⟩ := bind_eq_ok.mp h
      cases h
      exact .quiet (by simp [isEngine]) hphase
    | serviceRelease =>
      cases h
      exact .quiet (by simp [isEngine]) hphase
    | serviceSetOption =>
      obtain ⟨id,-,h⟩ := bind_eq_ok.mp h
      obtain ⟨arg,-,h⟩ := bind_eq_ok.mp h
      cases h
      exact .quiet (by simp [isEngine]) hphase

theorem receive_effect (ht : t.phase = .reading) (h : receive env g t = .ok u) :
    Effect g .reading u := by
  rw [receive] at h
  obtain ⟨r,-,h⟩ := bind_eq_ok.mp h
  split_ifs at h
  · cases h
    exact .quiet (fun l hl => by cases hl) fun hstart => by cases hstart
  · obtain ⟨p,-,h⟩ := bind_eq_ok.mp h
    exact serve_effect (t:={ t with reader := r.2 }) ht h

theorem initialise_effect (h : initialise env g t = .ok u) : Effect g t.phase u := by
  rw [initialise] at h
  obtain ⟨p,-,h⟩ := bind_eq_ok.mp h
  obtain ⟨offset,-,h⟩ := bind_eq_ok.mp h
  obtain ⟨arg,-,h⟩ := bind_eq_ok.mp h
  obtain ⟨n,-,h⟩ := bind_eq_ok.mp h
  cases h
  exact .made fun hstart => by cases hstart

theorem turn_effect (h : turn env g t = some (.ok u)) : Effect g t.phase u := by
  rw [turn] at h
  cases hphase : t.phase with
  | reading =>
    rw [hphase] at h
    exact receive_effect hphase (Option.some.inj h)
  | locking =>
    rw [hphase] at h
    exact hphase ▸ initialise_effect (Option.some.inj h)
  | waiting =>
    rw [hphase] at h
    simp only at h
    split_ifs at h with hopen
    cases h
    exact .woken hopen
  | starting =>
    rw [hphase] at h
    cases h
    exact .served rfl fun hstart => by cases hstart
  | destroyed rv =>
    rw [hphase] at h
    cases h
    exact .cleared fun hstart => by cases hstart
  | leaving =>
    rw [hphase] at h
    cases h
    exact .left fun hstart => by cases hstart
  | closed =>
    rw [hphase] at h
    cases h
  | crashed =>
    rw [hphase] at h
    cases h

end Effect

section Runs
variable {ι : Type} {log more : List (ι × LibCall)}

theorem Made.mono {asr : ℤ} (h : Made log asr) : Made (log++more) asr := by
  rcases h with rfl | ⟨i,configFile,sessionNum,he⟩
  · exact .inl rfl
  · exact .inr ⟨i,configFile,sessionNum,List.mem_append_left _ he⟩

theorem exists_init_mono (h : ∃ e ∈ log,isInit e.2 = true) :
    ∃ e ∈ log++more,isInit e.2 = true := by
  obtain ⟨e,he,hinit⟩ := h
  exact ⟨e,List.mem_append_left _ he,hinit⟩

theorem Grounded.mono {l : LibCall} (h : Grounded log l) : Grounded (log++more) l := by
  cases l with
  | serviceInit => exact ⟨exists_init_mono h.1,h.2.mono⟩
  | asrDestroy => exact Made.mono h
  | _ => trivial

/-- Every call has in front of it what it needs. -/
def AllGrounded (log : List (ι × LibCall)) : Prop :=
  ∀ pre e post,log = pre++e::post → Grounded pre e.2

theorem AllGrounded.append (h : AllGrounded log) (hmore : ∀ e ∈ more,Grounded log e.2) :
    AllGrounded (log++more) := by
  intro pre e post hsplit
  rcases List.append_eq_append_iff.mp hsplit with ⟨as,hpre,hmore'⟩ | ⟨bs,hlog,hpost⟩
  · rw [hpre]
    exact (hmore e (by rw [hmore']; simp)).mono
  · cases bs with
    | nil =>
      have hlog' : log = pre := by rw [hlog,List.append_nil]
      rw [← hlog']
      exact hmore e (by rw [← hpost.trans (List.nil_append _)]; simp)
    | cons b bs =>
      obtain ⟨rfl,-⟩ := List.cons_eq_cons.mp hpost
      exact h pre e bs hlog

/-- The status is open, or a thread has found it open, only behind an `asr_init`, and `user_asr`
was made by one. -/
structure Grounding (s : Server ι) : Prop where
  opened : s.shared.status ≠ 0 → ∃ e ∈ s.log,isInit e.2 = true
  woken : ∀ i,(s.threads i).phase = .starting → ∃ e ∈ s.log,isInit e.2 = true
  made : Made s.log s.shared.userAsr
  calls : AllGrounded s.log

variable [DecidableEq ι] {s : Server ι} {i : ι} {u : Turn}

/-- A thread that finds the status open. -/
theorem Grounding.found (h : Grounding s) (hu : u.thread.phase = .starting →
      ∃ e ∈ s.log++u.calls.map (i,·),isInit e.2 = true) (j : ι)
    (hj : ((s.after i (.ok u)).threads j).phase = .starting) :
    ∃ e ∈ s.log++u.calls.map (i,·),isInit e.2 = true := by
  by_cases hij : j = i
  · rw [hij,after_self] at hj
    exact hu hj
  · rw [after_ne s u hij] at hj
    exact exists_init_mono (h.woken j hj)

theorem Grounding.after (h : Grounding s) (heff : Effect s.shared (s.threads i).phase u) :
    Grounding (s.after i (.ok u)) := by
  cases heff with
  | @quiet t ls hquiet hphase =>
    refine ⟨fun hopen => exists_init_mono (h.opened hopen),h.found fun hs => absurd hs hphase,
      h.made.mono,h.calls.append fun e he => ?_⟩
    obtain ⟨l,hl,rfl⟩ := List.mem_map.mp he
    have hl := hquiet l hl
    cases l <;> trivial
  | woken hopen =>
    exact ⟨fun hopen => exists_init_mono (h.opened hopen),
      h.found fun _ => exists_init_mono (h.opened hopen),h.made.mono,
      h.calls.append fun e he => by cases he⟩
  | @served t handle hstart hphase =>
    refine ⟨fun hopen => exists_init_mono (h.opened hopen),h.found fun hs => absurd hs hphase,
      h.made.mono,h.calls.append fun e he => ?_⟩
    cases List.mem_singleton.mp he
    exact ⟨h.woken i hstart,h.made⟩
  | @made t configFile sessionNum asr hphase =>
    refine ⟨fun _ => ⟨_,List.mem_append_right _ (List.mem_singleton.mpr rfl),rfl⟩,
      h.found fun hs => absurd hs hphase,?_,h.calls.append fun e he => ?_⟩
    · cases asr with
      | none => exact h.made.mono
      | some asr =>
        exact .inr ⟨i,configFile,sessionNum,List.mem_append_right _ (List.mem_singleton.mpr rfl)⟩
    · cases List.mem_singleton.mp he
      trivial
  | @destroyed t rv hphase =>
    refine ⟨fun hopen => exists_init_mono (h.opened hopen),h.found fun hs => absurd hs hphase,
      h.made.mono,h.calls.append fun e he => ?_⟩
    cases List.mem_singleton.mp he
    exact h.made
  | cleared hphase =>
    exact ⟨fun hopen => exists_init_mono (h.opened hopen),h.found fun hs => absurd hs hphase,
      .inl rfl,h.calls.append fun e he => by cases he⟩
  | left hphase =>
    exact ⟨fun hopen => absurd rfl hopen,h.found fun hs => absurd hs hphase,h.made.mono,
      h.calls.append fun e he => by cases he⟩

theorem Grounding.crashed (h : Grounding s) (e : Fault) : Grounding (s.after i (.error e)) := by
  refine ⟨h.opened,fun j hj => ?_,h.made,h.calls⟩
  by_cases hij : j = i
  · subst hij
    simp [Server.after] at hj
  · simp only [Server.after,Function.update_of_ne hij] at hj
    exact h.woken j hj

/-- In every run, whatever the clients send and the surroundings do: a `service_init` of the
recogniser comes behind an `asr_init`, and the handle that a `service_init` or an `asr_destroy`
is called with is -1 or came from an `asr_init` before it. -/
theorem recogniser_made {streams : ι → List Event}
    (h : Reach (start streams) (Via (fun _ _ => True) exec) s) : AllGrounded s.log := by
  refine (h.invariant (I:=Grounding) ?_ ?_).calls
  · refine ⟨fun hopen => absurd rfl hopen,by rintro i ⟨⟩,.inl rfl,?_⟩
    intro pre e post hsplit
    cases pre <;> cases hsplit
  · rintro s s' hs ⟨⟨i,env⟩,-,hexec⟩
    obtain ⟨r,hr,rfl⟩ := Option.map_eq_some_iff.mp hexec
    cases r with
    | ok u => exact hs.after (turn_effect hr)
    | error e => exact hs.crashed e

end Runs

/-- An `asr_destroy` that comes first is handed -1. -/
theorem recogniser_made_destroy : ∃ s,
    Reach (start (pieces .asrDestroy)) (Via (fun _ _ => True) exec) s ∧
    s.log = [((),.asrDestroy (-1) 0)] ∧ AllGrounded s.log := by
  have hshort : (StubCall.message .asrDestroy).length < 2^30 := by
    rw [StubCall.message,flatMap_wire_length]
    decide
  obtain ⟨u,r',hreach,hout,-⟩ := first_step hshort
  have hreach' : Reach (start (pieces .asrDestroy)) (Via (fun _ _ => True) exec)
      ((start (pieces .asrDestroy)).after () (.ok u)) := by
    refine hreach.mono ?_
    rintro _ _ - ⟨a,-,ha⟩
    exact ⟨a,trivial,ha⟩
  cases hout
  exact ⟨_,hreach',rfl,recogniser_made hreach'⟩

end ThreadSession
end RecycleBin
