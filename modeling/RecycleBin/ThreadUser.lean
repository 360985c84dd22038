import RecycleBin.ThreadCall
import RecycleBin.ThreadInt

/-! The server side of the RPC protocol: `process_msg` of `thread/user.c`. Each connection has a
thread that reads requests and calls the recogniser; all threads share `user_asr` and `status`.
A step of a thread ends where it next looks at what is shared, or blocks. -/
namespace RecycleBin
namespace ThreadUser
open Bytes ThreadProto AntBuf ThreadRequest ThreadPop ThreadRecord ThreadCall

/-- What a step meets: memory, the answers of the recogniser, and the socket. `handle` is what a
call stores through its pointer, `result` the text and the return value for a room. -/
structure Env where
  avail : Bool
  mem : Memory
  fill : ℕ → UInt8
  rv : ℤ
  handle : Option ℤ
  result : ℤ → List UInt8 × ℤ
  writes : List WriteEvent

/-- Where a thread stands: at `readvrec`; in front of the lock of an `asr_init`; in the loop
around `WAIT`; behind it; behind the call of an `asr_destroy`; in front of `set_status_close`;
at the end; or behind an access that is undefined. -/
inductive Phase
  | reading | locking | waiting | starting | destroyed (rv : ℤ) | leaving | closed | crashed
  deriving DecidableEq

/-- A thread: `p`, `n` and the stream it reads from, `Handle`, and what it has written. -/
structure Thread where
  reader : Reader
  handle : ℤ
  phase : Phase
  out : List UInt8

/-- `user_asr` and `status` -/
structure Shared where
  userAsr : ℤ
  status : ℕ

/-- A call of the recogniser, with its answer. -/
inductive LibCall
  | asrInit (configFile : List UInt8) (sessionNum : UInt32) (asr : Option ℤ)
  | asrDestroy (asr rv : ℤ)
  | serviceInit (asr : ℤ) (handle : Option ℤ)
  | serviceStart (handle : ℤ)
  | serviceRecognize (handle : ℤ) (buffer : List UInt8) (len lastSectFlag : UInt32)
  | serviceGetRecgResult (handle room : ℤ) (text : List UInt8)
  | serviceRelease (handle : ℤ)
  | serviceSetOption (handle : ℤ) (optionId : UInt32) (value : List UInt8)
  deriving DecidableEq

/-- What a step leaves. -/
structure Turn where
  shared : Shared
  thread : Thread
  calls : List LibCall

/-- `CMP(p + 4, name)` is 0. The block is longer than any of the names. -/
def cmp (p name : List UInt8) : Bool := (p.drop 4).take name.length = name

/-- The branches of `process_msg`, in the order in which they are tried. -/
def funs : List Fun :=
  [.asrInit,.asrDestroy,.serviceInit,.serviceStart,.serviceRecognize,.serviceGetRecgResult,
    .serviceRelease,.serviceSetOption]

def which (p : List UInt8) : Option Fun := funs.find? fun f => cmp p f.name

/-- `SKIP_FUN` -/
def skipFun (p : List UInt8) : Except Fault UInt32 := do
  let head ← readAt p 0 4
  .ok (4+UInt32.ofNat (ofBe head))

def orFault {α : Type} (x : Except Stop α) : Except Fault α := x.mapError fun _ => .undefined

/-- `POP_BUF(p, offset, n, argbuf, narg1)`: `argbuf`, `narg1` and the offset. `n` is the size of
the block. -/
def popArg (env : Env) (p : List UInt8) (offset : UInt32) :
    Except Fault (List UInt8 × UInt32 × UInt32) := do
  let r ← orFault (popBuf env.mem env.fill p offset)
  .ok (r.1,UInt32.ofNat (announced p offset),r.2)

/-- `POP_INT(p, offset, n, arg, 4)` into a variable that is 0: its value and the offset. -/
def popArgInt (signed : Bool) (p : List UInt8) (offset : UInt32) :
    Except Fault (UInt32 × UInt32) := do
  let r ← orFault (popInt signed (List.replicate 4 0) p offset)
  .ok (UInt32.ofNat (ofLe r.1),r.2)

/-- `send_rv` gives a word of four bytes to `writen`. -/
def sendRv (writes : List WriteEvent) (rv : ℤ) : List UInt8 :=
  writen writes (be 4 4++be 4 (toU32 rv))

/-- The branch for the message in `p`. -/
def serve (env : Env) (g : Shared) (t : Thread) (p : List UInt8) : Except Fault Turn := do
  let offset ← skipFun p
  match which p with
  | some .asrInit => .ok ⟨g,if g.userAsr ≠ -1 then t else { t with phase := .locking },[]⟩
  | some .asrDestroy =>
    .ok ⟨g,{ t with phase := .destroyed env.rv },[.asrDestroy g.userAsr env.rv]⟩
  | some .serviceInit => .ok ⟨g,{ t with phase := .waiting },[]⟩
  | some .serviceStart => .ok ⟨g,t,[.serviceStart t.handle]⟩
  | some .serviceRecognize => do
    let arg ← popArg env p offset
    let flag ← popArgInt true p arg.2.2
    .ok ⟨g,t,[.serviceRecognize t.handle arg.1 arg.2.1 flag.1]⟩
  | some .serviceGetRecgResult => do
    let room := t.reader.n-5
    let r := env.result room
    let p ← writeAt p 4 r.1
    let p ← writeAt p 0 (be 4 (toU32 r.2))
    let sent ← readAt p 0 (r.2+4).toNat
    .ok ⟨g,{ t with reader := { t.reader with p := some p },out := t.out++writen env.writes sent },
      [.serviceGetRecgResult t.handle room r.1]⟩
  | some .serviceRelease => .ok ⟨g,t,[.serviceRelease t.handle]⟩
  | some .serviceSetOption => do
    let id ← popArgInt true p offset
    let arg ← popArg env p id.2
    .ok ⟨g,t,[.serviceSetOption t.handle id.1 arg.1]⟩
  | none => .ok ⟨g,t,[]⟩

/-- The next turn of the loop. A thread whose peer is gone closes its socket. -/
def receive (env : Env) (g : Shared) (t : Thread) : Except Fault Turn := do
  let r ← readvrec env.avail t.reader
  if r.1 = 0 then .ok ⟨g,{ t with reader := r.2,phase := .closed },[]⟩
  else
    let p ← r.2.p.elim (.error .undefined) .ok
    serve env g { t with reader := r.2 } p

/-- The rest of an `asr_init`, with the lock held. -/
def initialise (env : Env) (g : Shared) (t : Thread) : Except Fault Turn := do
  let p ← t.reader.p.elim (.error .undefined) .ok
  let offset ← skipFun p
  let arg ← popArg env p offset
  let _ ← popArgInt false p arg.2.2
  .ok ⟨{ userAsr := env.handle.getD g.userAsr,status := 1 },{ t with phase := .reading },
    [.asrInit arg.1 arg.2.1 env.handle]⟩

/-- The next step of a thread, unless it is blocked or at its end. A thread in `WAIT` may wake up
at any time; it goes on when it finds the status open. -/
def turn (env : Env) (g : Shared) (t : Thread) : Option (Except Fault Turn) :=
  match t.phase with
  | .reading => some (receive env g t)
  | .locking => some (initialise env g t)
  | .waiting => if g.status = 0 then none else some (.ok ⟨g,{ t with phase := .starting },[]⟩)
  | .starting =>
    some (.ok ⟨g,{ t with handle := env.handle.getD t.handle,phase := .reading },
      [.serviceInit g.userAsr env.handle]⟩)
  | .destroyed rv =>
    some (.ok ⟨{ g with userAsr := -1 },
      { t with out := t.out++sendRv env.writes rv,phase := .leaving },[]⟩)
  | .leaving => some (.ok ⟨{ g with status := 0 },{ t with phase := .closed },[]⟩)
  | .closed => none
  | .crashed => none

/-! ### The fields of a message -/

/-- Names differ before either ends. -/
theorem name_prefixFree {f f' : Fun} (h : f.name <+: f'.name) : f = f' := by
  cases f <;> cases f' <;> first
    | rfl
    | exact absurd h (by decide)

theorem cmp_iff (f f' : Fun) (rest : List UInt8) :
    cmp (be 4 f.name.length++(f.name++rest)) f'.name = decide (f' = f) := by
  rw [cmp,List.drop_left' (be_length 4 _),decide_eq_decide]
  constructor
  · intro h
    have hp : f'.name <+: f.name++rest := by
      rw [← h]
      exact List.take_prefix _ _
    rcases List.prefix_or_prefix_of_prefix hp (List.prefix_append f.name rest) with h | h
    · exact name_prefixFree h
    · exact (name_prefixFree h).symm
  · rintro rfl
    exact List.take_left

/-- A message is dispatched to the function it was packed for. -/
theorem which_message (f : Fun) (rest : List UInt8) :
    which (be 4 f.name.length++(f.name++rest)) = some f := by
  have hfun : (fun f' : Fun => cmp (be 4 f.name.length++(f.name++rest)) f'.name) =
      fun f' => decide (f' = f) := funext fun f' => cmp_iff f f' rest
  rw [which,hfun]
  cases f <;> decide

theorem name_length_lt (f : Fun) : f.name.length ≤ 32 := by
  cases f <;> decide

theorem skipFun_message (f : Fun) (rest : List UInt8) :
    ∃ offset,skipFun (wire f.name++rest) = .ok offset ∧ offset.toNat = (wire f.name).length := by
  have hread : readAt (wire f.name++rest) 0 4 = .ok (be 4 f.name.length) := by
    rw [wire,List.append_assoc]
    exact readAt_zero (be_length 4 _).symm
  have hword : ofBe (be 4 f.name.length) = f.name.length :=
    ofBe_be_of_lt (by have := name_length_lt f; omega)
  refine ⟨4+UInt32.ofNat f.name.length,?_,?_⟩
  · rw [skipFun,hread,ok_bind,hword]
  · have hlen := name_length_lt f
    rw [UInt32.toNat_add,toNat_ofNat32 (by omega),wire_length]
    exact Nat.mod_eq_of_lt (by change 4+f.name.length < 2^32; omega)

section Fields
variable {pre s post : List UInt8} {offset : UInt32}

theorem announced_wire (post : List UInt8) (hoff : offset.toNat = pre.length) (hs : s.length < 2^32) :
    announced (pre++wire s++post) offset = s.length := by
  have hword : ((pre++wire s++post).drop pre.length).take 4 = be 4 s.length := by
    rw [List.append_assoc,List.drop_left,wire,List.append_assoc]
    exact List.take_left' (be_length 4 _)
  rw [announced,hoff,hword]
  exact ofBe_be_of_lt hs

/-- Behind a field. -/
theorem behind_wire (hoff : offset.toNat = pre.length) (hlen : (pre++wire s).length < 2^32) :
    (offset+4+UInt32.ofNat s.length).toNat = (pre++wire s).length := by
  have h4 : (4 : UInt32).toNat = 4 := rfl
  rw [List.length_append,wire_length] at hlen ⊢
  rw [UInt32.toNat_add,UInt32.toNat_add,hoff,h4,toNat_ofNat32 (by omega)]
  omega

/-- A string is popped with a NUL behind it. -/
theorem popArg_wire {env : Env} (hoff : offset.toNat = pre.length)
    (hlen : (pre++wire s++post).length < 2^31) (hmem : env.mem.grants (s.length+1) = true) :
    ∃ offset',popArg env (pre++wire s++post) offset =
        .ok (s++[0],UInt32.ofNat s.length,offset') ∧ offset'.toNat = (pre++wire s).length := by
  have hsize : (pre++wire s).length+post.length < 2^31 := by rwa [← List.length_append]
  rw [List.length_append,wire_length] at hsize
  have hann := announced_wire post hoff (by omega : s.length < 2^32)
  refine ⟨offset+4+UInt32.ofNat s.length,?_,
    behind_wire hoff (by rw [List.length_append,wire_length]; omega)⟩
  have hhead : offset.toNat+4 ≤ (pre++wire s++post).length := by
    rw [List.length_append,List.length_append,wire_length]
    omega
  have hroom : (UInt32.ofNat s.length).toUInt64.toUInt32.toNat = s.length := by
    rw [UInt32.toUInt32_toUInt64,toNat_ofNat32 (by omega)]
  have hin : ¬(pre++wire s++post).length%2^32 ≤ offset.toNat := by
    rw [List.length_append,List.length_append,wire_length,Nat.mod_eq_of_lt (by omega)]
    omega
  have hone : (UInt32.ofNat s.length+1).toNat = s.length+1 := by
    rw [UInt32.toNat_add,toNat_ofNat32 (by omega)]
    exact Nat.mod_eq_of_lt (by change s.length+1 < 2^32; omega)
  have h4 : (offset+4).toNat = (pre++be 4 s.length).length := by
    have hfour : (4 : UInt32).toNat = 4 := rfl
    rw [UInt32.toNat_add,hoff,hfour,List.length_append,be_length]
    omega
  have hdata : readAt (pre++wire s++post) (offset+4).toNat s.length = .ok s := by
    rw [wire,← List.append_assoc pre]
    exact readAt_append h4 rfl
  -- the block of `len + 1` bytes: its last byte becomes the NUL, the string fills the rest
  obtain ⟨old,last,hblock,hold⟩ := exists_split
    (by simp : s.length ≤ ((List.range (s.length+1)).map env.fill).length)
  have hlast : last.length = 1 := by
    have h := congrArg List.length hblock
    simp only [List.length_map,List.length_range,List.length_append] at h
    omega
  have hnul : writeAt (old++last) s.length [0] = .ok (old++[0]) :=
    writeAt_back hold.symm hlast.symm
  have hfill : writeAt (old++[0]) 0 s = .ok (s++[0]) := writeAt_front [0] hold.symm
  rw [popArg,popBuf_head env.mem env.fill hhead,hann,ThreadRequest.malloc,hone,if_pos hmem,hblock]
  simp only [stores,hnul,Except.mapError,ok_bind]
  rw [protoDecode_head hroom hin hhead,hann,if_neg (Nat.lt_irrefl _),hdata]
  simp only [ok_bind,hfill]
  rfl

/-- An integer of four bytes is popped into the order of the host. -/
theorem popArgInt_wire (signed : Bool) {i : UInt32} (hoff : offset.toNat = pre.length)
    (hlen : (pre++wire (be 4 i.toNat)++post).length < 2^31) :
    ∃ offset',popArgInt signed (pre++wire (be 4 i.toNat)++post) offset = .ok (i,offset') ∧
      offset'.toNat = (pre++wire (be 4 i.toNat)).length := by
  let v : ThreadInt.Variable := ⟨signed,(be 4 i.toNat).reverse,.inr (.inl (by simp))⟩
  have hrev : v.bytes.reverse = be 4 i.toNat := List.reverse_reverse _
  have hsize : v.sizeOf = 4 := by simp [v,ThreadInt.Variable.sizeOf]
  have hpre : pre.length < 2^32 := by
    rw [List.length_append,List.length_append] at hlen
    omega
  have hofNat : offset = UInt32.ofNat pre.length := by
    rw [← UInt32.toNat_inj,toNat_ofNat32 hpre,hoff]
  obtain ⟨offset',hpop,hoff'⟩ := v.pop_eq pre post (i:=List.replicate 4 0)
    (by rw [hsize,List.length_replicate])
    (by
      rw [List.length_append,List.length_append,wire_length,be_length] at hlen
      omega)
  rw [hrev,ThreadInt.Variable.pop,← hofNat] at hpop
  refine ⟨offset',?_,?_⟩
  · have hhost : ThreadSwap.hostOrder signed (be 4 i.toNat) = (be 4 i.toNat).reverse := by
      rw [ThreadSwap.hostOrder,if_neg (by rw [be_length]; decide),if_pos (be_length 4 _)]
    have hword : ofLe (be 4 i.toNat).reverse = i.toNat := by
      rw [ofLe,List.reverse_reverse]
      exact ofBe_be_of_lt i.toNat_lt
    have hv : v.signed = signed := rfl
    rw [popArgInt,← hv,hpop]
    simp only [orFault,Except.mapError,ok_bind,hv,hhost,hword,UInt32.ofNat_toNat]
  · rw [hoff',hsize,List.length_append,wire_length,be_length]

end Fields

/-! ### The block -/

/-- `n` is the size of the block at `p`. -/
def Exact (r : Reader) : Prop := ∀ buf,r.p = some buf → (buf.length : ℤ) = r.n

theorem readLoop_length {es es' : List Event} {buf buf' : List UInt8} {p len k : ℕ}
    (h : readLoop es buf p len = .ok (k,buf',es')) : buf'.length = buf.length := by
  induction hw : weight es using Nat.strong_induction_on generalizing es buf p len with
  | _ w ih =>
    by_cases hl : len = 0
    · rw [hl,readLoop_zero] at h
      cases h
      rfl
    · rw [readLoop,if_neg hl] at h
      split at h
      next es₁ h₁ => exact ih _ (hw ▸ weight_read_eintr h₁) h rfl
      next => cases h; rfl
      next bytes es₁ h₁ =>
        split_ifs at h with hb
        · cases h
          rfl
        · obtain ⟨buf₁,hstore,h⟩ := bind_eq_ok.mp h
          rw [ih _ (hw ▸ weight_read_got h₁ hb) h rfl,writeAt_length hstore]

theorem readn_length {es es' : List Event} {buf buf' : List UInt8} {count : ℕ} {rv : ℤ}
    (h : readn es buf count = .ok (rv,buf',es')) : buf'.length = buf.length := by
  rw [readn] at h
  obtain ⟨⟨k,buf₁,es₁⟩,hloop,hr⟩ := bind_eq_ok.mp h
  cases hr
  exact readLoop_length hloop

/-- `realloc` gives a block of the size that is asked for. -/
theorem grow_exact {headlen : ℕ} {buf buf' : List UInt8} {n n' : ℤ} {avail : Bool}
    (hbuf : (buf.length : ℤ) = n) (h : grow avail headlen buf n = .ok (some (buf',n'))) :
    (buf'.length : ℤ) = n' := by
  rw [grow] at h
  generalize (if headlen < toU32 (2*n) then 2*n else toI32 headlen) = needed at h
  split_ifs at h
  · obtain ⟨newp,hnew,hr⟩ := Option.map_eq_some_iff.mp (Except.ok.inj h)
    cases hr
    rw [ThreadRecord.realloc] at hnew
    split_ifs at hnew with hok
    cases hnew
    rw [List.length_take,List.length_append,List.length_replicate]
    omega
  · cases h
    exact hbuf

/-- `readvrec` keeps the size of the block in `n`. -/
theorem readvrec_exact {r r' : Reader} {avail : Bool} {rv : ℤ} (hr : Exact r)
    (h : readvrec avail r = .ok (rv,r')) : Exact r' := by
  have hprep : Exact (prepare avail r) := by
    rw [prepare]
    split_ifs
    · intro buf hbuf
      simp only [ThreadRecord.malloc] at hbuf
      split_ifs at hbuf
      cases hbuf
      rw [List.length_replicate]
      rfl
    · exact hr
  rw [readvrec] at h
  generalize prepare avail r = r₀ at h hprep
  obtain ⟨_ | buf,n,es⟩ := r₀
  · cases h
    exact hprep
  · obtain ⟨⟨rv₁,head,es₁⟩,h₁,h⟩ := bind_eq_ok.mp h
    simp only at h
    by_cases h4 : rv₁ ≠ 4
    · rw [if_pos h4] at h
      cases h
      exact hprep
    · rw [if_neg h4] at h
      obtain ⟨o,hgrow,h⟩ := bind_eq_ok.mp h
      cases o with
      | none =>
        cases h
        exact hprep
      | some b =>
        obtain ⟨⟨rv₂,data,es₂⟩,h₂,h⟩ := bind_eq_ok.mp h
        have hb := grow_exact (hprep buf rfl) hgrow
        have hdata := readn_length h₂
        have hexact : ∀ n₂ : ℤ,n₂ = b.2 → Exact ⟨some data,n₂,es₂⟩ := by
          rintro n₂ rfl buf₂ hbuf₂
          cases hbuf₂
          rw [hdata]
          exact hb
        simp only at h
        split_ifs at h <;> cases h <;> exact hexact _ rfl

/-! ### A step -/

/-- Memory is found, the socket stays open, and the recogniser keeps to the room it is given and
returns the length of its text. -/
structure Env.Fine (env : Env) : Prop where
  avail : env.avail = true
  mem : ∀ n,n ≤ 2^30 → env.mem.grants n = true
  result : ∀ room,0 ≤ room →
    (env.result room).2 = (env.result room).1.length ∧ ((env.result room).1.length : ℤ) ≤ room
  writes : Open env.writes

/-- What becomes of a call: an `asr_init` is skipped once there is a recogniser, an `asr_init` and
a `service_init` come to a lock, and the other calls are made with the arguments that were sent. -/
inductive Outcome (env : Env) (g : Shared) (t : Thread) : StubCall → Turn → Prop
  | skipped {configFile sessionNum} : g.userAsr ≠ -1 →
      Outcome env g t (.asrInit configFile sessionNum) ⟨g,t,[]⟩
  | locking {configFile sessionNum} : g.userAsr = -1 →
      Outcome env g t (.asrInit configFile sessionNum) ⟨g,{ t with phase := .locking },[]⟩
  | destroyed : Outcome env g t .asrDestroy
      ⟨g,{ t with phase := .destroyed env.rv },[.asrDestroy g.userAsr env.rv]⟩
  | waiting : Outcome env g t .serviceInit ⟨g,{ t with phase := .waiting },[]⟩
  | started : Outcome env g t .serviceStart ⟨g,t,[.serviceStart t.handle]⟩
  | recognized {buffer : Area 31} {flag} : Outcome env g t (.serviceRecognize buffer flag)
      ⟨g,t,[.serviceRecognize t.handle (buffer.bytes++[0]) (.ofNat buffer.bytes.length) flag]⟩
  | result {p old : List UInt8} {room : ℤ} {text} : t.reader.p = some old → p.length = old.length →
      room = t.reader.n-5 → text = (env.result room).1 → (text.length : ℤ) ≤ room →
      Outcome env g t .serviceGetRecgResult
        ⟨g,{ t with reader := { t.reader with p := some p },out := t.out++wire text },
          [.serviceGetRecgResult t.handle room text]⟩
  | released : Outcome env g t .serviceRelease ⟨g,t,[.serviceRelease t.handle]⟩
  | optionSet {id value} : Outcome env g t (.serviceSetOption id value)
      ⟨g,t,[.serviceSetOption t.handle id (value++[0])]⟩

theorem toU32_natCast {n : ℕ} (h : n < 2^32) : toU32 (n : ℤ) = n := by
  rw [toU32]
  omega

/-- A text is put behind its length, in front of what is left of the block. -/
theorem reply_written {p text : List UInt8} (h : 4+text.length ≤ p.length)
    (hp : p.length < 2^31) :
    ∃ p₁ p₂,writeAt p 4 text = .ok p₁ ∧ writeAt p₁ 0 (be 4 (toU32 text.length)) = .ok p₂ ∧
      p₂.length = p.length ∧ readAt p₂ 0 ((text.length : ℤ)+4).toNat = .ok (wire text) := by
  obtain ⟨head,rest,rfl,hhead⟩ := exists_split (by omega : 4 ≤ p.length)
  rw [List.length_append,hhead] at h hp
  obtain ⟨old,tail,rfl,hold⟩ := exists_split (by omega : text.length ≤ rest.length)
  have hto : ((text.length : ℤ)+4).toNat = (wire text).length := by
    rw [wire_length]
    omega
  have hu : toU32 (text.length : ℤ) = text.length := toU32_natCast (by omega)
  have h₁ : writeAt (head++(old++tail)) 4 text = .ok (head++text++tail) := by
    rw [← List.append_assoc]
    exact writeAt_append hhead.symm hold.symm
  have h₂ : writeAt (head++text++tail) 0 (be 4 text.length) = .ok (wire text++tail) := by
    rw [wire,List.append_assoc,List.append_assoc]
    exact writeAt_front (text++tail) (by rw [be_length,hhead])
  refine ⟨_,_,h₁,by rw [hu]; exact h₂,?_,?_⟩
  · simp [hhead,hold]
    omega
  · rw [hto]
    exact readAt_zero rfl

section Serve
variable {env : Env} {g : Shared} {t : Thread} {rest : List UInt8}

theorem which_call (c : StubCall) (rest : List UInt8) : which (c.message++rest) = some c.fn := by
  have hform : c.message++rest =
      be 4 c.fn.name.length++(c.fn.name++(c.fields.flatMap wire++rest)) := by
    simp [StubCall.message,wire]
  rw [hform]
  exact which_message _ _

theorem skipFun_call (c : StubCall) (rest : List UInt8) :
    ∃ offset,skipFun (c.message++rest) = .ok offset ∧
      offset.toNat = (wire c.fn.name).length := by
  rw [StubCall.message,List.flatMap_cons,List.append_assoc]
  exact skipFun_message _ _

theorem message_two {c : StubCall} {a b : List UInt8} (rest : List UInt8) (h : c.fields = [a,b]) :
    c.message++rest = wire c.fn.name++wire a++(wire b++rest) := by
  rw [StubCall.message,h]
  simp

/-- A field is shorter than its message. -/
theorem field_short {c : StubCall} (h : c.message.length < 2^30) {f : List UInt8} (hf : f ∈ c.fields) :
    f.length+1 ≤ 2^30 := by
  obtain ⟨pre,post,hsplit⟩ := List.append_of_mem hf
  rw [StubCall.message,hsplit] at h
  simp only [List.flatMap_cons,List.flatMap_append,List.length_append,wire_length] at h
  omega

section Pairs
variable {head a : List UInt8} {i : UInt32} {offset : UInt32} (signed : Bool)

/-- A string and an integer behind it. -/
theorem pops_argInt (hoff : offset.toNat = (wire head).length)
    (hlen : (wire head++wire a++(wire (be 4 i.toNat)++rest)).length < 2^31)
    (hmem : env.mem.grants (a.length+1) = true) :
    ∃ off₁ off₂,popArg env (wire head++wire a++(wire (be 4 i.toNat)++rest)) offset =
        .ok (a++[0],UInt32.ofNat a.length,off₁) ∧
      popArgInt signed (wire head++wire a++(wire (be 4 i.toNat)++rest)) off₁ = .ok (i,off₂) := by
  obtain ⟨off₁,hpop,hoff₁⟩ := popArg_wire hoff hlen hmem
  rw [← List.append_assoc (wire head++wire a)] at hlen
  obtain ⟨off₂,hint,-⟩ := popArgInt_wire signed hoff₁ hlen
  rw [List.append_assoc (wire head++wire a)] at hint
  exact ⟨off₁,off₂,hpop,hint⟩

/-- An integer and a string behind it. -/
theorem pops_intArg (hoff : offset.toNat = (wire head).length)
    (hlen : (wire head++wire (be 4 i.toNat)++(wire a++rest)).length < 2^31)
    (hmem : env.mem.grants (a.length+1) = true) :
    ∃ off₁ off₂,popArgInt signed (wire head++wire (be 4 i.toNat)++(wire a++rest)) offset =
        .ok (i,off₁) ∧
      popArg env (wire head++wire (be 4 i.toNat)++(wire a++rest)) off₁ =
        .ok (a++[0],UInt32.ofNat a.length,off₂) := by
  obtain ⟨off₁,hint,hoff₁⟩ := popArgInt_wire signed hoff hlen
  rw [← List.append_assoc (wire head++wire (be 4 i.toNat))] at hlen
  obtain ⟨off₂,hpop,-⟩ := popArg_wire hoff₁ hlen hmem
  rw [List.append_assoc (wire head++wire (be 4 i.toNat))] at hpop
  exact ⟨off₁,off₂,hint,hpop⟩

end Pairs

/-- A message is served as the call it was packed for. -/
theorem serve_message (henv : env.Fine) (c : StubCall) (hp : t.reader.p = some (c.message++rest))
    (hn : ((c.message++rest).length : ℤ) = t.reader.n) (hlen : (c.message++rest).length < 2^31)
    (hshort : c.message.length < 2^30) :
    ∃ u,serve env g t (c.message++rest) = .ok u ∧ Outcome env g t c u := by
  obtain ⟨offset,hskip,hoff⟩ := skipFun_call c rest
  have hwhich := which_call c rest
  cases c with
  | asrInit configFile sessionNum =>
    by_cases hasr : g.userAsr ≠ -1
    · refine ⟨⟨g,t,[]⟩,?_,.skipped hasr⟩
      simp only [serve,hskip,ok_bind,hwhich,StubCall.fn,if_pos hasr]
    · refine ⟨⟨g,{ t with phase := .locking },[]⟩,?_,.locking (not_not.mp hasr)⟩
      simp only [serve,hskip,ok_bind,hwhich,StubCall.fn,if_neg hasr]
  | asrDestroy =>
    exact ⟨_,by simp only [serve,hskip,ok_bind,hwhich,StubCall.fn],.destroyed⟩
  | serviceInit => exact ⟨_,by simp only [serve,hskip,ok_bind,hwhich,StubCall.fn],.waiting⟩
  | serviceStart => exact ⟨_,by simp only [serve,hskip,ok_bind,hwhich,StubCall.fn],.started⟩
  | serviceRecognize buffer flag =>
    have hform := message_two (c:=.serviceRecognize buffer flag) rest rfl
    simp only [StubCall.fn] at hform hskip hwhich hoff
    have hbuf := field_short hshort (List.mem_cons_self : buffer.bytes ∈ _)
    rw [hform] at hskip hwhich hlen ⊢
    obtain ⟨off₁,off₂,hpop,hint⟩ := pops_argInt true hoff hlen (henv.mem _ hbuf)
    refine ⟨_,?_,.recognized⟩
    simp only [serve,hskip,ok_bind,hwhich,hpop,hint]
  | serviceGetRecgResult =>
    have hmsg : (StubCall.message .serviceGetRecgResult).length = 36 := by
      rw [StubCall.message,flatMap_wire_length]
      decide
    have hsmall : 36 ≤ (StubCall.message .serviceGetRecgResult++rest).length := by
      rw [List.length_append]
      omega
    obtain ⟨hrv,hroom⟩ := henv.result (t.reader.n-5) (by omega)
    obtain ⟨p₁,p₂,h₁,h₂,hsame,hread⟩ :=
      reply_written (by omega :
        4+(env.result (t.reader.n-5)).1.length ≤ (StubCall.message .serviceGetRecgResult++rest).length) hlen
    refine ⟨_,?_,.result hp hsame rfl rfl hroom⟩
    simp only [serve,hskip,ok_bind,hwhich,StubCall.fn,h₁,hrv,h₂,hread,writen_all henv.writes]
  | serviceRelease => exact ⟨_,by simp only [serve,hskip,ok_bind,hwhich,StubCall.fn],.released⟩
  | serviceSetOption id value =>
    have hform := message_two (c:=.serviceSetOption id value) rest rfl
    simp only [StubCall.fn] at hform hskip hwhich hoff
    have hval := field_short hshort
      (List.mem_cons_of_mem _ List.mem_cons_self : value ∈ [be 4 id.toNat,value])
    rw [hform] at hskip hwhich hlen ⊢
    obtain ⟨off₁,off₂,hint,hpop⟩ := pops_intArg true hoff hlen (henv.mem _ hval)
    refine ⟨_,?_,.optionSet⟩
    simp only [serve,hskip,ok_bind,hwhich,hint,hpop]

/-- A reader whose block and stream are in order. -/
structure Ready (r : Reader) : Prop where
  valid : Valid r
  exact : Exact r
  clean : Clean r.stream

theorem message_pos (c : StubCall) : 0 < c.message.length := by
  rw [StubCall.message,List.flatMap_cons,List.length_append,wire_length]
  omega

/-- The next message of the stream is read and served. -/
theorem receive_message (henv : env.Fine) (c : StubCall) (hr : Ready t.reader) {more : List UInt8}
    (hs : content t.reader.stream = wire c.message++more) (hshort : c.message.length < 2^30) :
    ∃ r' u rest,receive env g t = .ok u ∧ Outcome env g { t with reader := r' } c u ∧ Ready r' ∧
      content r'.stream = more ∧ r'.p = some (c.message++rest) := by
  obtain ⟨r',hread,hmore,hclean,hvalid,buf,hp,htake,hn⟩ :=
    readvrec_record hr.valid hr.clean hshort hs
  have hexact := readvrec_exact hr.exact hread
  obtain ⟨rest,rfl⟩ : ∃ rest,buf = c.message++rest := by
    have hsplit := List.take_append_drop c.message.length buf
    rw [htake] at hsplit
    exact ⟨_,hsplit.symm⟩
  have hsize := hexact _ hp
  have hlt : r'.n < 2^31 := by
    rcases hvalid with hnone | ⟨_,_,_,_,hlt⟩
    · rw [hp] at hnone
      cases hnone
    · exact hlt
  obtain ⟨u,hserve,hout⟩ := serve_message (g:=g) (t:={ t with reader := r' }) henv c hp hsize
    (by omega) hshort
  have hpos := message_pos c
  have hrv : ¬((c.message.length : ℤ) = 0) := by omega
  refine ⟨r',u,rest,?_,hout,⟨hvalid,hexact,hclean⟩,hmore,hp⟩
  simp only [receive,henv.avail,hread,ok_bind,if_neg hrv,hp,Option.elim_some,hserve]

/-- A thread whose peer has closed the connection closes it too. -/
theorem receive_end (henv : env.Fine) (hr : Ready t.reader) (hs : content t.reader.stream = []) :
    ∃ r',receive env g t = .ok ⟨g,{ t with reader := r',phase := .closed },[]⟩ := by
  obtain ⟨r',hread⟩ := readvrec_end hr.valid hr.clean hs
  refine ⟨r',?_⟩
  simp only [receive,henv.avail,hread,ok_bind,if_true]

/-- Behind the lock the recogniser gets the name of the file, and the length of the name in the
place of the number of sessions. -/
theorem initialise_message (henv : env.Fine) {configFile : List UInt8} {sessionNum : UInt32}
    (hr : Ready t.reader) (hp : t.reader.p = some ((StubCall.asrInit configFile sessionNum).message++rest))
    (hshort : (StubCall.asrInit configFile sessionNum).message.length < 2^30) :
    initialise env g t = .ok ⟨{ userAsr := env.handle.getD g.userAsr,status := 1 },
      { t with phase := .reading },
      [.asrInit (configFile++[0]) (.ofNat configFile.length) env.handle]⟩ := by
  have hsize := hr.exact _ hp
  have hlt : t.reader.n < 2^31 := by
    rcases hr.valid with hnone | ⟨_,_,_,_,hlt⟩
    · rw [hp] at hnone
      cases hnone
    · exact hlt
  have hlen : ((StubCall.asrInit configFile sessionNum).message++rest).length < 2^31 := by omega
  obtain ⟨offset,hskip,hoff⟩ := skipFun_call (.asrInit configFile sessionNum) rest
  have hform := message_two (c:=.asrInit configFile sessionNum) rest rfl
  have hname := field_short hshort (List.mem_cons_self : configFile ∈ _)
  rw [hform] at hskip hlen
  obtain ⟨off₁,off₂,hpop,hint⟩ := pops_argInt false hoff hlen (henv.mem _ hname)
  simp only [initialise,hp,Option.elim_some,ok_bind,hform,hskip,hpop,hint]

end Serve

end ThreadUser
end RecycleBin
