import RecycleBin.ThreadRecord
import RecycleBin.ThreadRequest

/-! The calls of the RPC client in `thread/libusc_mrcp.c`: a stub packs its name and its
arguments into a block and hands the block to `writen`. -/
namespace RecycleBin
namespace ThreadCall
open Bytes ThreadProto AntBuf ThreadRequest

/-- The functions behind the protocol. -/
inductive Fun
  | asrInit | asrDestroy | serviceInit | serviceStart | serviceRecognize | serviceGetRecgResult
  | serviceRelease | serviceSetOption
  deriving DecidableEq

/-- `__func__` of the stub. The server compares with the same names. -/
def Fun.name : Fun → List UInt8
  | .asrInit => CString.ascii "usc_mrcp_asr_init"
  | .asrDestroy => CString.ascii "usc_mrcp_asr_destroy"
  | .serviceInit => CString.ascii "usc_mrcp_service_init"
  | .serviceStart => CString.ascii "usc_mrcp_service_start"
  | .serviceRecognize => func
  | .serviceGetRecgResult => CString.ascii "usc_mrcp_service_get_recg_result"
  | .serviceRelease => CString.ascii "usc_mrcp_service_release"
  | .serviceSetOption => CString.ascii "usc_mrcp_service_set_option"

/-- A call with the arguments that travel. A string is given without its NUL, an integer is
one of the host. -/
inductive StubCall
  | asrInit (configFile : List UInt8) (sessionNum : UInt32)
  | asrDestroy
  | serviceInit
  | serviceStart
  | serviceRecognize (buffer : Area 31) (lastSectFlag : UInt32)
  | serviceGetRecgResult
  | serviceRelease
  | serviceSetOption (optionId : UInt32) (value : List UInt8)

namespace StubCall

def fn : StubCall → Fun
  | .asrInit .. => .asrInit
  | .asrDestroy => .asrDestroy
  | .serviceInit => .serviceInit
  | .serviceStart => .serviceStart
  | .serviceRecognize .. => .serviceRecognize
  | .serviceGetRecgResult => .serviceGetRecgResult
  | .serviceRelease => .serviceRelease
  | .serviceSetOption .. => .serviceSetOption

/-- The arguments, in the order in which they are packed. -/
def fields : StubCall → List (List UInt8)
  | .asrInit configFile sessionNum => [configFile,be 4 sessionNum.toNat]
  | .serviceRecognize buffer lastSectFlag => [buffer.bytes,be 4 lastSectFlag.toNat]
  | .serviceSetOption optionId value => [be 4 optionId.toNat,value]
  | _ => []

/-- The message of a call: its name and its arguments. -/
def message (c : StubCall) : List UInt8 := (c.fn.name::c.fields).flatMap wire

end StubCall

/-! ### Packing -/

/-- `PUSH_FUN`, `PUSH_STR` and `PUSH_BUF` -/
def pushBuf (n : UInt32) (data : List UInt8) (r : Request) : Except Fault Request :=
  push r fun out off => protoEncode out off n data (UInt32.ofNat data.length)

/-- `PUSH_INT` of four bytes -/
def pushInt (n : UInt32) (i : UInt32) (r : Request) : Except Fault Request :=
  push r fun out off => protoEncodeInt out off n (be 4 i.toNat).reverse 4

/-- The fields of a request, its header, and the bytes for `writen`. -/
def request (n : UInt32) (pushes : Request → Except Fault Request) (buf : List UInt8) :
    Except Fault (List UInt8) := do
  let r ← pushes (buf,0)
  let r ← pushHead n r
  readAt r.1 0 (r.2+4).toNat

/-- `char buf[size]`. What it holds at first is not specified. -/
def array (fill : ℕ → UInt8) (size : ℕ) : List UInt8 := (List.range size).map fill

/-- The stubs without arguments send their name. -/
def bare (f : Fun) (fill : ℕ → UInt8) : Except Fault (List UInt8) :=
  request 48 (pushBuf 48 f.name) (array fill 48)

def uscMrcpAsrInit (fill : ℕ → UInt8) (configFile : List UInt8) (sessionNum : UInt32) :
    Except Fault (List UInt8) :=
  request 512 (fun r => do
    let r ← pushBuf 512 Fun.asrInit.name r
    let r ← pushBuf 512 configFile r
    pushInt 512 sessionNum r) (array fill 512)

def uscMrcpAsrDestroy : (ℕ → UInt8) → Except Fault (List UInt8) := bare .asrDestroy
def uscMrcpServiceInit : (ℕ → UInt8) → Except Fault (List UInt8) := bare .serviceInit
def uscMrcpServiceStart : (ℕ → UInt8) → Except Fault (List UInt8) := bare .serviceStart
def uscMrcpServiceGetRecgResult : (ℕ → UInt8) → Except Fault (List UInt8) :=
  bare .serviceGetRecgResult
def uscMrcpServiceRelease : (ℕ → UInt8) → Except Fault (List UInt8) := bare .serviceRelease

def uscMrcpServiceSetOption (fill : ℕ → UInt8) (optionId : UInt32) (value : List UInt8) :
    Except Fault (List UInt8) :=
  request 48 (fun r => do
    let r ← pushBuf 48 Fun.serviceSetOption.name r
    let r ← pushInt 48 optionId r
    pushBuf 48 value r) (array fill 48)

/-- The bytes a call gives to `writen`, if it comes that far. -/
def send (mem : Memory) (fill : ℕ → UInt8) : StubCall → Except Fault (Option (List UInt8))
  | .asrInit configFile sessionNum => some <$> uscMrcpAsrInit fill configFile sessionNum
  | .asrDestroy => some <$> uscMrcpAsrDestroy fill
  | .serviceInit => some <$> uscMrcpServiceInit fill
  | .serviceStart => some <$> uscMrcpServiceStart fill
  | .serviceRecognize buffer lastSectFlag =>
    Prod.snd <$> recognize mem fill buffer.bytes lastSectFlag
  | .serviceGetRecgResult => some <$> uscMrcpServiceGetRecgResult fill
  | .serviceRelease => some <$> uscMrcpServiceRelease fill
  | .serviceSetOption optionId value => some <$> uscMrcpServiceSetOption fill optionId value

/-- The size of the block of a request. -/
def StubCall.blockSize : StubCall → ℕ
  | .asrInit .. => 512
  | .serviceRecognize buffer _ => 42+buffer.bytes.length
  | _ => 48

/-- The fields of a request one after the other. -/
def pushAll (n : UInt32) : List (List UInt8) → Request → Except Fault Request
  | [], r => .ok r
  | f::fs, r => do
    let r ← pushBuf n f r
    pushAll n fs r

/-! ### The size of a request -/

theorem flatMap_wire_length (fs : List (List UInt8)) : (fs.flatMap wire).length = encodedSize fs := by
  induction fs with
  | nil => rfl
  | cons f fs ih => rw [List.flatMap_cons,List.length_append,wire_length,ih,encodedSize_cons]

theorem pushInt_eq (n i : UInt32) (r : Request) : pushInt n i r = pushBuf n (be 4 i.toNat) r := by
  have h4 : UInt32.ofNat 4 = 4 := rfl
  simp only [pushInt,pushBuf,protoEncodeInt_four,be_length,h4]

/-- Fields that fit what is left of the block behind the header are packed. -/
theorem pushAll_fits {n : UInt32} {head : List UInt8} (hhead : head.length = 4)
    (fs : List (List UInt8)) (done rest : List UInt8) (hn : done.length+encodedSize fs ≤ n.toNat)
    (hrest : encodedSize fs ≤ rest.length) :
    pushAll n fs (head++(done++rest),(done.length : ℤ)) =
      .ok (head++((done++fs.flatMap wire)++rest.drop (encodedSize fs)),
        ((done++fs.flatMap wire).length : ℤ)) := by
  induction fs generalizing done rest with
  | nil => simp [pushAll]
  | cons f fs ih =>
    rw [encodedSize_cons] at hn hrest
    have hf : pushBuf n f (head++(done++rest),(done.length : ℤ)) =
        .ok (head++((done++wire f)++rest.drop (4+f.length)),((done++wire f).length : ℤ)) :=
      push_fits done rest f hhead (by omega) (by omega)
    have hlen : (done++wire f).length = done.length+(4+f.length) := by simp
    rw [pushAll,hf,ok_bind,ih (done++wire f) (rest.drop (4+f.length)) (by omega)
      (by rw [List.length_drop]; omega)]
    simp only [List.flatMap_cons,encodedSize_cons,List.append_assoc,List.drop_drop]

/-- `PUSH_HEAD` stores the length of the fields in front of them. -/
theorem pushHead_fits {n : UInt32} {head body : List UInt8} (hhead : head.length = 4)
    (hn : 4 ≤ n.toNat) {off : ℕ} (hoff : off < 2^32) :
    pushHead n (head++body,(off : ℤ)) = .ok (be 4 off++body,(off : ℤ)) := by
  have hwide : ((off : ℤ)%2^64).toNat = off := by omega
  have hlow : (be 8 off).reverse.take 4 = (be 4 off).reverse := by
    simp [be]
  have hread : readAt (be 8 off).reverse 0 4 = .ok (be 4 off).reverse := by
    simp [readAt,hlow]
  have hword : ofLe (be 4 off).reverse = off := by
    rw [ofLe,List.reverse_reverse]
    exact ofBe_be_of_lt hoff
  have hfour : ¬n < 4 := by
    rw [UInt32.lt_iff_toNat_lt]
    exact Nat.not_lt_of_le hn
  have hstore : writeAt (head++body) 0 (be 4 off) = .ok (be 4 off++body) :=
    writeAt_front body (by rw [be_length,hhead])
  rw [pushHead,protoEncode,if_neg hfour,hwide]
  simp only [ne_eq,not_true_eq_false,if_false,hread,ok_bind,hword,hstore]

/-- A request that is not longer than its block carries its fields. -/
theorem request_fits {n : UInt32} {fs : List (List UInt8)} {buf : List UInt8}
    (hbuf : buf.length = n.toNat) (hfit : 4+encodedSize fs ≤ n.toNat) :
    request n (pushAll n fs) buf = .ok (wire (fs.flatMap wire)) := by
  obtain ⟨head,rest,rfl,hhead⟩ := exists_split (by omega : 4 ≤ buf.length)
  rw [List.length_append,hhead] at hbuf
  have hn := n.toNat_lt
  have hpush := pushAll_fits (n:=n) hhead fs [] rest (by rw [List.length_nil]; omega) (by omega)
  rw [List.nil_append,List.length_nil,Nat.cast_zero,List.nil_append,flatMap_wire_length] at hpush
  have hread : readAt (be 4 (encodedSize fs)++(fs.flatMap wire++rest.drop (encodedSize fs))) 0
      (4+encodedSize fs) = .ok (wire (fs.flatMap wire)) := by
    have hlen : 4+encodedSize fs = (be 4 (encodedSize fs)++fs.flatMap wire).length := by
      rw [List.length_append,be_length,flatMap_wire_length]
    rw [wire,flatMap_wire_length,← List.append_assoc]
    exact readAt_zero hlen
  have hto : ((encodedSize fs : ℤ)+4).toNat = 4+encodedSize fs := by omega
  rw [request,hpush,ok_bind,pushHead_fits hhead (by omega) (by omega),ok_bind,hto,hread]

theorem push_length {r r' : Request} {f : List UInt8 → Option ℤ → Encoded}
    (hf : ∀ out off rv out' off',f out off = .ok (rv,out',off') → out'.length = out.length)
    (h : push r f = .ok r') : r'.1.length = r.1.length := by
  rw [push] at h
  obtain ⟨⟨rv,out,off⟩,he,hr⟩ := bind_eq_ok.mp h
  cases hr
  have hout := hf _ _ _ _ _ he
  rw [List.length_append,hout,← List.length_append,List.take_append_drop]

/-- `proto_encode` works in place. -/
theorem protoEncode_length {out out' data : List UInt8} {offset offset' : Option ℤ}
    {outlen inlen : UInt32} {rv : ℤ}
    (h : protoEncode out offset outlen data inlen = .ok (rv,out',offset')) :
    out'.length = out.length := by
  cases offset with
  | none =>
    rw [protoEncode] at h
    split_ifs at h
    · cases h
      rfl
    · cases h
      rfl
    · obtain ⟨word,-,h⟩ := bind_eq_ok.mp h
      obtain ⟨out₁,h₁,h⟩ := bind_eq_ok.mp h
      cases h
      exact writeAt_length h₁
  | some off =>
    rw [protoEncode] at h
    split_ifs at h
    · cases h
      rfl
    · cases h
      rfl
    · obtain ⟨p,-,h⟩ := bind_eq_ok.mp h
      obtain ⟨out₁,h₁,h⟩ := bind_eq_ok.mp h
      obtain ⟨data',-,h⟩ := bind_eq_ok.mp h
      obtain ⟨out₂,h₂,h⟩ := bind_eq_ok.mp h
      cases h
      rw [writeAt_length h₂,writeAt_length h₁]

theorem pushAll_length {n : UInt32} (fs : List (List UInt8)) {r r' : Request}
    (h : pushAll n fs r = .ok r') : r'.1.length = r.1.length := by
  induction fs generalizing r with
  | nil =>
    cases h
    rfl
  | cons f fs ih =>
    rw [pushAll] at h
    obtain ⟨r₁,h₁,h⟩ := bind_eq_ok.mp h
    rw [ih h]
    exact push_length (fun _ _ _ _ _ he => protoEncode_length he) h₁

/-- What is sent was in the block. -/
theorem request_length {n : UInt32} {fs : List (List UInt8)} {buf sent : List UInt8}
    (h : request n (pushAll n fs) buf = .ok sent) : sent.length ≤ buf.length := by
  rw [request] at h
  obtain ⟨r₁,h₁,h⟩ := bind_eq_ok.mp h
  obtain ⟨r₂,h₂,h⟩ := bind_eq_ok.mp h
  rw [pushHead] at h₂
  obtain ⟨⟨rv,out,off⟩,he,hr⟩ := bind_eq_ok.mp h₂
  cases hr
  rw [readAt] at h
  split_ifs at h with hle
  cases h
  rw [← pushAll_length fs h₁,← protoEncode_length he]
  simp only [List.drop_zero]
  exact List.length_take_le' _ _

theorem request_iff {n : UInt32} {fs : List (List UInt8)} {buf : List UInt8}
    (hbuf : buf.length = n.toNat) :
    request n (pushAll n fs) buf = .ok (wire (fs.flatMap wire)) ↔
      (wire (fs.flatMap wire)).length ≤ n.toNat := by
  constructor
  · intro h
    rw [← hbuf]
    exact request_length h
  · intro h
    rw [wire_length,flatMap_wire_length] at h
    exact request_fits hbuf h

theorem array_length (fill : ℕ → UInt8) (size : ℕ) : (array fill size).length = size := by
  rw [array,List.length_map,List.length_range]

theorem bind_ok_eq {ε α : Type} (x : Except ε α) : (x >>= fun a => .ok a) = x := by
  cases x <;> rfl

theorem map_some_eq_ok {ε α : Type} {x : Except ε α} {a : α} :
    some <$> x = .ok (some a) ↔ x = .ok a := by
  cases x with
  | error e => exact iff_of_false (fun h => by cases h) fun h => by cases h
  | ok b =>
    constructor <;> intro h <;> cases h <;> rfl

/-- The stubs other than `usc_mrcp_service_recognize` pack their fields in order. -/
theorem send_eq (mem : Memory) (fill : ℕ → UInt8) {c : StubCall} (hc : c.fn ≠ .serviceRecognize) :
    ∃ n : UInt32,n.toNat = c.blockSize ∧ send mem fill c =
      some <$> request n (pushAll n (c.fn.name::c.fields)) (array fill c.blockSize) := by
  cases c with
  | serviceRecognize => exact absurd rfl hc
  | asrInit configFile sessionNum =>
    refine ⟨512,rfl,?_⟩
    simp only [send,uscMrcpAsrInit,pushAll,StubCall.fn,StubCall.fields,StubCall.blockSize,pushInt_eq,bind_ok_eq]
  | serviceSetOption optionId value =>
    refine ⟨48,rfl,?_⟩
    simp only [send,uscMrcpServiceSetOption,pushAll,StubCall.fn,StubCall.fields,StubCall.blockSize,pushInt_eq,
      bind_ok_eq]
  | _ =>
    refine ⟨48,rfl,?_⟩
    simp only [send,uscMrcpAsrDestroy,pushAll,StubCall.fn,StubCall.fields,StubCall.blockSize,bind_ok_eq]
    rfl

/-- A `recognize` is four bytes longer than its block. -/
theorem recognize_long (buffer : Area 31) (flag : UInt32) :
    ¬(wire (StubCall.serviceRecognize buffer flag).message).length ≤
      (StubCall.serviceRecognize buffer flag).blockSize := by
  rw [wire_length,StubCall.message,flatMap_wire_length]
  simp only [StubCall.fn,StubCall.fields,StubCall.blockSize,Fun.name,encodedSize_cons,encodedSize_nil,
    func_length,be_length]
  omega

/-- A stub puts its message on the wire exactly when the message and the header are not longer
than the block: an `asr_init` with at most 475 bytes of a file name, a `set_option` with at most
one byte of a value, the stubs without arguments, and never a `recognize`. -/
theorem send_iff (mem : Memory) (fill : ℕ → UInt8) (c : StubCall) :
    send mem fill c = .ok (some (wire c.message)) ↔ (wire c.message).length ≤ c.blockSize := by
  by_cases hc : c.fn = .serviceRecognize
  · cases c with
    | serviceRecognize buffer flag =>
      refine iff_of_false ?_ (recognize_long buffer flag)
      intro h
      rw [send] at h
      by_cases hg : mem.grants (CString.toSize (requestSize buffer.bytes.length)) = true
      · rw [recognize_over buffer.short hg] at h
        cases h
      · rw [recognize,malloc,if_neg hg] at h
        cases h
    | _ => cases hc
  · obtain ⟨n,hn,hsend⟩ := send_eq mem fill hc
    rw [hsend,map_some_eq_ok,StubCall.message,← hn]
    exact request_iff (array_length fill _)

/-! ### Writing -/

/-- What the next `write` meets: an interrupted call, another error, or a socket that has room
for some bytes. Behind the last event it takes what it gets. -/
inductive WriteEvent
  | eintr
  | fail
  | room (k : ℕ)

/-- `writen`: the bytes that went out. -/
def writen : List WriteEvent → List UInt8 → List UInt8
  | _, [] => []
  | [], b::p => b::p
  | .eintr::es, b::p => writen es (b::p)
  | .fail::_, _::_ => []
  | .room 0::_, _::_ => []
  | .room (k+1)::es, b::p => (b::p).take (k+1)++writen es ((b::p).drop (k+1))

/-- A socket that stays open: every call gets rid of something or is interrupted. -/
def Open (es : List WriteEvent) : Prop := ∀ e ∈ es,e = .eintr ∨ ∃ k,e = .room (k+1)

/-- Interrupted and partial writes are made up for. -/
theorem writen_all {es : List WriteEvent} (h : Open es) (p : List UInt8) : writen es p = p := by
  induction es generalizing p with
  | nil => cases p <;> rfl
  | cons e es ih =>
    have hes : Open es := fun e he => h e (List.mem_cons_of_mem _ he)
    cases p with
    | nil => simp [writen]
    | cons b p =>
      rcases h e (by simp) with rfl | ⟨k,rfl⟩
      · exact ih hes (b::p)
      · rw [writen,ih hes,List.take_append_drop]

/-- What a call leaves in the stream. -/
def written (mem : Memory) (fill : ℕ → UInt8) (es : List WriteEvent) (c : StubCall) : List UInt8 :=
  match send mem fill c with
  | .ok (some sent) => writen es sent
  | _ => []

theorem written_eq {mem : Memory} {fill : ℕ → UInt8} {es : List WriteEvent} (h : Open es) {c : StubCall}
    (hfit : (wire c.message).length ≤ c.blockSize) : written mem fill es c = wire c.message := by
  rw [written,(send_iff mem fill c).mpr hfit]
  exact writen_all h _

end ThreadCall
end RecycleBin
