import RecycleBin.AntBuf
import RecycleBin.CString
import RecycleBin.ThreadProto

/-! The requests of the RPC client in `thread/libusc_mrcp.c`. A request is a header with the
length of the rest, and behind it the fields that `proto_encode` puts into a block at
`buf + 4`. -/
namespace RecycleBin
namespace ThreadRequest
open Bytes ThreadProto AntBuf

/-- An array whose length is a number of `w` bits. -/
structure Area (w : ℕ) where
  bytes : List UInt8
  short : bytes.length < 2^w

/-! ### One field -/

/-- The outcome of a call of `proto_encode`: the return code, the buffer and `*offset`. -/
abbrev Encoded := Except Fault (ℤ × List UInt8 × Option ℤ)

/-- `proto_encode` with the whole of `out` and of `data`. -/
def encode (out : Area 32) (offset : Option ℤ) (data : Area 32) : Encoded :=
  protoEncode out.bytes offset (UInt32.ofNat out.bytes.length) data.bytes
    (UInt32.ofNat data.bytes.length)

/-- The call stores nothing outside of the buffer, and where it returns 0 the offset has
moved by the header and the data. -/
def Confined (offset : Option ℤ) (len : ℕ) (r : Encoded) : Prop :=
  ∃ rv out offset',r = .ok (rv,out,offset') ∧
    (rv = 0 → ∀ off,offset = some off → offset' = some (off+4+len))

/-- The field is rejected, or its header and its data are inside the buffer. -/
def Fits (offset : Option ℤ) (outlen len : ℕ) : Prop :=
  ∀ off,offset = some off →
    outlen < len ∨ ((outlen : ℤ) < off+len ∧ off+len < 2^63) ∨ (0 ≤ off ∧ off+4+len ≤ outlen)

theorem exists_writeAt {buf bs : List UInt8} {off : ℕ} (h : off+bs.length ≤ buf.length) :
    ∃ buf',writeAt buf off bs = .ok buf' := ⟨_,if_pos h⟩

theorem writeAt_of_lt {buf bs : List UInt8} {off : ℕ} (h : buf.length < off+bs.length) :
    writeAt buf off bs = .error .undefined := if_neg (Nat.not_le_of_lt h)

section Encode
variable {out data : List UInt8} {outlen inlen : UInt32} {off : ℤ}

/-- A field that passes the bound is stored behind its header. -/
theorem protoEncode_some (out : List UInt8) (hin : data.length = inlen.toNat)
    (hlen : inlen.toNat ≤ outlen.toNat) (hle : off+inlen.toNat ≤ outlen.toNat) :
    protoEncode out (some off) outlen data inlen = (do
      let p ← address off
      let out ← writeAt out p (be 4 inlen.toNat)
      let out ← writeAt out (p+4) data
      .ok (0,out,some (off+(inlen+4).toNat))) := by
  have hout := outlen.toNat_lt
  have hlen' : ¬outlen < inlen := by
    rw [UInt32.lt_iff_toNat_lt]
    omega
  have hsum : ¬(2^63 ≤ off+inlen.toNat) := by omega
  have hread : readAt data 0 inlen.toNat = .ok data := by simp [readAt,hin]
  rw [protoEncode,if_neg hlen']
  simp only [if_neg hsum,if_neg (not_lt_of_ge hle),hread,ok_bind]

/-- A field with room for its header is stored. -/
theorem protoEncode_fits (hin : data.length = inlen.toNat) (h0 : 0 ≤ off)
    (hle : off+4+inlen.toNat ≤ outlen.toNat) (hroom : off+4+inlen.toNat ≤ out.length) :
    ∃ out',protoEncode out (some off) outlen data inlen =
      .ok (0,out',some (off+4+inlen.toNat)) := by
  obtain ⟨p,rfl⟩ := Int.eq_ofNat_of_zero_le h0
  have hout := outlen.toNat_lt
  have hhead : p+(be 4 inlen.toNat).length ≤ out.length := by
    rw [be_length]
    omega
  obtain ⟨out₁,h₁⟩ := exists_writeAt hhead
  have hdata : p+4+data.length ≤ out₁.length := by
    rw [writeAt_length h₁,hin]
    omega
  obtain ⟨out₂,h₂⟩ := exists_writeAt hdata
  have haddr : address (p : ℤ) = .ok p := by simp [address]
  have hmove : ((inlen+4).toNat : ℤ) = 4+inlen.toNat := by
    rw [UInt32.toNat_add]
    have h4 : (4 : UInt32).toNat = 4 := rfl
    omega
  refine ⟨out₂,?_⟩
  rw [protoEncode_some out hin (by omega) (by omega),haddr]
  simp only [ok_bind,h₁,h₂,hmove]
  rw [← add_assoc]

/-- A field that passes the bound without room for its header runs over the end. -/
theorem protoEncode_over (hin : data.length = inlen.toNat) (hlen : inlen.toNat ≤ outlen.toNat)
    (hle : off+inlen.toNat ≤ outlen.toNat) (hover : off < 0 ∨ (out.length : ℤ) < off+4+inlen.toNat) :
    protoEncode out (some off) outlen data inlen = .error .undefined := by
  rw [protoEncode_some out hin hlen hle]
  by_cases h0 : 0 ≤ off
  · obtain ⟨p,rfl⟩ := Int.eq_ofNat_of_zero_le h0
    have haddr : address (p : ℤ) = .ok p := by simp [address]
    rw [haddr,ok_bind]
    cases h₁ : writeAt out p (be 4 inlen.toNat) with
    | error e =>
      rw [writeAt] at h₁
      split_ifs at h₁
      cases h₁
      rfl
    | ok out₁ =>
      have hdata : out₁.length < p+4+data.length := by
        rw [writeAt_length h₁,hin]
        omega
      rw [ok_bind,writeAt_of_lt hdata]
      rfl
  · rw [address,if_neg h0]
    rfl

end Encode

/-- A single word is stored at the front of its buffer. -/
theorem protoEncode_none (out : List UInt8) {data : List UInt8} {outlen inlen : UInt32}
    (hout : outlen.toNat ≤ out.length) (hin : data.length = inlen.toNat) :
    ∃ rv out',protoEncode out none outlen data inlen = .ok (rv,out',none) := by
  rw [protoEncode]
  by_cases hlen : outlen < inlen
  · rw [if_pos hlen]
    exact ⟨_,_,rfl⟩
  · rw [if_neg hlen]
    by_cases h4 : inlen = 4
    · subst h4
      have hdata : data.length = 4 := hin
      have hroom : 0+(be 4 (ofLe data)).length ≤ out.length := by
        rw [UInt32.lt_iff_toNat_lt,← hin,hdata] at hlen
        rw [be_length]
        omega
      have hread : readAt data 0 4 = .ok data := by simp [readAt,hdata]
      obtain ⟨out',h'⟩ := exists_writeAt hroom
      refine ⟨0,out',?_⟩
      simp only [ne_eq,not_true_eq_false,if_false,hread,ok_bind,h']
    · simp only [ne_eq,h4,not_false_eq_true,if_true]
      exact ⟨_,_,rfl⟩

/-- A field that the bound rejects leaves the buffer and the offset as they are. -/
theorem protoEncode_rejects {out data : List UInt8} {outlen inlen : UInt32} {off : ℤ}
    (h : outlen.toNat < inlen.toNat ∨
      ((outlen.toNat : ℤ) < off+inlen.toNat ∧ off+inlen.toNat < 2^63)) :
    protoEncode out (some off) outlen data inlen = .ok (-1,out,some off) := by
  rw [protoEncode]
  by_cases hlen : outlen < inlen
  · rw [if_pos hlen]
  · rw [if_neg hlen]
    rcases h with h | ⟨hbound,hsum⟩
    · exact absurd (UInt32.lt_iff_toNat_lt.mpr h) hlen
    · simp only [if_neg (not_le_of_gt hsum),if_pos hbound]

/-- An offset whose sum with the length leaves `off_t` is undefined. -/
theorem protoEncode_overflow {out data : List UInt8} {outlen inlen : UInt32} {off : ℤ}
    (hlen : inlen.toNat ≤ outlen.toNat) (hsum : 2^63 ≤ off+inlen.toNat) :
    protoEncode out (some off) outlen data inlen = .error .undefined := by
  have hle : ¬outlen < inlen := by
    rw [UInt32.lt_iff_toNat_lt]
    omega
  rw [protoEncode,if_neg hle]
  simp only [if_pos hsum]

/-- A call is confined exactly when its field fits. -/
theorem encode_confined_iff (out data : Area 32) (offset : Option ℤ) :
    Confined offset data.bytes.length (encode out offset data) ↔
      Fits offset out.bytes.length data.bytes.length := by
  have hout := toNat_ofNat32 out.short
  have hin := toNat_ofNat32 data.short
  have hmax := out.short
  have hstuck : ∀ {off},encode out (some off) data = .error .undefined →
      ¬Confined (some off) data.bytes.length (encode out (some off) data) := by
    rintro off h ⟨rv,out',offset',hok,-⟩
    rw [h] at hok
    cases hok
  cases offset with
  | none =>
    obtain ⟨rv,out',h⟩ := protoEncode_none out.bytes hout.le hin.symm
    exact iff_of_true ⟨rv,out',none,h,fun _ off hoff => by cases hoff⟩ fun off hoff => by cases hoff
  | some off =>
    have hfits : Fits (some off) out.bytes.length data.bytes.length ↔
        out.bytes.length < data.bytes.length ∨
          ((out.bytes.length : ℤ) < off+data.bytes.length ∧ off+data.bytes.length < 2^63) ∨
          (0 ≤ off ∧ off+4+data.bytes.length ≤ out.bytes.length) :=
      ⟨fun h => h off rfl,fun h _ hoff => Option.some.inj hoff ▸ h⟩
    by_cases hrej : out.bytes.length < data.bytes.length ∨
        ((out.bytes.length : ℤ) < off+data.bytes.length ∧ off+data.bytes.length < 2^63)
    · have h : encode out (some off) data = .ok (-1,out.bytes,some off) :=
        protoEncode_rejects (by rwa [hout,hin])
      refine iff_of_true ⟨_,_,_,h,fun h => absurd h (by decide)⟩ (hfits.mpr ?_)
      exact hrej.imp_right .inl
    · obtain ⟨hlen,hbound⟩ := not_or.mp hrej
      by_cases hsum : 2^63 ≤ off+data.bytes.length
      · have h : encode out (some off) data = .error .undefined :=
          protoEncode_overflow (by omega) (by rwa [hin])
        refine iff_of_false (hstuck h) fun hf => ?_
        rw [hfits] at hf
        omega
      · by_cases hroom : 0 ≤ off ∧ off+4+data.bytes.length ≤ out.bytes.length
        · obtain ⟨out',h⟩ : ∃ out',encode out (some off) data =
              .ok (0,out',some (off+4+(UInt32.ofNat data.bytes.length).toNat)) :=
            protoEncode_fits hin.symm hroom.1 (by rw [hin,hout]; exact hroom.2)
              (by rw [hin]; exact hroom.2)
          refine iff_of_true ⟨0,out',_,h,fun _ o ho => ?_⟩ (hfits.mpr (.inr (.inr hroom)))
          cases ho
          rw [hin]
        · have h : encode out (some off) data = .error .undefined :=
            protoEncode_over hin.symm (by omega) (by rw [hin,hout]; omega) (by rw [hin]; omega)
          refine iff_of_false (hstuck h) fun hf => ?_
          rw [hfits] at hf
          omega

/-! ### A request -/

/-- `malloc`. What a fresh block holds is not specified. -/
def malloc (mem : Memory) (fill : ℕ → UInt8) (size : ℕ) : Option (List UInt8) :=
  if mem.grants size then some ((List.range size).map fill) else none

/-- `__func__` in `usc_mrcp_service_recognize`. -/
def func : List UInt8 := CString.ascii "usc_mrcp_service_recognize"

/-- `proto_encode_int`: integers of two, four and eight bytes travel in network order. -/
def protoEncodeInt (outbuf : List UInt8) (offset : Option ℤ) (outlen : UInt32)
    (inbuf : List UInt8) (inlen : UInt64) : Encoded := do
  let data ← readAt inbuf 0 inlen.toNat
  let data := if inlen = 2 ∨ inlen = 4 ∨ inlen = 8 then data.reverse else data
  protoEncode outbuf offset outlen data inlen.toUInt32

/-- The block and `offset`. -/
abbrev Request := List UInt8 × ℤ

/-- The pushes of a field work at `buf + 4`; their return codes are not looked at. -/
def push (r : Request) (f : List UInt8 → Option ℤ → Encoded) : Except Fault Request := do
  let e ← f (r.1.drop 4) (some r.2)
  .ok (r.1.take 4++e.2.1,e.2.2.getD r.2)

/-- `PUSH_HEAD`: the low word of the `off_t` is stored at the front of the block. -/
def pushHead (n : UInt32) (r : Request) : Except Fault Request := do
  let e ← protoEncode r.1 none n (be 8 (r.2%2^64).toNat).reverse 4
  .ok (e.2.1,r.2)

/-- `size` in `usc_mrcp_service_recognize`. -/
def requestSize (len : ℕ) : ℤ := CString.toInt ((4+(func.length+1)-1+4+len+4+4 : ℕ) : ℤ)

/-- `usc_mrcp_service_recognize`: the return value, and the bytes given to `writen`. The flag
is an `int` of the host. -/
def recognize (mem : Memory) (fill : ℕ → UInt8) (buffer : List UInt8) (lastSectFlag : UInt32) :
    Except Fault (ℤ × Option (List UInt8)) :=
  let size := requestSize buffer.length
  match malloc mem fill (CString.toSize size) with
  | none => .ok (-1,none)
  | some buf => do
    let n := UInt32.ofNat (size%2^32).toNat
    let r ← push (buf,0) fun out off => protoEncode out off n func (UInt32.ofNat func.length)
    let r ← push r fun out off => protoEncode out off n buffer (UInt32.ofNat buffer.length)
    let r ← push r fun out off => protoEncodeInt out off n (be 4 lastSectFlag.toNat).reverse 4
    let r ← pushHead n r
    let sent ← readAt r.1 0 (r.2+4).toNat
    .ok (0,some sent)

/-- A request that is built fits its block and carries the name, the buffer and the flag. -/
def Carried (mem : Memory) (buffer : List UInt8) (lastSectFlag : UInt32)
    (r : Except Fault (ℤ × Option (List UInt8))) : Prop :=
  mem.grants (CString.toSize (requestSize buffer.length)) = true →
    r = .ok (0,some (wire (wire func++wire buffer++wire (be 4 lastSectFlag.toNat))))

theorem func_length : func.length = 26 := by decide

theorem requestSize_eq (len : ℕ) : requestSize len = CString.toInt ((len+42 : ℕ) : ℤ) := by
  have hsum : 4+(26+1)-1+4+len+4+4 = len+42 := by omega
  rw [requestSize,func_length,hsum]

/-- A request that does not fit an `int` finds no block. -/
theorem grants_requestSize {mem : Memory} {len : ℕ} (hlen : len < 2^31)
    (h : mem.grants (CString.toSize (requestSize len)) = true) :
    len+42 < 2^31 ∧ requestSize len = len+42 := by
  rw [requestSize_eq] at h ⊢
  by_cases hsmall : len+42 < 2^31
  · exact ⟨hsmall,by rw [CString.toInt_of_lt hsmall]; rfl⟩
  · have hneg : CString.toInt ((len+42 : ℕ) : ℤ) = (len+42 : ℕ)-2^32 := by
      rw [CString.toInt,Int.bmod_def]
      omega
    have hlarge : 2^63 ≤ CString.toSize (CString.toInt ((len+42 : ℕ) : ℤ)) := by
      rw [hneg,CString.toSize]
      omega
    rw [mem.bounded _ hlarge] at h
    cases h

/-- A field that fits what is left of the block behind the header. -/
theorem push_fits {n : UInt32} {head : List UInt8} (done rest data : List UInt8)
    (hhead : head.length = 4) (hn : done.length+(4+data.length) ≤ n.toNat)
    (hrest : 4+data.length ≤ rest.length) :
    push (head++(done++rest),(done.length : ℤ))
        (fun out off => protoEncode out off n data (UInt32.ofNat data.length)) =
      .ok (head++((done++wire data)++rest.drop (4+data.length)),
        ((done++wire data).length : ℤ)) := by
  have h := encodeStep_fits n data done rest hn hrest
  rw [encodeStep] at h
  obtain ⟨⟨rv,out,off⟩,he,hr⟩ := bind_eq_ok.mp h
  rw [push,List.drop_left' hhead,List.take_left' hhead]
  simp only [he,ok_bind]
  simp only [Except.ok.injEq,Prod.mk.injEq] at hr
  obtain ⟨-,hout,hoff⟩ := hr
  have hlen : ((done++wire data).length : ℤ) = done.length+(4+data.length) := by simp
  rw [hout,hoff,hlen]

/-- An integer in the host's byte order, as `proto_encode_int` passes it on. -/
theorem protoEncodeInt_four (out : List UInt8) (offset : Option ℤ) (n flag : UInt32) :
    protoEncodeInt out offset n (be 4 flag.toNat).reverse 4 =
      protoEncode out offset n (be 4 flag.toNat) 4 := by
  have hlen : (be 4 flag.toNat).reverse.length = 4 := by rw [List.length_reverse,be_length]
  have hread : readAt (be 4 flag.toNat).reverse 0 (4 : UInt64).toNat =
      .ok (be 4 flag.toNat).reverse := by
    have h4 : (4 : UInt64).toNat = 4 := rfl
    simp [readAt,h4]
  rw [protoEncodeInt,hread]
  simp

/-- The last field of a request runs over the end of its block: the size leaves out the
header that stands in front of the fields. -/
theorem recognize_over {mem : Memory} {fill : ℕ → UInt8} {buffer : List UInt8} {flag : UInt32}
    (hlen : buffer.length < 2^31)
    (h : mem.grants (CString.toSize (requestSize buffer.length)) = true) :
    recognize mem fill buffer flag = .error .undefined := by
  obtain ⟨hsmall,hsize⟩ := grants_requestSize hlen h
  have hblock : CString.toSize (requestSize buffer.length) = buffer.length+42 := by
    rw [hsize,CString.toSize]
    omega
  have hn : (UInt32.ofNat (requestSize buffer.length%2^32).toNat).toNat = buffer.length+42 := by
    rw [hsize,toNat_ofNat32]
    · omega
    · omega
  rw [recognize,malloc,if_pos h,hblock]
  generalize hb : (List.range (buffer.length+42)).map fill = buf
  generalize UInt32.ofNat (requestSize buffer.length%2^32).toNat = n at hn ⊢
  have hbuf : buf.length = buffer.length+42 := by rw [← hb,List.length_map,List.length_range]
  obtain ⟨head,rest,rfl,hhead⟩ := exists_split (by omega : 4 ≤ buf.length)
  rw [List.length_append,hhead] at hbuf
  have hfun := push_fits [] rest func hhead (by rw [List.length_nil,func_length,hn]; omega)
    (by rw [func_length]; omega)
  have hdata := push_fits ([]++wire func) (rest.drop (4+func.length)) buffer hhead
    (by rw [List.nil_append,wire_length,func_length,hn]; omega)
    (by rw [List.length_drop,func_length]; omega)
  rw [List.nil_append] at hfun hdata
  have hdone : (wire func++wire buffer).length = buffer.length+34 := by
    rw [List.length_append,wire_length,wire_length,func_length]
    omega
  have hflag : push (head++((wire func++wire buffer)++
        (rest.drop (4+func.length)).drop (4+buffer.length)),((wire func++wire buffer).length : ℤ))
      (fun out off => protoEncodeInt out off n (be 4 flag.toNat).reverse 4) = .error .undefined := by
    have hfour : (4 : UInt32).toNat = 4 := rfl
    have hword : (be 4 flag.toNat).length = (4 : UInt32).toNat := be_length _ _
    rw [push,List.drop_left' hhead]
    simp only [protoEncodeInt_four]
    rw [protoEncode_over hword (by rw [hn,hfour]; omega) (by rw [hn,hdone,hfour]; omega)]
    · exact error_bind _ _
    · right
      rw [List.length_append,List.length_drop,List.length_drop,hdone,func_length,hfour]
      omega
  rw [List.nil_append,List.length_nil,Nat.cast_zero] at hfun
  dsimp only
  rw [hfun,ok_bind,hdata,ok_bind,hflag,error_bind]

/-- No request that is built fits its block. -/
theorem recognize_carried_iff {mem : Memory} {fill : ℕ → UInt8} {buffer : List UInt8} {flag : UInt32}
    (hlen : buffer.length < 2^31) :
    Carried mem buffer flag (recognize mem fill buffer flag) ↔
      mem.grants (CString.toSize (requestSize buffer.length)) = false := by
  constructor
  · intro h
    by_contra hg
    have hgrant := Bool.of_not_eq_false hg
    have hok := h hgrant
    rw [recognize_over hlen hgrant] at hok
    cases hok
  · intro h hgrant
    rw [h] at hgrant
    cases hgrant

/-- A call of `proto_encode` keeps to its buffer exactly when its field is rejected or has room
for its header too, and a request does exactly when no block is found for it. -/
theorem encoding_confined_iff (out data : Area 32) (offset : Option ℤ) (mem : Memory)
    (fill : ℕ → UInt8) (buffer : Area 31) (flag : UInt32) :
    (Confined offset data.bytes.length (encode out offset data) ↔
      Fits offset out.bytes.length data.bytes.length) ∧
    (Carried mem buffer.bytes flag (recognize mem fill buffer.bytes flag) ↔
      mem.grants (CString.toSize (requestSize buffer.bytes.length)) = false) :=
  ⟨encode_confined_iff out data offset,recognize_carried_iff buffer.short⟩

/-- The request for an empty buffer. -/
theorem not_confined_empty :
    ¬(∀ (mem : Memory) (fill : ℕ → UInt8) (buffer : Area 31) (flag : UInt32),
      Carried mem buffer.bytes flag (recognize mem fill buffer.bytes flag)) := by
  intro h
  have hempty := h plenty (fun _ => 0) ⟨[],by decide⟩ 0
  rw [recognize_carried_iff (by decide : [].length < 2^31),requestSize_eq,
    CString.toInt_of_lt (by decide)] at hempty
  cases hempty

end ThreadRequest
end RecycleBin
