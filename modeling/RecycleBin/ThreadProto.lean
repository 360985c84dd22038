import RecycleBin.Bytes

/-! The string format of the RPC protocol in `thread/proto.h`: each string is sent
as a four-byte length in network order followed by its bytes. -/
namespace RecycleBin
namespace ThreadProto
open Bytes

/-- Pointer arithmetic before the start of a buffer is undefined. -/
def address (off : ℤ) : Except Fault ℕ := if 0 ≤ off then .ok off.toNat else .error .undefined

/-- `proto_encode`: the return code, the output buffer and `*offset` afterwards.
`offset` is `none` for a NULL pointer, where only a four-byte word is stored. -/
def protoEncode (outbuf : List UInt8) (offset : Option ℤ) (outlen : UInt32)
    (inbuf : List UInt8) (inlen : UInt32) : Except Fault (ℤ × List UInt8 × Option ℤ) :=
  if outlen < inlen then .ok (-1,outbuf,offset)
  else
    match offset with
    | some off =>
      -- The sum is an `off_t`. The bound leaves out the four bytes of the header.
      if 2^63 ≤ off+inlen.toNat then .error .undefined
      else if (outlen.toNat : ℤ) < off+inlen.toNat then .ok (-1,outbuf,offset)
      else do
        let p ← address off
        let outbuf ← writeAt outbuf p (be 4 inlen.toNat)
        let data ← readAt inbuf 0 inlen.toNat
        let outbuf ← writeAt outbuf (p+4) data
        .ok (0,outbuf,some (off+(inlen+4).toNat))
    | none =>
      if inlen ≠ 4 then .ok (-1,outbuf,offset)
      else do
        let word ← readAt inbuf 0 4
        let outbuf ← writeAt outbuf 0 (be 4 (ofLe word))
        .ok (0,outbuf,offset)

/-- `proto_decode`: the return code, the output buffer and `*offset` afterwards.
Both sizes are `size_t` and are cut to 32 bits before they are compared. -/
def protoDecode (inbuf : List UInt8) (offset : UInt32) (inlen : UInt64)
    (outbuf : List UInt8) (outlen : UInt64) : Except Fault (ℤ × List UInt8 × UInt32) :=
  if inlen.toUInt32 ≤ offset then .ok (-1,outbuf,offset)
  else do
    let head ← readAt inbuf offset.toNat 4
    let len := UInt32.ofNat (ofBe head)
    if outlen.toUInt32 < len then .ok (-1,outbuf,offset)
    else do
      let offset := offset+4
      let data ← readAt inbuf offset.toNat len.toNat
      let outbuf ← writeAt outbuf 0 data
      .ok (0,outbuf,offset+len)

/-- Encode one string at the running offset. -/
def encodeStep (outlen : UInt32) (s : List UInt8) (st : List UInt8 × ℤ) :
    Except Fault (ℤ × List UInt8 × ℤ) := do
  let r ← protoEncode st.1 (some st.2) outlen s (UInt32.ofNat s.length)
  .ok (r.1,r.2.1,r.2.2.getD st.2)

/-- Decode the next string into `buf`, telling the decoder the buffer's length. -/
def decodeStep (inbuf : List UInt8) (inlen : UInt64) (buf : List UInt8) (offset : UInt32) :
    Except Fault ((ℤ × List UInt8) × UInt32) := do
  let r ← protoDecode inbuf offset inlen buf (UInt64.ofNat buf.length)
  .ok ((r.1,r.2.1),r.2.2)

/-- One string on the wire. -/
def wire (s : List UInt8) : List UInt8 := be 4 s.length ++ s

/-- The encoded size of the strings. -/
def encodedSize (strs : List (List UInt8)) : ℕ := (strs.map fun s => 4+s.length).sum

@[simp] theorem wire_length (s : List UInt8) : (wire s).length = 4+s.length := by simp [wire]

@[simp] theorem encodedSize_nil : encodedSize [] = 0 := rfl

@[simp] theorem encodedSize_cons (s : List UInt8) (strs : List (List UInt8)) :
    encodedSize (s::strs) = 4+s.length+encodedSize strs := by simp [encodedSize]

/-- One encoding step appends the string's wire form when it fits. -/
theorem encodeStep_fits (outlen : UInt32) (s pre rest : List UInt8)
    (hout : pre.length+(4+s.length) ≤ outlen.toNat) (hrest : 4+s.length ≤ rest.length) :
    encodeStep outlen s (pre++rest,(pre.length : ℤ)) =
      .ok (0,pre++wire s++rest.drop (4+s.length),(pre.length+(4+s.length) : ℤ)) := by
  have hmax : outlen.toNat < 2^32 := outlen.toNat_lt
  have hlen : (UInt32.ofNat s.length).toNat = s.length := toNat_ofNat32 (by omega)
  rcases exists_split (n:=4) (by omega : 4 ≤ rest.length) with ⟨old₁,rest₁,rfl,h₁⟩
  rw [List.length_append] at hrest
  rcases exists_split (n:=s.length) (by omega : s.length ≤ rest₁.length) with ⟨old₂,rest₂,rfl,h₂⟩
  have hfit : ¬outlen < UInt32.ofNat s.length := by
    rw [UInt32.lt_iff_toNat_lt,hlen]
    omega
  have hsum : ¬(2^63 ≤ (pre.length : ℤ)+s.length) := by omega
  have hfit' : ¬((outlen.toNat : ℤ) < pre.length+s.length) := by omega
  have hhead : writeAt (pre++(old₁++(old₂++rest₂))) pre.length (be 4 s.length) =
      .ok (pre++be 4 s.length++(old₂++rest₂)) := by
    rw [← List.append_assoc]
    exact writeAt_append rfl (by simp [h₁])
  have hbody : writeAt (pre++be 4 s.length++(old₂++rest₂)) (pre.length+4) s =
      .ok (pre++be 4 s.length++s++rest₂) := by
    rw [← List.append_assoc]
    exact writeAt_append (by simp) h₂.symm
  have hread : readAt s 0 s.length = .ok s := by simp [readAt]
  have hoff : (UInt32.ofNat s.length+4).toNat = s.length+4 := by
    rw [UInt32.toNat_add,hlen]
    exact Nat.mod_eq_of_lt (by change s.length+4 < 2^32; omega)
  have hdrop : (old₁++(old₂++rest₂)).drop (4+s.length) = rest₂ := by
    rw [← List.append_assoc,← h₁,← h₂,← List.length_append,List.drop_left]
  have haddr : address (pre.length : ℤ) = .ok pre.length := by simp [address]
  have hpos : (pre.length : ℤ)+((s.length+4 : ℕ) : ℤ) = pre.length+(4+s.length) := by
    push_cast
    ring
  simp only [encodeStep,protoEncode,if_neg hfit,hlen,if_neg hsum,if_neg hfit',haddr,ok_bind,hhead,hread,hbody,
    hoff,hdrop,Option.getD_some,hpos]
  simp [wire]

/-- All strings fit when their encoded size does. -/
theorem encode_runs (outlen : UInt32) (strs : List (List UInt8)) (pre rest : List UInt8)
    (hout : pre.length+encodedSize strs ≤ outlen.toNat) (hrest : encodedSize strs ≤ rest.length) :
    runs (encodeStep outlen) strs (pre++rest,(pre.length : ℤ)) =
      .ok (strs.map fun _ => 0,
        pre++strs.flatMap wire++rest.drop (encodedSize strs),(pre.length+encodedSize strs : ℤ)) := by
  induction strs generalizing pre rest with
  | nil => simp
  | cons s strs ih =>
    rw [encodedSize_cons] at hout hrest
    have h₁ := encodeStep_fits outlen s pre rest (by omega) (by omega)
    have h₂ := ih (pre++wire s) (rest.drop (4+s.length)) (by simp; omega) (by simp; omega)
    have hpos : (pre.length+(4+s.length) : ℤ) = ((pre++wire s).length : ℤ) := by simp
    rw [hpos] at h₁
    have hrun : runs (encodeStep outlen) (s::strs) (pre++rest,(pre.length : ℤ)) =
        .ok (0::strs.map fun _ => 0,_,_) := runs_cons_eq_ok.mpr ⟨_,_,_,h₁,h₂,rfl⟩
    rw [hrun]
    simp [add_assoc]

/-- A decoding step at the start of a wire form reads the string exactly when its
length passes the 32-bit comparison; otherwise it fails and consumes nothing. -/
theorem decodeStep_wire (inlen : UInt64) (s buf pre post : List UInt8) (offset : UInt32)
    (hoff : offset.toNat = pre.length) (hin : pre.length < inlen.toUInt32.toNat)
    (hmax : pre.length+(4+s.length) < 2^32) :
    ∃ off', off'.toNat = pre.length+(4+s.length) ∧
      decodeStep (pre++wire s++post) inlen buf offset =
        if s.length ≤ buf.length%2^32 then .ok ((0,s++buf.drop s.length),off')
        else .ok ((-1,buf),offset) := by
  have hlen : (UInt32.ofNat s.length).toNat = s.length := toNat_ofNat32 (by omega)
  have hoff₄ : (offset+4).toNat = pre.length+4 := by
    rw [UInt32.toNat_add,hoff]
    exact Nat.mod_eq_of_lt (by change pre.length+4 < 2^32; omega)
  have hcut : (UInt64.ofNat buf.length).toUInt32.toNat = buf.length%2^32 := by
    rw [UInt64.toNat_toUInt32,UInt64.toNat_ofNat']
    omega
  have hstart : ¬inlen.toUInt32 ≤ offset := by
    rw [UInt32.le_iff_toNat_le,hoff]
    omega
  have hhead : readAt (pre++wire s++post) offset.toNat 4 = .ok (be 4 s.length) := by
    rw [wire,← List.append_assoc,List.append_assoc (pre++be 4 s.length)]
    exact readAt_append hoff (by simp)
  have hbody : readAt (pre++wire s++post) (offset+4).toNat s.length = .ok s := by
    rw [wire,← List.append_assoc pre]
    exact readAt_append (by simp [hoff₄]) rfl
  have hword : ofBe (be 4 s.length) = s.length := ofBe_be_of_lt (by omega)
  have hbig : ((UInt64.ofNat buf.length).toUInt32 < UInt32.ofNat s.length) ↔
      ¬s.length ≤ buf.length%2^32 := by
    rw [UInt32.lt_iff_toNat_lt,hlen,hcut]
    omega
  refine ⟨offset+4+UInt32.ofNat s.length,?_,?_⟩
  · rw [UInt32.toNat_add,hoff₄,hlen,Nat.add_assoc]
    exact Nat.mod_eq_of_lt hmax
  · simp only [decodeStep,protoDecode,if_neg hstart,hhead,ok_bind,hword,hbig,ite_not]
    split_ifs with hs
    · have hfit : s.length ≤ buf.length := hs.trans (Nat.mod_le _ _)
      simp only [hlen,hbody,ok_bind,writeAt_zero hfit]
    · rfl

/-- The decoder's run over the wire forms of the strings succeeds throughout, with
every string in its buffer, exactly when every length passes its comparison. -/
theorem decode_runs_iff (inlen : UInt64) (items : List (List UInt8 × List UInt8))
    (pre post : List UInt8) (offset : UInt32) (hoff : offset.toNat = pre.length)
    (hin : pre.length+encodedSize (items.map Prod.fst) ≤ inlen.toUInt32.toNat) :
    (∃ off', runs (decodeStep (pre++(items.map Prod.fst).flatMap wire++post) inlen)
        (items.map Prod.snd) offset =
          .ok (items.map fun it => (0,it.1++it.2.drop it.1.length),off') ∧
        off'.toNat = pre.length+encodedSize (items.map Prod.fst)) ↔
      ∀ it ∈ items, it.1.length ≤ it.2.length%2^32 := by
  induction items generalizing pre offset with
  | nil => simp [hoff]
  | cons it items ih =>
    rcases it with ⟨s,buf⟩
    simp only [List.map_cons,encodedSize_cons,List.flatMap_cons] at hin ⊢
    have hmax : inlen.toUInt32.toNat < 2^32 := UInt32.toNat_lt _
    rcases decodeStep_wire inlen s buf pre ((items.map Prod.fst).flatMap wire++post) offset hoff
      (by omega) (by omega) with ⟨off₁,hoff₁,hstep⟩
    have hassoc : pre++(wire s++(items.map Prod.fst).flatMap wire)++post =
        pre++wire s++((items.map Prod.fst).flatMap wire++post) := by simp
    have hassoc' : pre++wire s++((items.map Prod.fst).flatMap wire++post) =
        pre++wire s++(items.map Prod.fst).flatMap wire++post := by simp
    have hrest := ih (pre++wire s) off₁ (by simp [hoff₁])
      (by rw [List.length_append,wire_length]; omega)
    rw [hassoc]
    by_cases hs : s.length ≤ buf.length%2^32
    · rw [if_pos hs] at hstep
      rw [← hassoc'] at hrest
      simp only [List.forall_mem_cons,hs,true_and]
      rw [← hrest]
      constructor
      · rintro ⟨off',hrun,hend⟩
        rcases runs_cons_eq_ok.mp hrun with ⟨r,o,rs,h₁,h₂,h₃⟩
        rw [hstep] at h₁
        cases h₁
        cases h₃
        exact ⟨off',h₂,by simp; omega⟩
      · rintro ⟨off',hrun,hend⟩
        exact ⟨off',runs_cons_eq_ok.mpr ⟨_,_,_,hstep,hrun,rfl⟩,by simp at hend; omega⟩
    · rw [if_neg hs] at hstep
      simp only [List.forall_mem_cons,hs,false_and,iff_false]
      rintro ⟨off',hrun,-⟩
      rcases runs_cons_eq_ok.mp hrun with ⟨r,o,rs,h₁,-,h₃⟩
      rw [hstep] at h₁
      cases h₁
      cases h₃

/-- The strings of `items` survive the trip into `outbuf` and back into their
buffers: every call returns 0, every buffer starts with its string, and both
running offsets end at the encoded size. -/
def RoundTrips (outbuf : List UInt8) (outlen : UInt32) (inlen : UInt64)
    (items : List (List UInt8 × List UInt8)) : Prop :=
  ∃ enc off, runs (encodeStep outlen) (items.map Prod.fst) (outbuf,0) =
      .ok (items.map fun _ => 0,enc,(encodedSize (items.map Prod.fst) : ℤ)) ∧
    runs (decodeStep enc inlen) (items.map Prod.snd) 0 =
      .ok (items.map fun it => (0,it.1++it.2.drop it.1.length),off) ∧
    off.toNat = encodedSize (items.map Prod.fst)

section RoundTrip
variable {outbuf : List UInt8} {outlen : UInt32} {inlen : UInt64}
  {items : List (List UInt8 × List UInt8)}

/-- The encoder never fails, so the round trip is what the decoder makes of its output. -/
theorem roundTrips_decode (hbuf : outlen.toNat ≤ outbuf.length)
    (hsize : encodedSize (items.map Prod.fst) ≤ outlen.toNat) :
    RoundTrips outbuf outlen inlen items ↔
      ∃ off, runs (decodeStep ((items.map Prod.fst).flatMap wire++
          outbuf.drop (encodedSize (items.map Prod.fst))) inlen) (items.map Prod.snd) 0 =
          .ok (items.map fun it => (0,it.1++it.2.drop it.1.length),off) ∧
        off.toNat = encodedSize (items.map Prod.fst) := by
  have hmax : outlen.toNat < 2^32 := outlen.toNat_lt
  have henc := encode_runs outlen (items.map Prod.fst) [] outbuf (by simpa using hsize) (by omega)
  simp only [List.nil_append,List.length_nil,Nat.cast_zero,zero_add,List.map_map] at henc
  rw [RoundTrips]
  constructor
  · rintro ⟨enc,off,h₁,h₂,h₃⟩
    rw [henc] at h₁
    cases h₁
    exact ⟨off,h₂,h₃⟩
  · rintro ⟨off,h₂,h₃⟩
    exact ⟨_,off,henc,h₂,h₃⟩

theorem decode_fits (hin : encodedSize (items.map Prod.fst) ≤ inlen.toNat)
    (hmax : inlen.toNat < 2^32) :
    (∃ off, runs (decodeStep ((items.map Prod.fst).flatMap wire++
          outbuf.drop (encodedSize (items.map Prod.fst))) inlen) (items.map Prod.snd) 0 =
          .ok (items.map fun it => (0,it.1++it.2.drop it.1.length),off) ∧
        off.toNat = encodedSize (items.map Prod.fst)) ↔
      ∀ it ∈ items, it.1.length ≤ it.2.length%2^32 := by
  have hcut : inlen.toUInt32.toNat = inlen.toNat := by
    rw [UInt64.toNat_toUInt32]
    omega
  have hdec := decode_runs_iff inlen items [] (outbuf.drop (encodedSize (items.map Prod.fst))) 0
    rfl (by simpa [hcut] using hin)
  simpa only [List.nil_append,List.length_nil,zero_add] using hdec

end RoundTrip

/-- The round trip succeeds exactly when no output buffer's length, taken modulo
`2^32`, falls below the length of its string. -/
theorem roundTrips_iff (outbuf : List UInt8) (outlen : UInt32) (inlen : UInt64)
    (items : List (List UInt8 × List UInt8)) (hbuf : outlen.toNat ≤ outbuf.length)
    (hsize : encodedSize (items.map Prod.fst) ≤ outlen.toNat)
    (hin : encodedSize (items.map Prod.fst) ≤ inlen.toNat) (hin' : inlen.toNat ≤ outlen.toNat) :
    RoundTrips outbuf outlen inlen items ↔ ∀ it ∈ items, it.1.length ≤ it.2.length%2^32 :=
  (roundTrips_decode hbuf hsize).trans (decode_fits hin (hin'.trans_lt outlen.toNat_lt))

theorem roundTrips_three :
    RoundTrips (List.replicate 12 0) 12 12 [([97,98,99],[0,0,0,0]),([],[7])] :=
  (roundTrips_iff (List.replicate 12 0) 12 12 [([97,98,99],[0,0,0,0]),([],[7])] (by decide)
    (by decide) (by decide) (by decide)).mpr (by decide)

/-- With an output buffer of `2^32` bytes `(uint32_t)outlen` is 0, and a one-byte
string is refused. -/
theorem not_roundTrips_of_wide {buf : List UInt8} (hbuf : buf.length = 2^32) :
    ¬RoundTrips (List.replicate 8 0) 8 8 [([97],buf)] := by
  intro h
  have hdec := (roundTrips_decode (by decide) (by change 5 ≤ 8; decide)).mp h
  have hfits := (decode_fits (by change 5 ≤ 8; decide) (by decide)).mp hdec
  have hone := hfits ([97],buf) (by simp)
  simp [hbuf] at hone

theorem not_roundTrips_wide_buffer :
    ¬RoundTrips (List.replicate 8 0) 8 8 [([97],List.replicate (2^32) 0)] :=
  not_roundTrips_of_wide List.length_replicate

end ThreadProto
end RecycleBin
