import RecycleBin.ThreadRequest
import RecycleBin.ThreadSwap

/-! Taking the fields of a message apart: `proto_decode`, `POP_BUF` and `POP_INT` of
`thread/proto.h` on a message of any bytes. -/
namespace RecycleBin
namespace ThreadPop
open Bytes ThreadProto AntBuf ThreadRequest ThreadSwap

/-- The length that is announced at `offset`. -/
def announced (msg : List UInt8) (offset : UInt32) : ℕ := ofBe ((msg.drop offset.toNat).take 4)

/-! ### One field -/

/-- `proto_decode` on the whole of a message, into the whole of `out`. -/
def decode (msg : Area 64) (offset : UInt32) (out : Area 64) :
    Except Fault (ℤ × List UInt8 × UInt32) :=
  protoDecode msg.bytes offset (UInt64.ofNat msg.bytes.length) out.bytes
    (UInt64.ofNat out.bytes.length)

/-- The call reads inside of the message and stores inside of `out`. Either it returns -1 and
the offset has not moved, or the offset is still inside. -/
def Safe (msg : Area 64) (offset : UInt32) (r : Except Fault (ℤ × List UInt8 × UInt32)) : Prop :=
  ∃ rv out offset',r = .ok (rv,out,offset') ∧
    (rv = -1 ∧ offset' = offset ∨ offset'.toNat ≤ msg.bytes.length)

/-- The data of the field at `offset` are in the message. -/
def Held (msg : List UInt8) (offset : UInt32) : Prop :=
  (offset+4).toNat+announced msg offset ≤ msg.length

/-- What is looked at of a field is in the message: nothing where the offset is behind the
bound, else the header, and the data where they are not too long for `room` bytes. -/
def Inside (msg : List UInt8) (offset : UInt32) (room : ℕ) : Prop :=
  msg.length%2^32 ≤ offset.toNat ∨
    (offset.toNat+4 ≤ msg.length ∧ (room < announced msg offset ∨ Held msg offset))

/-- The offset behind a field. -/
def behind (msg : List UInt8) (offset : UInt32) (room : ℕ) : UInt32 :=
  if msg.length%2^32 ≤ offset.toNat ∨ room < announced msg offset then offset
  else offset+4+UInt32.ofNat (announced msg offset)

theorem ofBeFrom_lt (bs : List UInt8) (a : ℕ) : ofBeFrom a bs < (a+1)*256^bs.length := by
  induction bs generalizing a with
  | nil => simp [ofBeFrom]
  | cons b bs ih =>
    have hb := b.toNat_lt
    calc ofBeFrom a (b::bs) < (a*256+b.toNat+1)*256^bs.length := ih _
      _ ≤ ((a+1)*256)*256^bs.length := Nat.mul_le_mul_right _ (by omega)
      _ = (a+1)*256^(b::bs).length := by rw [List.length_cons,pow_succ]; ring

theorem announced_lt (msg : List UInt8) (offset : UInt32) : announced msg offset < 2^32 := by
  have h := ofBeFrom_lt ((msg.drop offset.toNat).take 4) 0
  have hlen : ((msg.drop offset.toNat).take 4).length ≤ 4 := List.length_take_le _ _
  calc announced msg offset < (0+1)*256^((msg.drop offset.toNat).take 4).length := h
    _ ≤ (0+1)*256^4 := Nat.mul_le_mul_left _ (Nat.pow_le_pow_right (by decide) hlen)
    _ = 2^32 := by decide

theorem toNat_announced (msg : List UInt8) (offset : UInt32) :
    (UInt32.ofNat (announced msg offset)).toNat = announced msg offset :=
  toNat_ofNat32 (announced_lt msg offset)

theorem toNat_cut (n : ℕ) : (UInt64.ofNat n).toUInt32.toNat = n%2^32 := by
  rw [UInt64.toNat_toUInt32,UInt64.toNat_ofNat']
  omega

theorem readAt_of_lt {buf : List UInt8} {off len : ℕ} (h : buf.length < off+len) :
    readAt buf off len = .error .undefined := by
  rw [readAt,if_neg (Nat.not_le_of_lt h)]

section Decode
variable {msg out : List UInt8} {offset : UInt32} {outlen : UInt64} {room : ℕ}

theorem protoDecode_bound (hoff : msg.length%2^32 ≤ offset.toNat) :
    protoDecode msg offset (UInt64.ofNat msg.length) out outlen = .ok (-1,out,offset) := by
  have hbound : (UInt64.ofNat msg.length).toUInt32 ≤ offset := by
    rwa [UInt32.le_iff_toNat_le,toNat_cut]
  rw [protoDecode,if_pos hbound]

/-- What becomes of a field whose header is in the message. -/
theorem protoDecode_head (hroom : outlen.toUInt32.toNat = room)
    (hoff : ¬msg.length%2^32 ≤ offset.toNat) (hhead : offset.toNat+4 ≤ msg.length) :
    protoDecode msg offset (UInt64.ofNat msg.length) out outlen =
      if room < announced msg offset then .ok (-1,out,offset)
      else (do
        let data ← readAt msg (offset+4).toNat (announced msg offset)
        let out' ← writeAt out 0 data
        .ok (0,out',offset+4+UInt32.ofNat (announced msg offset))) := by
  have hbound : ¬(UInt64.ofNat msg.length).toUInt32 ≤ offset := by
    rwa [UInt32.le_iff_toNat_le,toNat_cut]
  have hread : readAt msg offset.toNat 4 = .ok ((msg.drop offset.toNat).take 4) := if_pos hhead
  have hlen : UInt32.ofNat (ofBe ((msg.drop offset.toNat).take 4)) =
      UInt32.ofNat (announced msg offset) := rfl
  have hbig : (outlen.toUInt32 < UInt32.ofNat (announced msg offset)) =
      (room < announced msg offset) := by
    rw [UInt32.lt_iff_toNat_lt,hroom,toNat_announced]
  rw [protoDecode,if_neg hbound,hread]
  simp only [ok_bind,hlen,hbig,toNat_announced]

/-- A field that is looked at only inside of the message is decoded. -/
theorem protoDecode_inside (hroom : outlen.toUInt32.toNat = room) (hout : room ≤ out.length)
    (h : Inside msg offset room) :
    ∃ rv out',protoDecode msg offset (UInt64.ofNat msg.length) out outlen =
        .ok (rv,out',behind msg offset room) ∧
      (rv = -1 ∧ behind msg offset room = offset ∨ (behind msg offset room).toNat ≤ msg.length) := by
  by_cases hoff : msg.length%2^32 ≤ offset.toNat
  · have hbehind : behind msg offset room = offset := if_pos (.inl hoff)
    rw [protoDecode_bound hoff,hbehind]
    exact ⟨-1,out,rfl,.inl ⟨rfl,rfl⟩⟩
  · obtain ⟨hhead,hdata⟩ := h.resolve_left hoff
    rw [protoDecode_head hroom hoff hhead]
    by_cases hlong : room < announced msg offset
    · have hbehind : behind msg offset room = offset := if_pos (.inr hlong)
      rw [if_pos hlong,hbehind]
      exact ⟨-1,out,rfl,.inl ⟨rfl,rfl⟩⟩
    · have hheld := hdata.resolve_left hlong
      have hbehind : behind msg offset room =
          offset+4+UInt32.ofNat (announced msg offset) := if_neg (not_or.mpr ⟨hoff,hlong⟩)
      have hsource : readAt msg (offset+4).toNat (announced msg offset) =
          .ok ((msg.drop (offset+4).toNat).take (announced msg offset)) := if_pos hheld
      have hfit : 0+((msg.drop (offset+4).toNat).take (announced msg offset)).length ≤ out.length := by
        have htake := List.length_take_le (announced msg offset) (msg.drop (offset+4).toNat)
        omega
      obtain ⟨out',hstore⟩ := exists_writeAt hfit
      rw [if_neg hlong,hsource,hbehind]
      simp only [ok_bind,hstore]
      refine ⟨0,out',rfl,.inr ?_⟩
      rw [UInt32.toNat_add,toNat_announced]
      exact (Nat.mod_le _ _).trans hheld

/-- A field that is not in the message is read all the same. -/
theorem protoDecode_past (hroom : outlen.toUInt32.toNat = room) (h : ¬Inside msg offset room) :
    protoDecode msg offset (UInt64.ofNat msg.length) out outlen = .error .undefined := by
  rw [Inside,not_or,not_and_or,not_or] at h
  obtain ⟨hoff,h⟩ := h
  by_cases hhead : offset.toNat+4 ≤ msg.length
  · obtain ⟨hlong,hheld⟩ := h.resolve_left (not_not_intro hhead)
    have hsource : readAt msg (offset+4).toNat (announced msg offset) = .error .undefined :=
      if_neg hheld
    rw [protoDecode_head hroom hoff hhead,if_neg hlong,hsource,error_bind]
  · have hbound : ¬(UInt64.ofNat msg.length).toUInt32 ≤ offset := by
      rwa [UInt32.le_iff_toNat_le,toNat_cut]
    rw [protoDecode,if_neg hbound,readAt_of_lt (by omega),error_bind]

end Decode

/-- A call is safe exactly when what it looks at of its field is in the message. -/
theorem decode_safe_iff (msg : Area 64) (offset : UInt32) (out : Area 64) :
    Safe msg offset (decode msg offset out) ↔
      Inside msg.bytes offset (out.bytes.length%2^32) := by
  have hroom := toNat_cut out.bytes.length
  constructor
  · rintro ⟨rv,out',offset',hok,-⟩
    by_contra h
    rw [decode,protoDecode_past hroom h] at hok
    cases hok
  · intro h
    obtain ⟨rv,out',hok,hend⟩ := protoDecode_inside hroom (Nat.mod_le out.bytes.length _) h
    exact ⟨rv,out',_,hok,hend⟩

/-! ### Sequences of fields -/

/-- Why the taking apart stopped: a read behind the message, or a store that no block covers. -/
inductive Stop
  | past | crash
  deriving DecidableEq

/-- Reads of the message, and stores into a block. -/
def reads {α : Type} (x : Except Fault α) : Except Stop α := x.mapError fun _ => .past
def stores {α : Type} (x : Except Fault α) : Except Stop α := x.mapError fun _ => .crash

/-- `POP_BUF` with what `malloc` meets, and `POP_INT` into a variable. -/
inductive Pop
  | buf (mem : Memory) (fill : ℕ → UInt8)
  | int (signed : Bool) (i : Area 31)

/-- `POP_BUF`: the block `p` and the offset. -/
def popBuf (mem : Memory) (fill : ℕ → UInt8) (msg : List UInt8) (offset : UInt32) :
    Except Stop (List UInt8 × UInt32) := do
  let head ← reads (readAt msg offset.toNat 4)
  let len := UInt32.ofNat (ofBe head)
  match malloc mem fill (len+1).toNat with
  | none => .error .crash
  | some p =>
    let p ← stores (writeAt p len.toNat [0])
    let r ← reads (protoDecode msg offset (UInt64.ofNat msg.length) p len.toUInt64)
    .ok (r.2.1,r.2.2)

/-- `POP_INT`: the bytes of the variable in the host's order, and the offset. -/
def popInt (signed : Bool) (i : List UInt8) (msg : List UInt8) (offset : UInt32) :
    Except Stop (List UInt8 × UInt32) := do
  let r ← reads (protoDecode msg offset (UInt64.ofNat msg.length) i (UInt64.ofNat i.length))
  .ok (hostOrder signed r.2.1,r.2.2)

def pop (msg : List UInt8) (offset : UInt32) : Pop → Except Stop (List UInt8 × UInt32)
  | .buf mem fill => popBuf mem fill msg offset
  | .int signed i => popInt signed i.bytes msg offset

/-- The fields one after the other. -/
def popAll (msg : List UInt8) : List Pop → UInt32 → Except Stop (List (List UInt8) × UInt32)
  | [], offset => .ok ([],offset)
  | op::ops, offset => do
    let r ← pop msg offset op
    let rs ← popAll msg ops r.2
    .ok (r.1::rs.1,rs.2)

/-- A block is found for a string of `len` bytes and its NUL; the size is a `uint32_t`. -/
def Backed (mem : Memory) (len : ℕ) : Prop := len+1 < 2^32 ∧ mem.grants (len+1) = true

/-- What a macro looks at is in the message. `POP_BUF` reads the header before the bound is
looked at. -/
def FieldInside (msg : List UInt8) (offset : UInt32) : Pop → Prop
  | .buf mem _ => offset.toNat+4 ≤ msg.length ∧
      (Backed mem (announced msg offset) → Inside msg offset (announced msg offset))
  | .int _ i => Inside msg offset i.bytes.length

/-- The offset a macro goes on from, if it does not crash. -/
def next (msg : List UInt8) (offset : UInt32) : Pop → UInt32 → Prop
  | .buf mem _, offset' =>
      Backed mem (announced msg offset) ∧ offset' = behind msg offset (announced msg offset)
  | .int _ i, offset' => offset' = behind msg offset i.bytes.length

/-- What is looked at of each field is in the message. -/
def AllInside (msg : List UInt8) : List Pop → UInt32 → Prop
  | [], _ => True
  | op::ops, offset =>
      FieldInside msg offset op ∧ ∀ offset',next msg offset op offset' → AllInside msg ops offset'

section Pop
variable {msg : List UInt8} {offset : UInt32}

theorem popBuf_head (mem : Memory) (fill : ℕ → UInt8) (hhead : offset.toNat+4 ≤ msg.length) :
    popBuf mem fill msg offset =
      match malloc mem fill (UInt32.ofNat (announced msg offset)+1).toNat with
      | none => .error .crash
      | some p => (do
        let p ← stores (writeAt p (announced msg offset) [0])
        let r ← reads (protoDecode msg offset (UInt64.ofNat msg.length) p
          (UInt32.ofNat (announced msg offset)).toUInt64)
        .ok (r.2.1,r.2.2)) := by
  have hread : readAt msg offset.toNat 4 = .ok ((msg.drop offset.toNat).take 4) := if_pos hhead
  have hlen : UInt32.ofNat (ofBe ((msg.drop offset.toNat).take 4)) =
      UInt32.ofNat (announced msg offset) := rfl
  rw [popBuf,hread]
  simp only [reads,Except.mapError,ok_bind,hlen,toNat_announced]

/-- Without a block for the string and its NUL, the store of the NUL goes astray. -/
theorem popBuf_crash {mem : Memory} {fill : ℕ → UInt8} (hhead : offset.toNat+4 ≤ msg.length)
    (h : ¬Backed mem (announced msg offset)) : popBuf mem fill msg offset = .error .crash := by
  rw [popBuf_head mem fill hhead]
  have hlen := announced_lt msg offset
  have hone : (UInt32.ofNat (announced msg offset)+1).toNat = (announced msg offset+1)%2^32 := by
    rw [UInt32.toNat_add,toNat_announced]
    rfl
  rw [malloc,hone]
  by_cases hg : mem.grants ((announced msg offset+1)%2^32) = true
  · have hbig : announced msg offset+1 = 2^32 := by
      by_contra hne
      have hsmall : announced msg offset+1 < 2^32 := by omega
      rw [Nat.mod_eq_of_lt hsmall] at hg
      exact h ⟨hsmall,hg⟩
    have hempty : (announced msg offset+1)%2^32 = 0 := by rw [hbig,Nat.mod_self]
    rw [if_pos hg,hempty]
    rfl
  · rw [if_neg hg]

theorem popBuf_backed {mem : Memory} (fill : ℕ → UInt8) (hhead : offset.toNat+4 ≤ msg.length)
    (h : Backed mem (announced msg offset)) :
    ∃ p : List UInt8,p.length = announced msg offset+1 ∧ popBuf mem fill msg offset = (do
      let r ← reads (protoDecode msg offset (UInt64.ofNat msg.length) p
        (UInt32.ofNat (announced msg offset)).toUInt64)
      .ok (r.2.1,r.2.2)) := by
  have hone : (UInt32.ofNat (announced msg offset)+1).toNat = announced msg offset+1 := by
    rw [UInt32.toNat_add,toNat_announced]
    exact Nat.mod_eq_of_lt h.1
  have hlen : ((List.range (announced msg offset+1)).map fill).length = announced msg offset+1 := by
    rw [List.length_map,List.length_range]
  obtain ⟨p,hp,hp'⟩ := writeAt_one (by rw [hlen]; exact Nat.lt_succ_self _ :
    announced msg offset < ((List.range (announced msg offset+1)).map fill).length) 0
  refine ⟨p,hp'.trans hlen,?_⟩
  rw [popBuf_head mem fill hhead,malloc,hone,if_pos h.2]
  simp only [stores,hp,Except.mapError,ok_bind]

/-- A macro whose field is in the message crashes, or goes on behind the field. -/
theorem pop_inside {op : Pop} (h : FieldInside msg offset op) :
    (pop msg offset op = .error .crash ∧ ∀ o,¬next msg offset op o) ∨
      ∃ v offset',pop msg offset op = .ok (v,offset') ∧ ∀ o,next msg offset op o ↔ o = offset' := by
  cases op with
  | buf mem fill =>
    obtain ⟨hhead,hdata⟩ := h
    by_cases hback : Backed mem (announced msg offset)
    · obtain ⟨p,hp,hpop⟩ := popBuf_backed fill hhead hback
      have hroom : (UInt32.ofNat (announced msg offset)).toUInt64.toUInt32.toNat =
          announced msg offset := by
        rw [UInt32.toUInt32_toUInt64,toNat_announced]
      obtain ⟨rv,out,hd,-⟩ := protoDecode_inside hroom (by rw [hp]; exact Nat.le_succ _) (hdata hback)
      refine .inr ⟨out,_,?_,fun o => and_iff_right hback⟩
      rw [pop,hpop,hd]
      rfl
    · exact .inl ⟨popBuf_crash hhead hback,fun o hnext => hback hnext.1⟩
  | int signed i =>
    have hroom : (UInt64.ofNat i.bytes.length).toUInt32.toNat = i.bytes.length := by
      rw [toNat_cut]
      exact Nat.mod_eq_of_lt (i.short.trans (by decide))
    obtain ⟨rv,out,hd,-⟩ := protoDecode_inside hroom (Nat.le_refl i.bytes.length) h
    refine .inr ⟨hostOrder signed out,_,?_,fun o => Iff.rfl⟩
    rw [pop,popInt,hd]
    rfl

/-- A macro whose field is not in the message reads behind it. -/
theorem pop_past {op : Pop} (h : ¬FieldInside msg offset op) : pop msg offset op = .error .past := by
  cases op with
  | buf mem fill =>
    by_cases hhead : offset.toNat+4 ≤ msg.length
    · obtain ⟨hback,hdata⟩ := not_forall.mp fun hf => h ⟨hhead,hf⟩
      obtain ⟨p,-,hpop⟩ := popBuf_backed fill hhead hback
      have hroom : (UInt32.ofNat (announced msg offset)).toUInt64.toUInt32.toNat =
          announced msg offset := by
        rw [UInt32.toUInt32_toUInt64,toNat_announced]
      rw [pop,hpop,protoDecode_past hroom hdata]
      rfl
    · rw [pop,popBuf,readAt_of_lt (by omega)]
      rfl
  | int signed i =>
    have hroom : (UInt64.ofNat i.bytes.length).toUInt32.toNat = i.bytes.length := by
      rw [toNat_cut]
      exact Nat.mod_eq_of_lt (i.short.trans (by decide))
    rw [pop,popInt,protoDecode_past hroom h]
    rfl

/-- The macros read behind the message exactly when one of them meets a field that is not in it. -/
theorem popAll_past_iff (ops : List Pop) (offset : UInt32) :
    popAll msg ops offset ≠ .error .past ↔ AllInside msg ops offset := by
  induction ops generalizing offset with
  | nil => exact iff_of_true (fun h => by cases h) trivial
  | cons op ops ih =>
    rw [popAll,AllInside]
    by_cases hfield : FieldInside msg offset op
    · rcases pop_inside hfield with ⟨h,hnext⟩ | ⟨v,offset',h,hnext⟩
      · rw [h]
        exact iff_of_true (fun h => by cases h) ⟨hfield,fun o ho => absurd ho (hnext o)⟩
      · have hrest : (∀ o,next msg offset op o → AllInside msg ops o) ↔ AllInside msg ops offset' :=
          ⟨fun hall => hall offset' ((hnext offset').mpr rfl),
            fun hall o ho => (hnext o).mp ho ▸ hall⟩
        rw [h,hrest,← ih,ok_bind,and_iff_right hfield]
        cases popAll msg ops offset' with
        | error e => exact Iff.rfl
        | ok rs => exact iff_of_true (fun h => by cases h) fun h => by cases h
    · rw [pop_past hfield]
      exact iff_of_false (fun h => h rfl) fun h => hfield h.1

end Pop

/-- A call of `proto_decode` is safe exactly when what it looks at of its field is in the
message, and a sequence of `POP_BUF` and `POP_INT` reads nothing behind the message exactly
when that holds of each of its fields. -/
theorem decoding_safe_iff (msg : Area 64) (offset : UInt32) (out : Area 64) (ops : List Pop) :
    (Safe msg offset (decode msg offset out) ↔
      Inside msg.bytes offset (out.bytes.length%2^32)) ∧
    (popAll msg.bytes ops offset ≠ .error .past ↔ AllInside msg.bytes ops offset) :=
  ⟨decode_safe_iff msg offset out,popAll_past_iff ops offset⟩

/-- A string of two bytes is announced, and one is there. -/
def cut : Area 64 := ⟨[0,0,0,2,65],by decide⟩

theorem not_safe_cut : ¬Safe cut 0 (decode cut 0 ⟨[0,0],by decide⟩) := by
  rw [decode_safe_iff,Inside,Held]
  decide

end ThreadPop
end RecycleBin
