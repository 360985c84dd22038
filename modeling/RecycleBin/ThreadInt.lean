import RecycleBin.ThreadPop

/-!
# Integers on the wire

`PUSH_INT` and `POP_INT` of `thread/proto.h` on variables of one type.
-/

namespace RecycleBin
namespace ThreadInt

open Bytes ThreadProto ThreadRequest ThreadPop ThreadSwap

/-- A signed or unsigned variable of two, four or eight bytes. -/
structure Variable where
  signed : Bool
  bytes : List UInt8
  size : bytes.length = 2 ∨ bytes.length = 4 ∨ bytes.length = 8

namespace Variable

/-- `sizeof` -/
def sizeOf (v : Variable) : ℕ :=
  v.bytes.length

theorem sizeOf_le (v : Variable) : v.sizeOf ≤ 8 := by
  rcases v.size with h | h | h <;> rw [sizeOf,h] <;> decide

/-- `PUSH_INT` of the variable into a block, at an offset behind the header. -/
def push (v : Variable) (n : UInt32) (r : Request) : Except Fault Request :=
  ThreadRequest.push r fun out off => protoEncodeInt out off n v.bytes (.ofNat v.sizeOf)

/-- `POP_INT` into a variable of the same type that holds `i`. -/
def pop (v : Variable) (i msg : List UInt8) (offset : UInt32) :
    Except Stop (List UInt8 × UInt32) :=
  popInt v.signed i msg offset

/-- Pushed behind `done` into any block with room, and popped from there into a variable of its
type, the variable has its value back. -/
def RoundTrips (v : Variable) : Prop :=
  ∀ (head done rest i : List UInt8) (n : UInt32),head.length = 4 →
    done.length+(4+v.sizeOf) ≤ n.toNat → 4+v.sizeOf ≤ rest.length →
    done.length+rest.length < 2^32 → i.length = v.sizeOf →
      ∃ block offset,v.push n (head++(done++rest),done.length) =
          .ok (head++block,(done.length+(4+v.sizeOf) : ℕ)) ∧
        v.pop i block (.ofNat done.length) = .ok (v.bytes,offset) ∧
        offset.toNat = done.length+(4+v.sizeOf)

/-- The bytes go out as the macros on an unsigned copy leave them. -/
theorem protoEncodeInt_eq (v : Variable) (out : List UInt8) (off : Option ℤ) (n : UInt32) :
    protoEncodeInt out off n v.bytes (.ofNat v.sizeOf) =
      protoEncode out off n (hostOrder false v.bytes)
        (.ofNat (hostOrder false v.bytes).length) := by
  have hcast : (UInt64.ofNat v.sizeOf).toNat = v.sizeOf :=
    UInt64.toNat_ofNat_of_lt' (v.sizeOf_le.trans_lt (by decide))
  have hread : readAt v.bytes 0 (UInt64.ofNat v.sizeOf).toNat = .ok v.bytes := by
    rw [hcast,sizeOf,readAt,if_pos (by omega),List.drop_zero,List.take_length]
  have hsize : UInt64.ofNat v.sizeOf = 2 ∨ UInt64.ofNat v.sizeOf = 4 ∨
      UInt64.ofNat v.sizeOf = 8 := by
    rcases v.size with h | h | h <;> rw [sizeOf,h] <;> decide
  have hlen : (UInt64.ofNat v.sizeOf).toUInt32 = UInt32.ofNat v.bytes.reverse.length := by
    rw [List.length_reverse]
    rcases v.size with h | h | h <;> rw [sizeOf,h] <;> decide
  rw [protoEncodeInt,hread,hostOrder_unsigned v.size]
  simp only [ok_bind,if_pos hsize,hlen]

theorem push_eq (v : Variable) (done : List UInt8) {head rest : List UInt8} {n : UInt32}
    (hhead : head.length = 4) (hn : done.length+(4+v.sizeOf) ≤ n.toNat)
    (hrest : 4+v.sizeOf ≤ rest.length) :
    v.push n (head++(done++rest),done.length) =
      .ok (head++(done++wire v.bytes.reverse++rest.drop (4+v.sizeOf)),
        (done.length+(4+v.sizeOf) : ℕ)) := by
  have hlen : v.bytes.reverse.length = v.sizeOf := List.length_reverse
  have hfit := push_fits done rest v.bytes.reverse hhead (by rwa [hlen]) (by rwa [hlen])
  simp only [push,protoEncodeInt_eq,hostOrder_unsigned v.size]
  rw [hfit,List.length_append,wire_length,hlen]

/-- What is popped is the network order of the bytes, as the macro reads it. -/
theorem pop_eq (v : Variable) (done rest : List UInt8) {i : List UInt8} (hi : i.length = v.sizeOf)
    (hmax : done.length+(4+v.sizeOf)+rest.length < 2^32) :
    ∃ offset,v.pop i (done++wire v.bytes.reverse++rest) (.ofNat done.length) =
        .ok (hostOrder v.signed v.bytes.reverse,offset) ∧
      offset.toNat = done.length+(4+v.sizeOf) := by
  have hlen : v.bytes.reverse.length = v.sizeOf := List.length_reverse
  have hmsg : (done++wire v.bytes.reverse++rest).length =
      done.length+(4+v.sizeOf)+rest.length := by
    rw [List.length_append,List.length_append,wire_length,hlen]
  have hcut : (UInt64.ofNat (done++wire v.bytes.reverse++rest).length).toUInt32.toNat =
      done.length+(4+v.sizeOf)+rest.length := by
    rw [toNat_cut,hmsg,Nat.mod_eq_of_lt hmax]
  obtain ⟨offset,hoffset,hstep⟩ := decodeStep_wire
    (.ofNat (done++wire v.bytes.reverse++rest).length) v.bytes.reverse i done rest
    (.ofNat done.length) (toNat_ofNat32 (by omega)) (by rw [hcut]; omega) (by rw [hlen]; omega)
  have hroom : v.bytes.reverse.length ≤ i.length%2^32 := by
    have hle := v.sizeOf_le
    rw [hlen,hi,Nat.mod_eq_of_lt (by omega)]
  rw [if_pos hroom,decodeStep] at hstep
  obtain ⟨⟨rv,out,off⟩,hdecode,hr⟩ := bind_eq_ok.mp hstep
  have hout : i.drop v.bytes.reverse.length = [] := List.drop_eq_nil_of_le (by omega)
  simp only [hout,List.append_nil,Except.ok.injEq,Prod.mk.injEq] at hr
  obtain ⟨⟨-,rfl⟩,rfl⟩ := hr
  refine ⟨off,?_,by rw [hoffset,hlen]⟩
  rw [pop,popInt,hdecode]
  rfl

theorem roundTrips_hostOrder (v : Variable) :
    v.RoundTrips ↔ hostOrder v.signed v.bytes.reverse = v.bytes := by
  constructor
  · intro h
    -- a block with just the room
    have hle := v.sizeOf_le
    have hn : 0+(4+v.sizeOf) ≤ (12 : UInt32).toNat := by
      change 0+(4+v.sizeOf) ≤ 12
      omega
    have hlen : (List.replicate (4+v.sizeOf) (0 : UInt8)).length = 4+v.sizeOf :=
      List.length_replicate
    have hdrop : ((List.replicate (4+v.sizeOf) (0 : UInt8)).drop (4+v.sizeOf)).length = 0 := by
      rw [List.length_drop,hlen,Nat.sub_self]
    obtain ⟨block,offset,hpush,hpop,-⟩ := h (List.replicate 4 0) []
      (List.replicate (4+v.sizeOf) 0) v.bytes 12 List.length_replicate hn hlen.ge
      (by rw [hlen,List.length_nil]; omega) rfl
    rw [push_eq v [] List.length_replicate hn hlen.ge] at hpush
    obtain ⟨hblock,-⟩ := Prod.mk.inj (Except.ok.inj hpush)
    obtain rfl := List.append_cancel_left hblock
    obtain ⟨offset',hpop',-⟩ := v.pop_eq [] ((List.replicate (4+v.sizeOf) 0).drop (4+v.sizeOf)) rfl
      (by rw [List.length_nil]; omega)
    rw [hpop'] at hpop
    exact (Prod.mk.inj (Except.ok.inj hpop)).1
  · intro h head done rest i n hhead hn hrest hmax hi
    have hdrop : (rest.drop (4+v.sizeOf)).length = rest.length-(4+v.sizeOf) := List.length_drop
    obtain ⟨offset,hpop,hoffset⟩ := v.pop_eq done (rest.drop (4+v.sizeOf)) hi (by omega)
    refine ⟨_,offset,push_eq v done hhead hn hrest,?_,hoffset⟩
    rw [hpop,h]

end Variable

/-- An integer goes over the wire and back, unless it is a signed one of eight bytes whose low
byte has its top bit set, and that is not one of the numbers from -128 to -1. -/
theorem int_roundTrips (v : Variable) : v.RoundTrips ↔ Survives v.signed v.bytes := by
  rw [v.roundTrips_hostOrder,hostOrder_reverse_iff v.signed v.size]

/-- An `int64_t` of the value 128. -/
def long128 : Variable := ⟨true,[128,0,0,0,0,0,0,0],.inr (.inr rfl)⟩

/-- It comes back as -128. -/
theorem not_roundTrips_long128 : ¬long128.RoundTrips := by
  rw [Variable.roundTrips_hostOrder]
  decide

end ThreadInt
end RecycleBin
