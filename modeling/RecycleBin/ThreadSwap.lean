import RecycleBin.Bytes

/-!
# The byte order of integers

The macro `swap64` of `thread/proto.h`, on the type it is applied to, and the end of
`POP_INT`.
-/

namespace RecycleBin
namespace ThreadSwap

open Bytes

/-- `val >> n`, which repeats the sign of a signed value. -/
def shr (signed : Bool) (val : BitVec 64) (n : ℕ) : BitVec 64 :=
  if signed then val.sshiftRight n else val >>> n

/-- `swap64(val)` -/
def swap64 (signed : Bool) (val : BitVec 64) : BitVec 64 :=
  shr signed val 56 |||
    (shr signed (val &&& 0x00ff000000000000) 40 |||
      (shr signed (val &&& 0x0000ff0000000000) 24 |||
        (shr signed (val &&& 0x000000ff00000000) 8 |||
          ((val &&& 0x00000000ff000000) <<< 8 |||
            ((val &&& 0x0000000000ff0000) <<< 24 |||
              ((val &&& 0x000000000000ff00) <<< 40 ||| val <<< 56))))))

/-- The value of eight bytes of memory. -/
def fetch (i : List UInt8) : BitVec 64 :=
  .ofNat 64 (ofLe i)

/-- The bytes of a value in memory. -/
def store (val : BitVec 64) : List UInt8 :=
  (be 8 val.toNat).reverse

/-- What `POP_INT` makes of the bytes it has put into a variable of their length: `ntohs`,
`ntohl`, or `ntoh64` on the declared type. -/
def hostOrder (signed : Bool) (i : List UInt8) : List UInt8 :=
  if i.length = 2 then i.reverse
  else if i.length = 4 then i.reverse
  else if i.length = 8 then store (swap64 signed (fetch i))
  else i

/-- The value of a variable. -/
def value (signed : Bool) (i : List UInt8) : ℤ :=
  if signed then Int.bmod (ofLe i) (2^(8*i.length)) else ofLe i

/-! ## Bits of a numeral -/

theorem ofBeFrom_append (a : ℕ) (bs cs : List UInt8) :
    ofBeFrom a (bs++cs) = ofBeFrom (ofBeFrom a bs) cs := by
  induction bs generalizing a with
  | nil => rfl
  | cons b bs ih => exact ih (a*256+b.toNat)

@[simp] theorem ofLe_nil : ofLe [] = 0 := rfl

theorem ofLe_cons (b : UInt8) (bs : List UInt8) : ofLe (b::bs) = 2^8*ofLe bs+b.toNat := by
  rw [ofLe,ofBe,List.reverse_cons,ofBeFrom_append,Nat.mul_comm]
  rfl

/-- The bits of a byte are those of the number, at its place. -/
theorem testBit_ofLe (bs : List UInt8) (j : ℕ) {r : ℕ} (hr : r < 8) :
    (ofLe bs).testBit (8*j+r) = ((bs[j]?).getD 0).toNat.testBit r := by
  induction bs generalizing j with
  | nil => simp
  | cons b bs ih =>
    rw [ofLe_cons,Nat.testBit_two_pow_mul_add _ b.toNat_lt]
    cases j with
    | zero =>
      rw [if_pos (by omega),Nat.mul_zero,Nat.zero_add]
      rfl
    | succ j =>
      rw [if_neg (by omega),show 8*(j+1)+r-8 = 8*j+r by omega,ih j]
      rfl

theorem ofLe_lt (bs : List UInt8) : ofLe bs < 2^(8*bs.length) := by
  induction bs with
  | nil => exact Nat.one_pos
  | cons b bs ih =>
    have hb := b.toNat_lt
    have hpow : 2^(8*(b::bs).length) = 2^8*2^(8*bs.length) := by
      rw [List.length_cons,← pow_add,Nat.mul_succ,Nat.add_comm]
    rw [ofLe_cons,hpow]
    omega

/-- A number has one numeral of each length. -/
theorem ofLe_inj {bs cs : List UInt8} (hlen : bs.length = cs.length) (h : ofLe bs = ofLe cs) :
    bs = cs := by
  induction bs generalizing cs with
  | nil => exact (List.length_eq_zero_iff.mp hlen.symm).symm
  | cons b bs ih =>
    cases cs with
    | nil => cases hlen
    | cons c cs =>
      have hb := b.toNat_lt
      have hc := c.toNat_lt
      rw [ofLe_cons,ofLe_cons] at h
      have hbyte : b = c := UInt8.toNat_inj.mp (by omega)
      rw [hbyte,ih (Nat.succ.inj hlen) (by omega)]

section Eight

variable {i : List UInt8} (hlen : i.length = 8)
include hlen

theorem toNat_fetch : (fetch i).toNat = ofLe i := by
  have hlt := ofLe_lt i
  rw [hlen] at hlt
  exact Nat.mod_eq_of_lt hlt

omit hlen in
theorem fetch_store (val : BitVec 64) : fetch (store val) = val := by
  have hlt : val.toNat < 256^8 := val.isLt
  rw [fetch,store,ofLe,List.reverse_reverse,ofBe_be_of_lt hlt,BitVec.ofNat_toNat,
    BitVec.setWidth_eq]

theorem store_fetch : store (fetch i) = i := by
  have hstore : (store (fetch i)).length = 8 := by rw [store,List.length_reverse,be_length]
  refine ofLe_inj (hstore.trans hlen.symm) ?_
  rw [← toNat_fetch hstore,fetch_store,toNat_fetch hlen]

/-- The bytes of the reversed variable. -/
theorem fetch_reverse_bit {j r : ℕ} (hj : j < 8) (hr : r < 8) :
    (fetch i.reverse).getLsbD (8*j+r) = (fetch i).getLsbD (8*(7-j)+r) := by
  have hrev : i.reverse.length = 8 := by rw [List.length_reverse,hlen]
  rw [BitVec.getLsbD,BitVec.getLsbD,toNat_fetch hrev,toNat_fetch hlen,testBit_ofLe _ _ hr,
    testBit_ofLe _ _ hr,List.getElem?_reverse (by omega),hlen,show 8-1-j = 7-j by omega]

end Eight

/-! ## The macro -/

/-- Of an unsigned value the macro swaps the bytes. -/
theorem swap64_unsigned_bit (val : BitVec 64) {i : ℕ} (hi : i < 64) :
    (swap64 false val).getLsbD i = val.getLsbD (8*(7-i/8)+i%8) := by
  simp only [swap64,shr,Bool.false_eq_true,if_false,BitVec.getLsbD_or,BitVec.getLsbD_ushiftRight,
    BitVec.getLsbD_and,BitVec.getLsbD_shiftLeft]
  interval_cases i <;> simp

/-- A mask without the sign bit makes the two shifts one. -/
theorem shr_and (signed : Bool) (val : BitVec 64) {m : BitVec 64} (hm : m.msb = false) (n : ℕ) :
    shr signed (val &&& m) n = (val &&& m) >>> n := by
  have hmsb : (val &&& m).msb = false := by rw [BitVec.msb_and,hm,Bool.and_false]
  cases signed with
  | false => rfl
  | true => exact BitVec.sshiftRight_eq_of_msb_false hmsb

/-- Of a signed value it repeats the sign of the byte that comes to the end. -/
theorem swap64_signed (val : BitVec 64) :
    swap64 true val = val.sshiftRight 56 ||| swap64 false val := by
  have hshift : val.sshiftRight 56 ||| val >>> 56 = val.sshiftRight 56 := by
    refine BitVec.eq_of_getLsbD_eq fun i hi => ?_
    rw [BitVec.getLsbD_or,BitVec.getLsbD_sshiftRight,BitVec.getLsbD_ushiftRight]
    by_cases hlow : 56+i < 64
    · simp [hlow,Nat.not_le_of_lt hi]
    · rw [BitVec.getLsbD_of_ge val (56+i) (by omega),Bool.or_false]
  simp only [swap64,shr_and _ val (m := 0x00ff000000000000) rfl,
    shr_and _ val (m := 0x0000ff0000000000) rfl,shr_and _ val (m := 0x000000ff00000000) rfl]
  rw [← BitVec.or_assoc (val.sshiftRight 56) (shr false val 56)]
  simp only [shr,if_true,Bool.false_eq_true,if_false,hshift]

section Eight

variable {i : List UInt8} (hlen : i.length = 8)
include hlen

theorem swap64_unsigned : swap64 false (fetch i.reverse) = fetch i := by
  refine BitVec.eq_of_getLsbD_eq fun k hk => ?_
  rw [swap64_unsigned_bit _ hk,fetch_reverse_bit hlen (by omega) (Nat.mod_lt k (by decide))]
  congr 1
  omega

/-- The top bit of the reversed value. -/
theorem msb_fetch_reverse : (fetch i.reverse).msb = (fetch i).getLsbD 7 := by
  have hbit := fetch_reverse_bit hlen (j := 7) (r := 7) (by decide) (by decide)
  rw [BitVec.msb_eq_getLsbD_last]
  exact hbit

/-- The bits that come in front of the low byte. -/
theorem swap64_signed_bit {k : ℕ} (hk : k < 64) :
    (swap64 true (fetch i.reverse)).getLsbD k =
      ((decide (8 ≤ k) && (fetch i).getLsbD 7) || (fetch i).getLsbD k) := by
  rw [swap64_signed,BitVec.getLsbD_or,swap64_unsigned hlen,BitVec.getLsbD_sshiftRight,
    msb_fetch_reverse hlen]
  by_cases hlow : 8 ≤ k
  · simp [hlow,Nat.not_le_of_lt hk,show ¬56+k < 64 by omega]
  · have hbit := fetch_reverse_bit hlen (j := 7) (r := k) (by decide) (by omega)
    rw [Nat.sub_self,Nat.mul_zero,Nat.zero_add] at hbit
    rw [if_pos (show 56+k < 64 by omega),show 56+k = 8*7+k from rfl,hbit]
    simp [hlow]

/-- The signed macro gives the value back where its low byte has no sign, or where all that
is in front of the low byte repeats it. -/
theorem swap64_signed_iff : swap64 true (fetch i.reverse) = fetch i ↔
    ((fetch i).getLsbD 7 = true → ∀ k,8 ≤ k → k < 64 → (fetch i).getLsbD k = true) := by
  constructor
  · intro h h7 k hlow hk
    have hbit := swap64_signed_bit hlen hk
    rw [h,h7,decide_eq_true hlow] at hbit
    exact hbit
  · intro h
    refine BitVec.eq_of_getLsbD_eq fun k hk => ?_
    rw [swap64_signed_bit hlen hk]
    by_cases hall : 8 ≤ k ∧ (fetch i).getLsbD 7 = true
    · rw [h hall.2 k hall.1 hk,Bool.or_true]
    · have hfalse : (decide (8 ≤ k) && (fetch i).getLsbD 7) = false := by
        simpa using hall
      rw [hfalse,Bool.false_or]

/-- The value of the variable, by its bits: a negative one has the top bit. -/
theorem value_signed : value true i = (fetch i).toInt := by
  rw [value,if_pos rfl,hlen,BitVec.toInt_eq_toNat_bmod,toNat_fetch hlen]

theorem low_bit : (fetch i).getLsbD 7 = false ↔ value true i%256 < 128 := by
  have hmod : (value true i)%256 = ((fetch i).toNat%256 : ℕ) := by
    have hlt := (fetch i).isLt
    rw [value_signed hlen,BitVec.toInt_eq_toNat_cond]
    split_ifs <;> omega
  rw [hmod,BitVec.getLsbD,Nat.testBit_eq_decide_div_mod_eq,decide_eq_false_iff_not]
  omega

/-- All bits from the low byte's sign on are set in the numbers from -128 to -1. -/
theorem high_bits : (∀ k,7 ≤ k → k < 64 → (fetch i).getLsbD k = true) ↔
    -128 ≤ value true i ∧ value true i < 0 := by
  have hlt := (fetch i).isLt
  rw [value_signed hlen,BitVec.toInt_eq_toNat_cond]
  have hdiv : (∀ k,7 ≤ k → k < 64 → (fetch i).getLsbD k = true) ↔
      (fetch i).toNat/2^7 = 2^57-1 := by
    constructor
    · intro h
      refine Nat.eq_of_testBit_eq fun k => ?_
      rw [Nat.testBit_div_two_pow,Nat.testBit_two_pow_sub_one]
      by_cases hk : k < 57
      · rw [decide_eq_true hk]
        exact h (k+7) (by omega) (by omega)
      · rw [decide_eq_false hk]
        exact BitVec.getLsbD_of_ge (fetch i) (k+7) (by omega)
    · intro h k hlow hk
      have hbit : ((fetch i).toNat/2^7).testBit (k-7) = true := by
        rw [h,Nat.testBit_two_pow_sub_one]
        exact decide_eq_true (by omega)
      rwa [Nat.testBit_div_two_pow,Nat.sub_add_cancel hlow] at hbit
  rw [hdiv]
  split_ifs <;> omega

end Eight

/-- On unsigned types all the swaps reverse the bytes. -/
theorem hostOrder_unsigned {i : List UInt8}
    (hlen : i.length = 2 ∨ i.length = 4 ∨ i.length = 8) : hostOrder false i = i.reverse := by
  rw [hostOrder]
  rcases hlen with h2 | h4 | h8
  · rw [if_pos h2]
  · rw [if_neg (by omega),if_pos h4]
  · have hrev : i.reverse.length = 8 := by rw [List.length_reverse,h8]
    have hswap := swap64_unsigned hrev
    rw [List.reverse_reverse] at hswap
    rw [if_neg (by omega),if_neg (by omega),if_pos h8,hswap,store_fetch hrev]

/-- A variable whose bytes `POP_INT` puts into the order of the host: its low byte has no sign
bit, or is all there is to the value, or the macro works on an unsigned type. -/
def Survives (signed : Bool) (i : List UInt8) : Prop :=
  signed = false ∨ i.length ≠ 8 ∨ value true i%256 < 128 ∨
    (-128 ≤ value true i ∧ value true i < 0)

/-- The bytes in network order become the variable again exactly where it survives. -/
theorem hostOrder_reverse_iff (signed : Bool) {i : List UInt8}
    (hlen : i.length = 2 ∨ i.length = 4 ∨ i.length = 8) :
    hostOrder signed i.reverse = i ↔ Survives signed i := by
  cases signed with
  | false =>
    rw [hostOrder_unsigned (by rwa [List.length_reverse]),List.reverse_reverse]
    exact iff_of_true rfl (.inl rfl)
  | true =>
    rw [hostOrder,List.length_reverse,List.reverse_reverse]
    rcases hlen with h2 | h4 | h8
    · rw [if_pos h2]
      exact iff_of_true rfl (.inr (.inl (by omega)))
    · rw [if_neg (by omega),if_pos h4]
      exact iff_of_true rfl (.inr (.inl (by omega)))
    · rw [if_neg (by omega),if_neg (by omega),if_pos h8]
      have hstore : store (swap64 true (fetch i.reverse)) = i ↔
          swap64 true (fetch i.reverse) = fetch i :=
        ⟨fun h => (fetch_store _).symm.trans (congrArg fetch h),fun h => by rw [h,store_fetch h8]⟩
      rw [hstore,swap64_signed_iff h8,Survives,← low_bit h8,← high_bits h8]
      constructor
      · intro h
        cases hbit : (fetch i).getLsbD 7 with
        | false => exact .inr (.inr (.inl rfl))
        | true =>
          refine .inr (.inr (.inr fun k hlow hk => ?_))
          rcases Nat.lt_or_eq_of_le hlow with hlt | rfl
          · exact h hbit k hlt hk
          · exact hbit
      · rintro (h | h | h | h) hbit k hlow hk
        · cases h
        · exact absurd h8 h
        · rw [h] at hbit
          cases hbit
        · exact h k (Nat.le_of_succ_le hlow) hk

end ThreadSwap
end RecycleBin
