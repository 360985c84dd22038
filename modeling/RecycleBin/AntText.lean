import RecycleBin.AntItoa
import RecycleBin.Bytes

/-! More of `ant_string.c`: Ethernet addresses, fixed-width numerals, and blocks of equal bytes. -/
namespace RecycleBin
namespace AntText
open AntHash CString Bytes
open AntVisited (isspace isdigit tolower)
open GasInt (Word)

/-! ### `ether_atoe` -/

def ETHER_ADDR_LEN : ℕ := 6

/-- `strtoul(c, &c, 16)`: where it leaves `c`. -/
def behindNumber (c : Bytes) : Bytes :=
  let p := dropHexPrefix (takeSign (c.dropWhile isspace)).2
  if (p.head?.bind hexDigit).isSome then p.dropWhile fun b => (hexDigit b).isSome else c

/-- The loop, with the room that is left in `e`. -/
def etherLoop : ℕ → Bytes → Bytes
  | 0,_ => []
  | room+1,c =>
    let b := UInt8.ofNat (strtoul16 c)
    let c := behindNumber c
    if c = [] then [b] else b::etherLoop room c.tail

/-- What `ether_atoe` returns, and `e`. -/
def etherAtoe (a : Bytes) : Bool × Bytes :=
  let e := etherLoop ETHER_ADDR_LEN a
  (e.length = ETHER_ADDR_LEN,e++List.replicate (ETHER_ADDR_LEN-e.length) 0)

/-- A number in hexadecimal without a prefix. -/
def Numeral (ds : Bytes) : Prop := ds ≠ [] ∧ ∀ b ∈ ds,(hexDigit b).isSome = true

/-- A byte that ends a number. -/
def Separates (b : UInt8) : Prop := b ≠ 0 ∧ hexDigit b = none ∧ tolower b ≠ 120

/-- The text of an address: a number, and the others each behind a separator. -/
def address (ds : Bytes) (more : List (UInt8 × Bytes)) : Bytes :=
  ds++more.flatMap fun f => f.1::f.2

/-- What is read of a field. -/
def fieldByte (ds : Bytes) : UInt8 := UInt8.ofNat (min (2^64-1) (hexValue 0 ds))

theorem number_front {ds rest : Bytes} (h : Numeral ds)
    (hrest : ∀ b ∈ rest.head?,hexDigit b = none ∧ tolower b ≠ 120) :
    takeSign ((ds++rest).dropWhile isspace) = (false,ds++rest) ∧
      dropHexPrefix (ds++rest) = ds++rest := by
  obtain ⟨hne,hdigits⟩ := h
  cases ds with
  | nil => exact absurd rfl hne
  | cons b ds =>
    obtain ⟨-,-,-,hplus,hminus,hspace,-⟩ := hexDigit_ne b (hdigits b List.mem_cons_self)
    have hdrop : ((b::ds)++rest).dropWhile isspace = (b::ds)++rest := by simp [hspace]
    refine ⟨by rw [hdrop]; simp [takeSign,hplus,hminus],?_⟩
    rw [dropHexPrefix,if_neg]
    rintro ⟨-,hsecond,-⟩
    cases ds with
    | nil =>
      cases rest with
      | nil => cases hsecond
      | cons c rest => exact (hrest c rfl).2 (Option.some.inj hsecond)
    | cons c ds =>
      obtain ⟨-,-,-,-,-,-,hc⟩ := hexDigit_ne c (hdigits c (by simp))
      exact hc (Option.some.inj hsecond)

/-- A field is read to its end, and no further. -/
theorem strtoul16_field {ds rest : Bytes} (h : Numeral ds)
    (hrest : ∀ b ∈ rest.head?,hexDigit b = none ∧ tolower b ≠ 120) :
    strtoul16 (ds++rest) = min (2^64-1) (hexValue 0 ds) ∧ behindNumber (ds++rest) = rest := by
  obtain ⟨hsign,hx⟩ := number_front h hrest
  have hvalue : hexValue 0 (ds++rest) = hexValue 0 ds := by
    cases rest with
    | nil => rw [List.append_nil]
    | cons c rest => exact hexValue_append h.2 (hrest c rfl).1 rest 0
  constructor
  · rw [strtoul16,hsign]
    simp only [hx,hvalue,Bool.false_eq_true,if_false]
    split_ifs with hbig
    · omega
    · omega
  · have hhead : (((ds++rest).head?).bind hexDigit).isSome = true := by
      obtain ⟨b,ds,rfl⟩ := List.exists_cons_of_ne_nil h.1
      exact h.2 b List.mem_cons_self
    have hstop : rest.dropWhile (fun b => (hexDigit b).isSome) = rest := by
      cases rest with
      | nil => rfl
      | cons c rest => exact List.dropWhile_cons_of_neg (by simp [(hrest c rfl).1])
    rw [behindNumber,hsign]
    simp only [hx,hhead,if_true]
    rw [List.dropWhile_append_of_pos h.2,hstop]

theorem etherLoop_eq (room : ℕ) : ∀ {ds : Bytes} {more : List (UInt8 × Bytes)},Numeral ds →
    (∀ f ∈ more,Separates f.1 ∧ Numeral f.2) →
    etherLoop room (address ds more) =
      (fieldByte ds::more.map fun f => fieldByte f.2).take room := by
  induction room with
  | zero => exact fun _ _ => rfl
  | succ room ih =>
    intro ds more hds hmore
    cases more with
    | nil =>
      obtain ⟨hvalue,hbehind⟩ := @strtoul16_field ds [] hds (by simp)
      have htext : address ds [] = ds++[] := rfl
      rw [etherLoop,htext,hbehind,hvalue,if_pos rfl]
      simp [fieldByte]
    | cons f more =>
      obtain ⟨⟨hsep,hfield⟩,hmore⟩ := List.forall_mem_cons.mp hmore
      have htext : address ds (f::more) = ds++f.1::address f.2 more := by simp [address]
      obtain ⟨hvalue,hbehind⟩ := @strtoul16_field ds (f.1::address f.2 more) hds (by
        rintro b ⟨⟩
        exact hsep.2)
      rw [etherLoop,htext,hbehind,hvalue]
      simp only [reduceCtorEq,if_false,List.tail_cons,ih hfield hmore,List.map_cons,
        List.take_succ_cons,fieldByte]

/-- An address of any number of fields in hexadecimal, of any length and with any separators: the
first six give the bytes, the missing ones are 0, and it tells whether there are six. -/
theorem etherAtoe_fields (ds : Bytes) (more : List (UInt8 × Bytes)) (hds : Numeral ds)
    (hmore : ∀ f ∈ more,Separates f.1 ∧ Numeral f.2) :
    etherAtoe (address ds more) = (decide (5 ≤ more.length),
      (fieldByte ds::more.map (fun f : UInt8 × Bytes => fieldByte f.2)++List.replicate 6 0).take 6) := by
  have hpad : ∀ l : Bytes,l.take 6++List.replicate (6-(l.take 6).length) 0 =
      (l++List.replicate 6 0).take 6 := by
    intro l
    rw [List.take_append,List.take_replicate,List.length_take]
    congr 2
    omega
  rw [etherAtoe,ETHER_ADDR_LEN,etherLoop_eq 6 hds hmore]
  refine Prod.ext ?_ (hpad _)
  simp only [List.length_take,List.length_cons,List.length_map,decide_eq_decide]
  omega

/-- 00:1A:2b:3:4d:5e, once complete and once without its last two fields -/
theorem etherAtoe_fields_six :
    etherAtoe (ascii "00:1A:2b:3:4d:5e") = (true,[0,26,43,3,77,94]) ∧
      etherAtoe (ascii "00:1A:2b:3") = (false,[0,26,43,3,0,0]) := by
  have hfields : ∀ f ∈ [((58 : UInt8),ascii "1A"),(58,ascii "2b"),(58,ascii "3"),(58,ascii "4d"),
      (58,ascii "5e")],Separates f.1 ∧ Numeral f.2 := by
    unfold Separates Numeral
    decide +kernel
  have hfirst : Numeral (ascii "00") := by
    unfold Numeral
    decide +kernel
  constructor
  · exact (etherAtoe_fields (ascii "00") _ hfirst hfields).trans (by decide)
  · have hfew := fun f (hf : f ∈ [((58 : UInt8),ascii "1A"),(58,ascii "2b"),(58,ascii "3")]) =>
      hfields f (by simp at hf ⊢; tauto)
    exact (etherAtoe_fields (ascii "00") _ hfirst hfew).trans (by decide)

/-! ### `ant_dump_num` -/

/-- `hex[n]` -/
def hexChar (n : Word) : UInt8 := (ascii "0123456789abcdef").getD n.toNat 0

/-- The digits of `width` bits each, from the highest of them on. -/
def dumpLoop (width : ℕ) (mask ui : Word) : ℕ → Bytes
  | 0 => []
  | k+1 => hexChar ((ui >>> (width*k)) &&& mask)::dumpLoop width mask ui k

/-- What `ant_dump_num` stores, without the terminator. -/
def antDumpNum (ui : Word) (base : ℕ) : Bytes :=
  if base = 2 then dumpLoop 1 1 ui 32
  else if base = 16 then dumpLoop 4 0xf ui 8
  else []

theorem hexChar_spec : ∀ n : Fin 16,
    hexDigit (hexChar (BitVec.ofNat 32 n)) = some n.val ∧
      (n.val < 2 → (hexChar (BitVec.ofNat 32 n)).toNat-48 = n.val) := by
  decide +kernel

theorem low_bits (ui : Word) (i w : ℕ) (hw : w ≤ 32) :
    (ui >>> i) &&& BitVec.ofNat 32 (2^w-1) = BitVec.ofNat 32 (ui.toNat/2^i%2^w) := by
  apply BitVec.eq_of_toNat_eq
  have hpow : 2^w ≤ 2^32 := Nat.pow_le_pow_right (by decide) hw
  have hpos : 0 < 2^w := Nat.two_pow_pos w
  have hlt := Nat.mod_lt (ui.toNat/2^i) hpos
  have hmask : (BitVec.ofNat 32 (2^w-1)).toNat = 2^w-1 := by
    rw [BitVec.toNat_ofNat]
    exact Nat.mod_eq_of_lt (by omega)
  have hdigit : (BitVec.ofNat 32 (ui.toNat/2^i%2^w)).toNat = ui.toNat/2^i%2^w := by
    rw [BitVec.toNat_ofNat]
    exact Nat.mod_eq_of_lt (by omega)
  rw [hdigit,BitVec.toNat_and,BitVec.toNat_ushiftRight,hmask,Nat.and_two_pow_sub_one_eq_mod,
    Nat.shiftRight_eq_div_pow]

/-- A value is made of its upper digits and its lowest ones. -/
theorem split_digits (n w k : ℕ) :
    n/2^(w*k)%2^w*2^(w*k)+n%2^(w*k) = n%2^(w*(k+1)) := by
  rw [Nat.mul_add,Nat.mul_one,Nat.pow_add,Nat.mod_mul]
  ring

theorem hexValue_dump (ui : Word) (k : ℕ) : ∀ v,
    hexValue v (dumpLoop 4 0xf ui k) = v*2^(4*k)+ui.toNat%2^(4*k) := by
  induction k with
  | zero =>
    intro v
    simp [dumpLoop,hexValue,Nat.mod_one]
  | succ k ih =>
    intro v
    have hlow : (ui >>> (4*k)) &&& 0xf = BitVec.ofNat 32 (ui.toNat/2^(4*k)%2^4) :=
      low_bits ui (4*k) 4 (by decide)
    have hhex := (hexChar_spec ⟨ui.toNat/2^(4*k)%2^4,Nat.mod_lt _ (by decide)⟩).1
    rw [dumpLoop,hlow,hexValue,hhex]
    dsimp only
    rw [ih,← split_digits ui.toNat 4 k,Nat.mul_add 4 k 1,Nat.pow_add]
    ring

theorem binary_dump (ui : Word) (k : ℕ) : ∀ v,
    (dumpLoop 1 1 ui k).foldl (fun v d => 2*v+(d.toNat-48)) v = v*2^k+ui.toNat%2^k := by
  induction k with
  | zero =>
    intro v
    simp [dumpLoop,Nat.mod_one]
  | succ k ih =>
    intro v
    have hlow : (ui >>> (1*k)) &&& 1 = BitVec.ofNat 32 (ui.toNat/2^(1*k)%2^1) :=
      low_bits ui (1*k) 1 (by decide)
    have hbit : ui.toNat/2^(1*k)%2^1 < 2 := Nat.mod_lt _ (by decide)
    have hchar := (hexChar_spec ⟨ui.toNat/2^(1*k)%2^1,by omega⟩).2 hbit
    have hsplit := split_digits ui.toNat 1 k
    rw [dumpLoop,List.foldl_cons,hlow,hchar,ih]
    simp only [Nat.one_mul] at hsplit ⊢
    rw [← hsplit,Nat.pow_succ]
    ring

theorem dumpLoop_length (width : ℕ) (mask ui : Word) (k : ℕ) :
    (dumpLoop width mask ui k).length = k := by
  induction k with
  | zero => rfl
  | succ k ih => rw [dumpLoop,List.length_cons,ih]

theorem dumpLoop_numeral (ui : Word) (k : ℕ) : Numeral (dumpLoop 4 0xf ui (k+1)) := by
  refine ⟨List.cons_ne_nil _ _,?_⟩
  induction k+1 with
  | zero => exact fun b hb => absurd hb (List.not_mem_nil)
  | succ k ih =>
    refine List.forall_mem_cons.mpr ⟨?_,ih⟩
    have hlow : (ui >>> (4*k)) &&& 0xf = BitVec.ofNat 32 (ui.toNat/2^(4*k)%2^4) :=
      low_bits ui (4*k) 4 (by decide)
    rw [hlow,(hexChar_spec ⟨ui.toNat/2^(4*k)%2^4,Nat.mod_lt _ (by decide)⟩).1]
    rfl

/-- Both texts have all their digits, and `strtoul` reads the hexadecimal one back. -/
theorem antDumpNum_reads (ui : Word) :
    (antDumpNum ui 16).length = 8 ∧ strtoul16 (antDumpNum ui 16) = ui.toNat ∧
      (antDumpNum ui 2).length = 32 ∧
      (antDumpNum ui 2).foldl (fun v d => 2*v+(d.toNat-48)) 0 = ui.toNat := by
  have hlt : ui.toNat < 2^32 := ui.isLt
  have hhex : antDumpNum ui 16 = dumpLoop 4 0xf ui 8 := rfl
  have hbin : antDumpNum ui 2 = dumpLoop 1 1 ui 32 := rfl
  rw [hhex,hbin]
  refine ⟨dumpLoop_length 4 0xf ui 8,?_,dumpLoop_length 1 1 ui 32,?_⟩
  · have hread := (@strtoul16_field _ [] (dumpLoop_numeral ui 7) (by simp)).1
    rw [List.append_nil,hexValue_dump] at hread
    rw [hread,Nat.zero_mul,Nat.zero_add,Nat.mod_eq_of_lt hlt]
    omega
  · rw [binary_dump,Nat.zero_mul,Nat.zero_add,Nat.mod_eq_of_lt hlt]

/-! ### `isallc` and `ant_iszero` -/

/-- The second loop, byte by byte. -/
def byteLoop (x : UInt8) (mem : Bytes) : ℕ → ℕ → Except Fault Bool
  | 0,_ => .ok true
  | cnt+1,p => do
    let b ← readAt mem p 1
    if b ≠ [x] then .ok false else byteLoop x mem cnt (p+1)

/-- The first loop, four bytes at a time. -/
def wordLoop (x : UInt8) (mem : Bytes) : ℕ → ℕ → Except Fault Bool
  | cnt+4,p => do
    let t ← readAt mem p 4
    if t ≠ [x,x,x,x] then .ok false else wordLoop x mem cnt (p+4)
  | cnt,p => byteLoop x mem cnt p

/-- `isallc`; the size goes into an `int`. -/
def isallc (s : Bytes) (c : Word) (n : ℕ) : Except Fault Bool :=
  wordLoop ⟨c.setWidth 8⟩ s (toInt n).toNat 0

/-- `ant_iszero`, and `iszero` of `ant_array.c`. -/
def antIszero (s : Bytes) (n : ℕ) : Except Fault Bool := wordLoop 0 s (toInt n).toNat 0

theorem byteLoop_eq {x : UInt8} {mem : Bytes} (cnt : ℕ) : ∀ {p : ℕ},p+cnt ≤ mem.length →
    byteLoop x mem cnt p = .ok (((mem.drop p).take cnt).all (· = x)) := by
  induction cnt with
  | zero =>
    intro p _
    simp [byteLoop]
  | succ cnt ih =>
    intro p h
    have hp : p < mem.length := by omega
    have hread : readAt mem p 1 = .ok [mem[p]] := by
      rw [readAt,if_pos (by omega),List.drop_eq_getElem_cons hp]
      rfl
    rw [byteLoop,hread,ok_bind,List.drop_eq_getElem_cons hp,List.take_succ_cons]
    by_cases hx : mem[p] = x
    · rw [if_neg (by simp [hx]),ih (by omega)]
      simp [hx]
    · rw [if_pos (by simp [hx])]
      simp [hx]

theorem wordLoop_few {x : UInt8} {mem : Bytes} {cnt p : ℕ} (h : cnt < 4) :
    wordLoop x mem cnt p = byteLoop x mem cnt p := by
  interval_cases cnt <;> rfl

/-- Four bytes at a time are the same as one by one. -/
theorem wordLoop_eq {x : UInt8} {mem : Bytes} (cnt : ℕ) : ∀ {p : ℕ},p+cnt ≤ mem.length →
    wordLoop x mem cnt p = .ok (((mem.drop p).take cnt).all (· = x)) := by
  induction cnt using Nat.strong_induction_on with
  | _ cnt ih =>
    intro p h
    by_cases hfew : cnt < 4
    · rw [wordLoop_few hfew,byteLoop_eq cnt h]
    obtain ⟨m,rfl⟩ : ∃ m,cnt = m+4 := ⟨cnt-4,by omega⟩
    have hread : readAt mem p 4 = .ok ((mem.drop p).take 4) := if_pos (by omega)
    have hsplit : (mem.drop p).take (m+4) = (mem.drop p).take 4++(mem.drop (p+4)).take m := by
      rw [Nat.add_comm m 4,List.take_add,List.drop_drop]
    have hword : (mem.drop p).take 4 = [x,x,x,x] ↔ ((mem.drop p).take 4).all (· = x) = true := by
      have hlen : ((mem.drop p).take 4).length = 4 := by
        rw [List.length_take,List.length_drop]
        omega
      have hrep : [x,x,x,x] = List.replicate 4 x := rfl
      rw [hrep,List.eq_replicate_iff]
      simp only [List.all_eq_true,decide_eq_true_eq]
      exact and_iff_right hlen
    rw [wordLoop,hread,ok_bind,hsplit,List.all_append]
    by_cases hsame : (mem.drop p).take 4 = [x,x,x,x]
    · rw [if_neg (not_not.mpr hsame),ih m (by omega) (by omega),hword.mp hsame,Bool.true_and]
    · rw [if_pos hsame,Bool.eq_false_iff.mpr fun hall => hsame (hword.mpr hall),Bool.false_and]

/-- The bytes that are looked at: of a size from 2^31 on, what an `int` makes of it. -/
def looked (n : ℕ) : ℕ := if n%2^32 < 2^31 then n%2^32 else 0

/-- Both functions tell whether all bytes are the same, for every size of less than 2^31; of a
greater one only the low bits count, and when they make a negative number, nothing is looked at. -/
theorem isallc_iff (s : Bytes) (c : Word) (n : ℕ) (h : n ≤ s.length) :
    isallc s c n = .ok ((s.take (looked n)).all (· = ⟨c.setWidth 8⟩)) ∧
      antIszero s n = .ok ((s.take (looked n)).all (· = 0)) ∧ (n < 2^31 → looked n = n) := by
  have hcnt : (toInt n).toNat = looked n := by
    rw [toInt,looked,Int.bmod_def]
    split_ifs <;> omega
  have hle : 0+looked n ≤ s.length := by
    rw [looked]
    split_ifs <;> omega
  refine ⟨?_,?_,?_⟩
  · rw [isallc,hcnt,wordLoop_eq _ hle,List.drop_zero]
  · rw [antIszero,hcnt,wordLoop_eq _ hle,List.drop_zero]
  · intro hsmall
    rw [looked]
    split_ifs <;> omega

theorem isallc_iff_five : isallc [7,7,7,7,7,8] 0x107 5 = .ok true :=
  (isallc_iff [7,7,7,7,7,8] 0x107 5 (by decide +kernel)).1.trans (by decide +kernel)

end AntText
end RecycleBin
