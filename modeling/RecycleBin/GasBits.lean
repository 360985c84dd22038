import RecycleBin.Bytes
import RecycleBin.GasInt
import RecycleBin.Halting

/-! Bits in assembly: the two versions of `reverse_bits`, and the bit arrays of `bit.s`. -/
namespace RecycleBin
namespace GasBits
open Bytes GasInt Halting

/-- `shll %cl`: of the count the low five bits are taken. -/
def shll (x c : Word) : Word := x <<< (c.toNat%32)
def shrl (x c : Word) : Word := x >>> (c.toNat%32)

/-! ### `reverse_bits.s` -/

inductive Label
  | reverse_bits | reverse_bits_start | reverse_bits_end

structure Regs where
  eax : Word
  edi : Word
  edx : Word
  esi : Word
  ecx : Word
  r8d : Word
  r9d : Word

/-- One block: where control goes with which registers, or the value returned. -/
def block : Label × Regs → (Label × Regs) ⊕ Word
  | (.reverse_bits,r) =>
    let r := { r with eax := r.edi }
    .inl (.reverse_bits_start,{ r with edi := 0 })
  | (.reverse_bits_start,r) =>
    if r.edi = 16 then .inl (.reverse_bits_end,r)
    else
      let r := { r with edx := 31 }
      let r := { r with edx := r.edx-r.edi }
      let r := { r with r8d := r.eax }
      let r := { r with esi := 1 }
      let r := { r with ecx := r.edx }
      let r := { r with esi := shll r.esi r.ecx }
      let r := { r with r8d := shrl r.r8d r.ecx }
      let r := { r with r8d := r.r8d &&& 1 }
      let r := { r with ecx := r.edi }
      let r := { r with r8d := shll r.r8d r.ecx }
      let r := { r with esi := ~~~r.esi }
      let r := { r with eax := r.eax &&& r.esi }
      let r := { r with r9d := r.eax }
      let r := { r with esi := 1 }
      let r := { r with ecx := r.edi }
      let r := { r with esi := shll r.esi r.ecx }
      let r := { r with r9d := shrl r.r9d r.ecx }
      let r := { r with r9d := r.r9d &&& 1 }
      let r := { r with ecx := r.edx }
      let r := { r with r9d := shll r.r9d r.ecx }
      let r := { r with esi := ~~~r.esi }
      let r := { r with eax := r.eax &&& r.esi }
      let r := { r with eax := r.eax ||| r.r8d }
      let r := { r with eax := r.eax ||| r.r9d }
      .inl (.reverse_bits_start,{ r with edi := r.edi+1 })
  | (.reverse_bits_end,r) => .inr r.eax

/-! ### `reverse_bits2.s` -/

structure Regs2 where
  eax : Word
  ecx : Word
  edi : Word
  esi : Word

def block2 : Label × Regs2 → (Label × Regs2) ⊕ Word
  | (.reverse_bits,r) =>
    let r := { r with eax := 0 }
    .inl (.reverse_bits_start,{ r with ecx := 32 })
  | (.reverse_bits_start,r) =>
    if r.ecx = 0 then .inl (.reverse_bits_end,r)
    else
      let r := { r with eax := r.eax <<< 1 }
      let r := { r with esi := r.edi }
      let r := { r with esi := r.esi &&& 1 }
      let r := { r with eax := r.eax ||| r.esi }
      let r := { r with edi := r.edi >>> 1 }
      .inl (.reverse_bits_start,{ r with ecx := r.ecx-1 })
  | (.reverse_bits_end,r) => .inr r.eax

/-! ### What they compute -/

/-- The body of the loop of `reverse_bits.s`. -/
def swap (a : Word) (i d : ℕ) : Word :=
  let b := a &&& ~~~(1#32 <<< d)
  ((b &&& ~~~(1#32 <<< i)) ||| (((a >>> d) &&& 1#32) <<< i)) ||| (((b >>> i) &&& 1#32) <<< d)

theorem getLsbD_one_shift {d j : ℕ} (hj : j < 32) :
    (1#32 <<< d).getLsbD j = decide (j = d) := by
  simp only [BitVec.getLsbD_shiftLeft,BitVec.getLsbD_one,hj,decide_true,Bool.true_and]
  by_cases h : j < d
  · simp [h,Nat.ne_of_lt h]
  · have heq : j-d = 0 ↔ j = d := by omega
    simp [h,heq]

theorem getLsbD_bit_shift {a : Word} {d i j : ℕ} (hj : j < 32) :
    (((a >>> d) &&& 1#32) <<< i).getLsbD j = (decide (j = i) && a.getLsbD d) := by
  simp only [BitVec.getLsbD_shiftLeft,BitVec.getLsbD_and,BitVec.getLsbD_ushiftRight,
    BitVec.getLsbD_one,hj,decide_true,Bool.true_and]
  by_cases h : j = i
  · subst h
    simp
  · by_cases hlt : j < i
    · simp [hlt,h]
    · have hne : j-i ≠ 0 := by omega
      simp [h,hne]

/-- Two bits change places. -/
theorem getLsbD_swap {a : Word} {i d j : ℕ} (hi : i < 32) (hd : d < 32) (hne : i ≠ d) (hj : j < 32) :
    (swap a i d).getLsbD j =
      if j = i then a.getLsbD d else if j = d then a.getLsbD i else a.getLsbD j := by
  simp only [swap,BitVec.getLsbD_or,getLsbD_bit_shift hj,BitVec.getLsbD_and,BitVec.getLsbD_not,
    getLsbD_one_shift hj,getLsbD_one_shift hi,hj,decide_true,
    Bool.true_and]
  by_cases h : j = i
  · subst h
    simp [hne]
  · by_cases h' : j = d
    · subst h'
      simp [h,hne,hi]
    · simp [h,h']

/-- In front of a turn of the loop of `reverse_bits.s`, with `k` turns to go: the outer bits have
changed places. -/
structure Swapped (u : Word) (k : ℕ) (s : Label × Regs) : Prop where
  label : s.1 = .reverse_bits_start
  few : k ≤ 16
  count : s.2.edi = BitVec.ofNat 32 (16-k)
  bits : ∀ j < 32,s.2.eax.getLsbD j =
    if j < 16-k ∨ 31-(16-k) < j then u.getLsbD (31-j) else u.getLsbD j

/-- A turn changes two bits. -/
theorem block_turn {r : Regs} {i : ℕ} (hi : i < 16) (hcount : r.edi = BitVec.ofNat 32 i) :
    ∃ r',block (.reverse_bits_start,r) = .inl (.reverse_bits_start,r') ∧
      r'.eax = swap r.eax i (31-i) ∧ r'.edi = BitVec.ofNat 32 (i+1) := by
  have hnat : r.edi.toNat = i := by
    rw [hcount,BitVec.toNat_ofNat]
    omega
  have hne : r.edi ≠ 16 := by
    intro h16
    have h := congrArg BitVec.toNat h16
    have h16' : (16 : Word).toNat = 16 := rfl
    omega
  have hlow : r.edi.toNat%32 = i := by omega
  have hhigh : (31-r.edi).toNat%32 = 31-i := by
    have h31 : (31 : Word).toNat = 31 := rfl
    rw [BitVec.toNat_sub,hnat,h31]
    omega
  refine ⟨_,by rw [block,if_neg hne],?_,?_⟩
  · simp only [shll,shrl,hlow,hhigh,swap]
    rfl
  · simp only [hcount]
    exact (BitVec.ofNat_add i 1).symm

theorem block_swap {u : Word} {k : ℕ} {s : Label × Regs} (h : Swapped u (k+1) s) :
    ∃ t,block s = .inl t ∧ Swapped u k t := by
  obtain ⟨l,r⟩ := s
  obtain ⟨rfl,hfew,hcount,hbits⟩ := h
  obtain ⟨r',hblock,heax,hedi⟩ := block_turn (by omega) hcount
  refine ⟨_,hblock,rfl,by omega,?_,fun j hj => ?_⟩
  · rw [hedi]
    congr 1
    omega
  · rw [heax,getLsbD_swap (by omega) (by omega) (by omega) hj,hbits _ hj,hbits _ (by omega),
      hbits _ (by omega)]
    split_ifs <;> first | rfl | omega | (congr 1; omega)

theorem getLsbD_reversed {u : Word} {j : ℕ} (hj : j < 32) :
    u.reverse.getLsbD j = u.getLsbD (31-j) := by
  rw [BitVec.getLsbD_reverse,BitVec.getMsbD_eq_getLsbD]
  simp [hj]

/-- `reverse_bits.s` reverses a word, whatever the other registers hold. -/
theorem block_reverse (r : Regs) : Returns block (.reverse_bits,r) r.edi.reverse := by
  refine .next rfl (Returns.countdown (I:=Swapped r.edi) (fun k s => block_swap) ?_ (k:=16) ?_)
  · rintro ⟨l,r'⟩ ⟨rfl,-,hcount,hbits⟩
    have h16 : r'.edi = 16 := hcount
    have hrev : r'.eax = r.edi.reverse := by
      apply BitVec.eq_of_getLsbD_eq
      intro j hj
      rw [hbits j hj,getLsbD_reversed hj,if_pos (by omega)]
    refine .next (t:=(.reverse_bits_end,r')) (by rw [block,if_pos h16]) (.ret ?_)
    rw [block,hrev]
  · exact ⟨rfl,le_refl _,rfl,fun j hj => (if_neg (by omega)).symm⟩

/-- In front of a turn of the loop of `reverse_bits2.s`, with `k` turns to go: the low bits of the
word have been moved over in the order of their turns. -/
structure Moved (u : Word) (k : ℕ) (s : Label × Regs2) : Prop where
  label : s.1 = .reverse_bits_start
  few : k ≤ 32
  count : s.2.ecx = BitVec.ofNat 32 k
  left : ∀ j,s.2.edi.getLsbD j = u.getLsbD (j+(32-k))
  done : ∀ j < 32,s.2.eax.getLsbD j = (decide (j < 32-k) && u.getLsbD (31-k-j))

theorem block_move {u : Word} {k : ℕ} {s : Label × Regs2} (h : Moved u (k+1) s) :
    ∃ t,block2 s = .inl t ∧ Moved u k t := by
  obtain ⟨l,r⟩ := s
  obtain ⟨rfl,hfew,hcount,hleft,hdone⟩ := h
  dsimp only at hcount hleft hdone
  have hne : r.ecx ≠ 0 := by
    intro h0
    have h := congrArg BitVec.toNat (hcount.symm.trans h0)
    rw [BitVec.toNat_ofNat] at h
    have h0' : (0 : Word).toNat = 0 := rfl
    omega
  refine ⟨(.reverse_bits_start,_),by rw [block2,if_neg hne],rfl,by omega,?_,?_,?_⟩
  · dsimp only
    rw [hcount,BitVec.ofNat_add]
    exact BitVec.add_sub_cancel _ _
  · intro j
    simp only [BitVec.getLsbD_ushiftRight]
    rw [hleft]
    congr 1
    omega
  · intro j hj
    simp only [BitVec.getLsbD_or,BitVec.getLsbD_shiftLeft,BitVec.getLsbD_and]
    rw [hleft]
    have hone : (1 : Word).getLsbD j = decide (j = 0) := by simp
    rw [hone]
    by_cases h0 : j = 0
    · subst h0
      have hpos : 0 < 32-k := by omega
      have hidx : 32-(k+1) = 31-k := by omega
      simp [hpos,hidx]
    · have hlt : ¬j < 1 := by omega
      have hidx : 31-(k+1)-(j-1) = 31-k-j := by omega
      have hlow : decide (j-1 < 32-(k+1)) = decide (j < 32-k) := by
        rw [decide_eq_decide]
        omega
      rw [hdone (j-1) (by omega),hidx,hlow]
      simp [h0,hlt,hj]

/-- `reverse_bits2.s` reverses a word too. -/
theorem block2_reverse (r : Regs2) : Returns block2 (.reverse_bits,r) r.edi.reverse := by
  refine .next rfl (Returns.countdown (I:=Moved r.edi) (fun k s => block_move) ?_ (k:=32) ?_)
  · rintro ⟨l,r'⟩ ⟨rfl,-,hcount,-,hdone⟩
    have h0 : r'.ecx = 0 := hcount
    have hrev : r'.eax = r.edi.reverse := by
      apply BitVec.eq_of_getLsbD_eq
      intro j hj
      rw [hdone j hj,getLsbD_reversed hj]
      simp [hj]
    refine .next (t:=(.reverse_bits_end,r')) (by rw [block2,if_pos h0]) (.ret ?_)
    rw [block2,hrev]
  · exact ⟨rfl,le_refl _,rfl,fun j => rfl,fun j hj => by simp⟩

/-- Both versions return the word with its bits in the opposite order, and the first one gives
the word back when it gets that. -/
theorem reverseBits_agree (u : Word) : ∃ v : Word,(∀ j < 32,v.getLsbD j = u.getLsbD (31-j)) ∧
    (∀ r : Regs,Returns block (.reverse_bits,{ r with edi := u }) v) ∧
    (∀ r : Regs2,Returns block2 (.reverse_bits,{ r with edi := u }) v) ∧
    ∀ r : Regs,Returns block (.reverse_bits,{ r with edi := v }) u := by
  refine ⟨u.reverse,fun j hj => getLsbD_reversed hj,fun r => block_reverse _,
    fun r => block2_reverse _,fun r => ?_⟩
  have h := block_reverse { r with edi := u.reverse }
  simpa using h

/-! ### `bit.s` -/

/-- `(%rdi, %rdx, 1)` -/
def load (arr : List UInt8) (rdx : Word) : Except Fault UInt8 :=
  match arr[rdx.toNat]? with
  | some b => .ok b
  | none => .error .undefined

def store (arr : List UInt8) (rdx : Word) (b : UInt8) : Except Fault (List UInt8) :=
  writeAt arr rdx.toNat [b]

/-- `shlb %cl` of 1, with the three low bits of the number in `%cl`. -/
def mask (esi : Word) : UInt8 :=
  let cl := UInt8.ofNat esi.toNat
  let cl := cl &&& 7
  1 <<< cl

def setBit (rdi : List UInt8) (esi : Word) : Except Fault (List UInt8) := do
  let edx := esi >>> 3
  let r8b ← load rdi edx
  let r9b := mask esi
  let r9b := r9b ||| r8b
  store rdi edx r9b

def clearBit (rdi : List UInt8) (esi : Word) : Except Fault (List UInt8) := do
  let edx := esi >>> 3
  let r8b ← load rdi edx
  let r9b := mask esi
  let r9b := ~~~r9b
  let r9b := r9b &&& r8b
  store rdi edx r9b

def testBit (rdi : List UInt8) (esi : Word) : Except Fault Word := do
  let edx := esi >>> 3
  let r8b ← load rdi edx
  let r9b := mask esi
  let r9b := r9b &&& r8b
  if r9b = 0 then .ok 0 else .ok 1

def assignBit (rdi : List UInt8) (esi edx : Word) : Except Fault (List UInt8) :=
  if edx = 0 then clearBit rdi esi else setBit rdi esi

inductive Op
  | setBit (n : Word) | clearBit (n : Word) | testBit (n : Word) | assignBit (n value : Word)

def Op.number : Op → Word
  | .setBit n => n
  | .clearBit n => n
  | .testBit n => n
  | .assignBit n _ => n

/-- A call: what `test_bit` returns, and the array. -/
def exec (op : Op) (arr : List UInt8) : Except Fault (Option Word × List UInt8) :=
  match op with
  | .setBit n => (none,·) <$> setBit arr n
  | .clearBit n => (none,·) <$> clearBit arr n
  | .testBit n => (some ·,arr) <$> testBit arr n
  | .assignBit n value => (none,·) <$> assignBit arr n value

/-- The same call on a set of numbers. -/
def spec (op : Op) (s : Finset ℕ) : Option Word × Finset ℕ :=
  match op with
  | .setBit n => (none,insert n.toNat s)
  | .clearBit n => (none,s.erase n.toNat)
  | .testBit n => (some (if n.toNat ∈ s then 1 else 0),s)
  | .assignBit n value => (none,if value = 0 then s.erase n.toNat else insert n.toNat s)

/-- Bit `n` of an array. -/
def bitAt (arr : List UInt8) (n : ℕ) : Bool := (arr[n/8]?.getD 0).toBitVec.getLsbD (n%8)

/-- The numbers of the bits that are set. -/
def bits (arr : List UInt8) : Finset ℕ :=
  (Finset.range (8*arr.length)).filter fun n => bitAt arr n = true

theorem mem_bits {arr : List UInt8} {n : ℕ} : n ∈ bits arr ↔ bitAt arr n = true := by
  rw [bits,Finset.mem_filter,Finset.mem_range,and_iff_right_iff_imp]
  intro h
  by_contra hn
  rw [bitAt,List.getElem?_eq_none (by omega)] at h
  simp at h

theorem mask_bit (n : Word) {j : ℕ} (hj : j < 8) :
    (mask n).toBitVec.getLsbD j = decide (j = n.toNat%8) := by
  have hcl : UInt8.ofNat n.toNat &&& 7 = UInt8.ofNat (n.toNat%8) := by
    apply UInt8.toNat_inj.mp
    rw [UInt8.toNat_and,UInt8.toNat_ofNat',UInt8.toNat_ofNat']
    have hand : n.toNat%2^8 &&& (7 : UInt8).toNat = n.toNat%2^8%2^3 := Nat.and_two_pow_sub_one_eq_mod _ 3
    rw [hand]
    omega
  have hall : ∀ k i : Fin 8,((1 : UInt8) <<< UInt8.ofNat k).toBitVec.getLsbD i = decide (i = k) := by
    decide
  have hk : n.toNat%8 < 8 := Nat.mod_lt _ (by decide)
  have h := hall ⟨n.toNat%8,hk⟩ ⟨j,hj⟩
  rw [mask]
  simp only [hcl,h,Fin.mk.injEq]

theorem index_eq (n : Word) : (n >>> 3).toNat = n.toNat/8 := by
  rw [BitVec.toNat_ushiftRight,Nat.shiftRight_eq_div_pow]

section Access
variable {arr : List UInt8} {n : Word}

theorem load_eq (h : n.toNat < 8*arr.length) :
    load arr (n >>> 3) = .ok (arr[n.toNat/8]?.getD 0) := by
  have hlt : n.toNat/8 < arr.length := by omega
  rw [load,index_eq,List.getElem?_eq_getElem hlt]
  rfl

theorem load_past (h : ¬n.toNat < 8*arr.length) : load arr (n >>> 3) = .error .undefined := by
  rw [load,index_eq,List.getElem?_eq_none (by omega)]

/-- A byte that differs from the one in the array at most in the bit of a number. -/
theorem store_bits (h : n.toNat < 8*arr.length) {b : UInt8} {v : Bool}
    (hb : ∀ j < 8,b.toBitVec.getLsbD j =
      if j = n.toNat%8 then v else (arr[n.toNat/8]?.getD 0).toBitVec.getLsbD j) :
    ∃ arr',store arr (n >>> 3) b = .ok arr' ∧ arr'.length = arr.length ∧
      bits arr' = if v then insert n.toNat (bits arr) else (bits arr).erase n.toNat := by
  have hlt : n.toNat/8 < arr.length := by omega
  refine ⟨arr.set (n.toNat/8) b,?_,List.length_set,?_⟩
  · have hfit : n.toNat/8+[b].length ≤ arr.length := hlt
    rw [store,index_eq,writeAt,if_pos hfit,List.set_eq_take_append_cons_drop,if_pos hlt]
    simp
  · have hbit : ∀ m,bitAt (arr.set (n.toNat/8) b) m = if m = n.toNat then v else bitAt arr m := by
      intro m
      have hm : m%8 < 8 := Nat.mod_lt _ (by decide)
      have hkey : m = n.toNat ↔ m/8 = n.toNat/8 ∧ m%8 = n.toNat%8 := by omega
      by_cases hi : m/8 = n.toNat/8
      · rw [bitAt,bitAt,hi,List.getElem?_set_self hlt,Option.getD_some,hb _ hm]
        simp only [hkey,hi,true_and]
      · rw [bitAt,bitAt,List.getElem?_set_ne (Ne.symm hi),if_neg fun h => hi (hkey.mp h).1]
    ext m
    cases v <;> simp only [mem_bits,hbit,if_true,Bool.false_eq_true,if_false,Finset.mem_insert,
      Finset.mem_erase] <;> split_ifs with hm <;> simp [hm]

theorem setBit_bits (h : n.toNat < 8*arr.length) :
    ∃ arr',setBit arr n = .ok arr' ∧ arr'.length = arr.length ∧
      bits arr' = insert n.toNat (bits arr) := by
  obtain ⟨arr',hstore,hlen,hbits⟩ := store_bits (v:=true) h
    (b:=mask n ||| arr[n.toNat/8]?.getD 0) fun j hj => by
      rw [UInt8.toBitVec_or,BitVec.getLsbD_or,mask_bit n hj]
      by_cases hjn : j = n.toNat%8 <;> simp [hjn]
  refine ⟨arr',?_,hlen,hbits⟩
  rw [setBit]
  simp only [load_eq h,ok_bind,hstore]

theorem clearBit_bits (h : n.toNat < 8*arr.length) :
    ∃ arr',clearBit arr n = .ok arr' ∧ arr'.length = arr.length ∧
      bits arr' = (bits arr).erase n.toNat := by
  obtain ⟨arr',hstore,hlen,hbits⟩ := store_bits (v:=false) h
    (b:=(~~~mask n) &&& arr[n.toNat/8]?.getD 0) fun j hj => by
      rw [UInt8.toBitVec_and,UInt8.toBitVec_not,BitVec.getLsbD_and,BitVec.getLsbD_not,mask_bit n hj]
      by_cases hjn : j = n.toNat%8 <;> simp [hjn,hj]
  refine ⟨arr',?_,hlen,hbits⟩
  rw [clearBit]
  simp only [load_eq h,ok_bind,hstore]

theorem testBit_bits (h : n.toNat < 8*arr.length) :
    testBit arr n = .ok (if n.toNat ∈ bits arr then 1 else 0) := by
  have hzero : mask n &&& arr[n.toNat/8]?.getD 0 = 0 ↔ n.toNat ∉ bits arr := by
    have hm : n.toNat%8 < 8 := Nat.mod_lt _ (by decide)
    rw [mem_bits,bitAt,Bool.not_eq_true,← UInt8.toBitVec_inj,UInt8.toBitVec_and]
    constructor
    · intro h0
      have hbit := congrArg (fun x : BitVec 8 => x.getLsbD (n.toNat%8)) h0
      simpa [mask_bit n hm] using hbit
    · intro hoff
      apply BitVec.eq_of_getLsbD_eq
      intro j hj
      rw [BitVec.getLsbD_and,mask_bit n hj]
      by_cases hjn : j = n.toNat%8
      · rw [hjn,hoff]
        simp
      · simp [hjn]
  rw [testBit]
  simp only [load_eq h,ok_bind,hzero]
  by_cases hmem : n.toNat ∈ bits arr <;> simp [hmem]

/-- A number behind the array is looked for behind the array. -/
theorem exec_past {op : Op} (h : ¬op.number.toNat < 8*arr.length) :
    exec op arr = .error .undefined := by
  cases op with
  | setBit n =>
    rw [exec,setBit,load_past (n:=n) h]
    rfl
  | clearBit n =>
    rw [exec,clearBit,load_past (n:=n) h]
    rfl
  | testBit n =>
    rw [exec,testBit,load_past (n:=n) h]
    rfl
  | assignBit n value =>
    have hset : setBit arr n = .error .undefined := by
      rw [setBit,load_past (n:=n) h]
      rfl
    have hclear : clearBit arr n = .error .undefined := by
      rw [clearBit,load_past (n:=n) h]
      rfl
    rw [exec,assignBit,hset,hclear,ite_self]
    rfl

end Access

/-- The array stands for the set, and has its length. -/
def Stands (len : ℕ) (arr : List UInt8) (s : Finset ℕ) : Prop := arr.length = len ∧ bits arr = s

/-- A call on an array does what it does on the set. -/
theorem exec_refines (len : ℕ) :
    Refines exec spec (fun op _ => op.number.toNat < 8*len) (Stands len) := by
  rintro op arr s ⟨rfl,rfl⟩ hop
  cases op with
  | setBit n =>
    obtain ⟨arr',hset,hlen,hbits⟩ := setBit_bits (n:=n) hop
    exact ⟨arr',by rw [exec,hset]; rfl,hlen,hbits⟩
  | clearBit n =>
    obtain ⟨arr',hclear,hlen,hbits⟩ := clearBit_bits (n:=n) hop
    exact ⟨arr',by rw [exec,hclear]; rfl,hlen,hbits⟩
  | testBit n => exact ⟨arr,by rw [exec,testBit_bits (n:=n) hop]; rfl,rfl,rfl⟩
  | assignBit n value =>
    by_cases hzero : value = 0
    · obtain ⟨arr',hclear,hlen,hbits⟩ := clearBit_bits (n:=n) hop
      exact ⟨arr',by rw [exec,assignBit,if_pos hzero,hclear]; rfl,hlen,
        by rw [hbits,spec,if_pos hzero]⟩
    · obtain ⟨arr',hset,hlen,hbits⟩ := setBit_bits (n:=n) hop
      exact ⟨arr',by rw [exec,assignBit,if_neg hzero,hset]; rfl,hlen,
        by rw [hbits,spec,if_neg hzero]⟩

theorem legalRun_numbers {len : ℕ} {ops : List Op} (s : Finset ℕ)
    (h : ∀ op ∈ ops,op.number.toNat < 8*len) :
    LegalRun (fun op _ => op.number.toNat < 8*len) spec ops s := by
  induction ops generalizing s with
  | nil => trivial
  | cons op ops ih => exact ⟨h op (by simp),ih _ fun op hop => h op (by simp [hop])⟩

/-- Calls of the four functions one after the other keep a set of numbers in the array and answer
every `test_bit` from it, exactly when no number is behind the array. -/
theorem bits_run_iff (ops : List Op) (arr : List UInt8) :
    (∃ arr',runs exec ops arr = .ok ((replay spec ops (bits arr)).1,arr') ∧
        Stands arr.length arr' (replay spec ops (bits arr)).2) ↔
      ∀ op ∈ ops,op.number.toNat < 8*arr.length := by
  constructor
  · rintro ⟨arr',hrun,-⟩
    generalize (replay spec ops (bits arr)).1 = rs at hrun
    generalize hlen : arr.length = len
    induction ops generalizing arr rs with
    | nil => exact fun op hop => by cases hop
    | cons op ops ih =>
      obtain ⟨r,arr₁,rs',hstep,hrest,-⟩ := runs_cons_eq_ok.mp hrun
      have hop : op.number.toNat < 8*len := by
        by_contra hpast
        rw [exec_past (hlen ▸ hpast)] at hstep
        cases hstep
      obtain ⟨arr₂,hstep',hlen',-⟩ := exec_refines len op arr (bits arr) ⟨hlen,rfl⟩ hop
      rw [hstep] at hstep'
      cases hstep'
      exact List.forall_mem_cons.mpr ⟨hop,ih arr₁ rs' hrest hlen'⟩
  · intro h
    exact (exec_refines arr.length).runs ops arr (bits arr) ⟨rfl,rfl⟩ (legalRun_numbers _ h)

end GasBits
end RecycleBin
