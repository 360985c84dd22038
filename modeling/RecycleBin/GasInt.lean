import Mathlib.Data.BitVec
import RecycleBin.CString

/-!
# Integers as text

`str2int.c` and `int2str.c` of the assembler exercises. An `int` is a word of 32
bits, and the arithmetic is modulo `2^32`.
-/

namespace RecycleBin
namespace GasInt

open AntHash AntVisited CString

abbrev Word := BitVec 32

/-! ## Reading -/

/-- `c = *str | 0x20`, a signed `char`. -/
def fold (ch : UInt8) : ℤ :=
  (ch ||| 0x20).toInt8.toInt

/-- The loop over the digits; no digit is compared with the base. -/
def calLoop (base : Word) : Bytes → Word → Word
  | [],rv => rv
  | ch::str,rv =>
    let c := fold ch
    if 97 ≤ c ∧ c ≤ 122 then calLoop base str (rv*base+BitVec.ofInt 32 c-97+10)
    else if 48 ≤ c ∧ c ≤ 57 then calLoop base str (rv*base+BitVec.ofInt 32 c-48)
    else rv

/-- `sign = (*str == '-' || *str == '+') ? *str++ : '+'` -/
def readSign (str : Bytes) : UInt8 × Bytes :=
  if str.head? = some 45 ∨ str.head? = some 43 then (str.headD 0,str.tail) else (43,str)

/-- The base a prefix asks for, `-1` without one, and the text behind the prefix. -/
def guess (str : Bytes) : Word × Bytes :=
  if str.head? = some 48 then
    if str.tail.head? = some 120 ∨ str.tail.head? = some 88 then (16,str.tail.tail)
    else if str.tail.head? = some 98 ∨ str.tail.head? = some 66 then (2,str.tail.tail)
    else (8,str.tail)
  else (-1,str)

/-- `str2int` of `str2int.c`. -/
def str2int (str : Bytes) (base : Word) : Word :=
  if (base.toInt < 2 ∧ base ≠ 0) ∨ 36 < base.toInt then 0
  else
    let signed := readSign (str.dropWhile isspace)
    let guessed := guess signed.2
    let newbase := guessed.1
    let base := if base = 0 then (if newbase = -1 then 10 else newbase) else base
    let rv := calLoop base guessed.2 0
    if signed.1 = 45 then -rv else rv

/-! ## Writing -/

def tab : Bytes :=
  ascii "0123456789abcdefghijklmnopqrstuvwxyz"

/-- `tab[i]` -/
def tabAt (i : Word) : UInt8 :=
  tab[i.toNat]?.getD 0

/-- The loop that stores digits through `p`, with the room left in `buf` and what `buf`
holds below `p`, the last byte first. -/
def pushDigits (base : Word) : ℕ → Word → Bytes → Except Fault (ℕ × Bytes)
  | 0,_,_ => .error .undefined
  | room+1,uval,buf =>
    if uval/base = 0 then .ok (room,tabAt (uval%base)::buf)
    else pushDigits base room (uval/base) (tabAt (uval%base)::buf)

/-- `*p++ = '-'` -/
def pushSign : ℕ × Bytes → Except Fault Bytes
  | (0,_) => .error .undefined
  | (_+1,buf) => .ok (45::buf)

/-- The copy from `p` down to `buf`, and the terminator. -/
def copyOut : Bytes → Bytes
  | [] => [0]
  | c::buf => if c = 0 then [0,0] else c::copyOut buf

/-- `int2str`: the bytes stored to `str`. -/
def int2str (val base : Word) : Except Fault Bytes :=
  if base.toInt < 2 ∨ 36 < base.toInt then .ok [0]
  else do
    let negative := val.toInt < 0 ∧ base = 10
    let uval := if negative then -val else val
    let r ← pushDigits base 33 uval []
    let buf ← if negative then pushSign r else .ok r.2
    .ok (copyOut buf)

/-! ## Digits -/

/-- The value of a digit or letter. -/
def digit (ch : UInt8) : Option ℕ :=
  let c := fold ch
  if 97 ≤ c ∧ c ≤ 122 then some (c.toNat-87)
  else if 48 ≤ c ∧ c ≤ 57 then some (c.toNat-48)
  else none

theorem letter_value : ∀ ch : UInt8,97 ≤ fold ch → fold ch ≤ 122 →
    BitVec.ofInt 32 (fold ch)-97+10 = BitVec.ofNat 32 ((fold ch).toNat-87) :=
  forall_byte (by decide +kernel)

theorem decimal_value : ∀ ch : UInt8,48 ≤ fold ch → fold ch ≤ 57 →
    BitVec.ofInt 32 (fold ch)-48 = BitVec.ofNat 32 ((fold ch).toNat-48) :=
  forall_byte (by decide +kernel)

@[simp] theorem calLoop_nil (base rv : Word) : calLoop base [] rv = rv := rfl

theorem calLoop_digit {ch : UInt8} {d : ℕ} (h : digit ch = some d) (base : Word) (str : Bytes)
    (rv : Word) : calLoop base (ch::str) rv = calLoop base str (rv*base+BitVec.ofNat 32 d) := by
  unfold digit at h
  simp only at h
  split_ifs at h with hletter hdecimal
  · cases h
    have hassoc : rv*base+BitVec.ofInt 32 (fold ch)-97+10 =
        rv*base+(BitVec.ofInt 32 (fold ch)-97+10) := by ring
    rw [calLoop,if_pos hletter,hassoc,letter_value ch hletter.1 hletter.2]
  · cases h
    have hassoc : rv*base+BitVec.ofInt 32 (fold ch)-48 =
        rv*base+(BitVec.ofInt 32 (fold ch)-48) := by ring
    rw [calLoop,if_neg hletter,if_pos hdecimal,hassoc,decimal_value ch hdecimal.1 hdecimal.2]

theorem calLoop_stop {ch : UInt8} (h : digit ch = none) (base : Word) (str : Bytes) (rv : Word) :
    calLoop base (ch::str) rv = rv := by
  unfold digit at h
  simp only at h
  split_ifs at h with hletter hdecimal
  rw [calLoop,if_neg hletter,if_neg hdecimal]

/-- What the digits of the table are. -/
theorem tab_spec : ∀ i : Fin 36,digit (tabAt (BitVec.ofNat 32 i)) = some i.val ∧
    (tabAt (BitVec.ofNat 32 i) = 48 → i.val = 0) ∧ tabAt (BitVec.ofNat 32 i) ≠ 0 ∧
    tabAt (BitVec.ofNat 32 i) ≠ 43 ∧ tabAt (BitVec.ofNat 32 i) ≠ 45 ∧
    isspace (tabAt (BitVec.ofNat 32 i)) = false := by
  decide

/-! ## The round trip -/

/-- A byte that neither blanks, signs nor terminators contain. -/
structure Plain (ch : UInt8) : Prop where
  ne_nul : ch ≠ 0
  ne_plus : ch ≠ 43
  ne_minus : ch ≠ 45
  not_space : isspace ch = false

section RoundTrip

variable {base : Word} (hlow : 2 ≤ base.toNat) (hhigh : base.toNat ≤ 36)
include hlow hhigh

theorem tabAt_spec (uval : Word) : digit (tabAt (uval%base)) = some (uval%base).toNat ∧
    (tabAt (uval%base) = 48 → uval%base = 0) ∧ Plain (tabAt (uval%base)) := by
  have hlt : (uval%base).toNat < 36 := by
    rw [BitVec.toNat_umod]
    exact (Nat.mod_lt _ (by omega)).trans_le hhigh
  obtain ⟨hd,hz,hnul,hplus,hminus,hspace⟩ := tab_spec ⟨(uval%base).toNat,hlt⟩
  have heq : BitVec.ofNat 32 (uval%base).toNat = uval%base := by
    rw [BitVec.ofNat_toNat,BitVec.setWidth_eq]
  simp only [heq] at hd hz hnul hplus hminus hspace
  refine ⟨hd,?_,hnul,hplus,hminus,hspace⟩
  intro h48
  exact BitVec.eq_of_toNat_eq (hz h48)

omit hlow hhigh in
theorem div_mul_add_mod (base uval : Word) : uval/base*base+uval%base = uval := by
  apply BitVec.eq_of_toNat_eq
  have hle : uval.toNat/base.toNat*base.toNat+uval.toNat%base.toNat = uval.toNat :=
    Nat.div_add_mod' _ _
  have hlt := uval.isLt
  simp only [BitVec.toNat_add,BitVec.toNat_mul,BitVec.toNat_udiv,BitVec.toNat_umod]
  rw [Nat.mod_add_mod,hle,Nat.mod_eq_of_lt hlt]

/-- One stored digit turns the quotient back into the number. -/
theorem calLoop_tabAt (uval : Word) (buf : Bytes) :
    calLoop base (tabAt (uval%base)::buf) (uval/base) = calLoop base buf uval := by
  obtain ⟨hd,-,-⟩ := tabAt_spec hlow hhigh uval
  have heq : BitVec.ofNat 32 (uval%base).toNat = uval%base := by
    rw [BitVec.ofNat_toNat,BitVec.setWidth_eq]
  rw [calLoop_digit hd,heq,div_mul_add_mod]

omit hlow hhigh in
/-- What the loop has stored for `uval` on top of `buf`. -/
structure Stored (base uval : Word) (buf out : Bytes) : Prop where
  value : calLoop base out 0 = calLoop base buf uval
  lead : ∃ ch rest, out = ch::rest ∧ Plain ch ∧ (ch = 48 → uval = 0 ∧ rest = buf)
  noNul : 0 ∉ buf → 0 ∉ out

theorem noNul_push {uval : Word} {buf : Bytes} (h : 0 ∉ buf) : 0 ∉ tabAt (uval%base)::buf := by
  obtain ⟨-,-,hplain⟩ := tabAt_spec hlow hhigh uval
  intro hmem
  rcases List.mem_cons.mp hmem with heq | hmem
  · exact hplain.ne_nul heq.symm
  · exact h hmem

/-- The most significant digit is a zero only in the number zero. -/
theorem Stored.last {uval : Word} (buf : Bytes) (hq : uval/base = 0) :
    Stored base uval buf (tabAt (uval%base)::buf) := by
  obtain ⟨-,hzero,hplain⟩ := tabAt_spec hlow hhigh uval
  have hvalue := calLoop_tabAt hlow hhigh uval buf
  rw [hq] at hvalue
  refine ⟨hvalue,⟨_,buf,rfl,hplain,?_⟩,noNul_push hlow hhigh⟩
  intro h48
  have hu := div_mul_add_mod base uval
  rw [hq,hzero h48] at hu
  exact ⟨by simpa using hu.symm,rfl⟩

theorem Stored.next {uval : Word} {buf out : Bytes} (hq : uval/base ≠ 0)
    (h : Stored base (uval/base) (tabAt (uval%base)::buf) out) : Stored base uval buf out := by
  obtain ⟨ch,rest,hout,hplain,h48⟩ := h.lead
  refine ⟨h.value.trans (calLoop_tabAt hlow hhigh uval buf),⟨ch,rest,hout,hplain,?_⟩,?_⟩
  · intro hch
    exact absurd (h48 hch).1 hq
  · intro hbuf
    exact h.noNul (noNul_push hlow hhigh hbuf)

/-- `k+1` digits suffice below `base^(k+1)`. -/
theorem pushDigits_spec (k room : ℕ) {uval : Word} (buf : Bytes)
    (hu : uval.toNat < base.toNat^(k+1)) (hk : k < room) :
    ∃ room' out, pushDigits base room uval buf = .ok (room',out) ∧ room ≤ room'+(k+1) ∧
      out.length+room' = buf.length+room ∧ Stored base uval buf out := by
  induction k generalizing room uval buf with
  | zero =>
    obtain ⟨r,rfl⟩ : ∃ r, room = r+1 := ⟨room-1,by omega⟩
    have hq : uval/base = 0 := by
      apply BitVec.eq_of_toNat_eq
      rw [BitVec.toNat_udiv,Nat.div_eq_of_lt (by simpa using hu)]
      rfl
    exact ⟨r,_,by rw [pushDigits,if_pos hq],le_rfl,by simp only [List.length_cons]; omega,
      Stored.last hlow hhigh buf hq⟩
  | succ k ih =>
    obtain ⟨r,rfl⟩ : ∃ r, room = r+1 := ⟨room-1,by omega⟩
    by_cases hq : uval/base = 0
    · exact ⟨r,_,by rw [pushDigits,if_pos hq],by omega,by simp only [List.length_cons]; omega,
        Stored.last hlow hhigh buf hq⟩
    · have hlt : (uval/base).toNat < base.toNat^(k+1) := by
        rw [BitVec.toNat_udiv]
        exact Nat.div_lt_of_lt_mul (by rwa [pow_succ'] at hu)
      obtain ⟨room',out,hrun,hroom,hlen,hout⟩ :=
        ih r (tabAt (uval%base)::buf) hlt (by omega)
      refine ⟨room',out,by rw [pushDigits,if_neg hq,hrun],by omega,?_,hout.next hlow hhigh hq⟩
      rw [List.length_cons] at hlen
      omega

end RoundTrip

theorem copyOut_eq {buf : Bytes} (h : 0 ∉ buf) : copyOut buf = buf++[0] := by
  induction buf with
  | nil => rfl
  | cons c buf ih =>
    have hc : c ≠ 0 := by
      rintro rfl
      exact h List.mem_cons_self
    rw [copyOut,if_neg hc,ih (fun hmem => h (List.mem_cons_of_mem _ hmem)),List.cons_append]

/-- A base `int2str` and `str2int` accept. -/
def ValidBase (base : Word) : Prop :=
  2 ≤ base.toNat ∧ base.toNat ≤ 36

theorem ValidBase.toInt {base : Word} (h : ValidBase base) : base.toInt = base.toNat := by
  obtain ⟨-,hhigh⟩ := h
  exact BitVec.toInt_eq_toNat_of_lt (by omega)

theorem ValidBase.ne_zero {base : Word} (h : ValidBase base) : base ≠ 0 := by
  rintro rfl
  exact absurd h.1 (by decide)

/-- With a base given, a prefix is only passed over. -/
theorem str2int_base {base : Word} (hb : ValidBase base) (str : Bytes) :
    str2int str base =
      (let signed := readSign (str.dropWhile isspace)
      let rv := calLoop base (guess signed.2).2 0
      if signed.1 = 45 then -rv else rv) := by
  have hrange : ¬((base.toInt < 2 ∧ base ≠ 0) ∨ 36 < base.toInt) := by
    rw [hb.toInt]
    obtain ⟨hlow,hhigh⟩ := hb
    omega
  simp only [str2int,if_neg hrange,if_neg hb.ne_zero]

/-- What `int2str` stored has no prefix that matters. -/
theorem calLoop_guess {base uval : Word} {out : Bytes} (h : Stored base uval [] out) :
    calLoop base (guess out).2 0 = uval := by
  obtain ⟨ch,rest,rfl,-,h48⟩ := h.lead
  have hvalue : calLoop base (ch::rest) 0 = uval := h.value
  by_cases hch : ch = 48
  · obtain ⟨rfl,rfl⟩ := h48 hch
    subst hch
    rfl
  · rw [guess,if_neg (by simpa using hch)]
    exact hvalue

theorem str2int_plain {base uval : Word} {out : Bytes} (hb : ValidBase base)
    (h : Stored base uval [] out) : str2int out base = uval := by
  obtain ⟨ch,rest,hout,hplain,-⟩ := h.lead
  have hskip : out.dropWhile isspace = out := by
    rw [hout,List.dropWhile_cons_of_neg (by simp [hplain.not_space])]
  have hsign : readSign out = (43,out) := by
    rw [readSign,if_neg (by simp [hout,hplain.ne_plus,hplain.ne_minus])]
  rw [str2int_base hb,hskip,hsign]
  exact calLoop_guess h

theorem str2int_minus {base uval : Word} {out : Bytes} (hb : ValidBase base)
    (h : Stored base uval [] out) : str2int (45::out) base = -uval := by
  have hskip : (45::out).dropWhile isspace = 45::out :=
    List.dropWhile_cons_of_neg (by decide)
  rw [str2int_base hb,hskip]
  exact congrArg Neg.neg (calLoop_guess h)

/-- The text `int2str` writes, at most 33 bytes with its terminator, is read back by
`str2int` as the number written. -/
theorem str2int_int2str (x base : Word) (hb : ValidBase base) :
    ∃ text, int2str x base = .ok (text++[0]) ∧ 0 ∉ text ∧ (text++[0]).length ≤ 33 ∧
      str2int text base = x := by
  obtain ⟨hlow,hhigh⟩ := hb
  have hrange : ¬(base.toInt < 2 ∨ 36 < base.toInt) := by
    rw [ValidBase.toInt ⟨hlow,hhigh⟩]
    omega
  have hlt : ∀ u : Word, u.toNat < 2^32 := fun u => u.isLt
  by_cases hneg : x.toInt < 0 ∧ base = 10
  · -- at most ten decimal digits and the sign
    obtain ⟨hx,rfl⟩ := hneg
    obtain ⟨room,out,hrun,hroom,hlen,hout⟩ := pushDigits_spec hlow hhigh 9 33 []
      (show (-x).toNat < (10 : Word).toNat^10 from (hlt (-x)).trans (by decide)) (by omega)
    obtain ⟨r,rfl⟩ : ∃ r, room = r+1 := ⟨room-1,by omega⟩
    have hnul : 0 ∉ 45::out := by
      intro hmem
      rcases List.mem_cons.mp hmem with heq | hmem
      · cases heq
      · exact hout.noNul (by simp) hmem
    refine ⟨45::out,?_,hnul,?_,?_⟩
    · simp only [int2str,if_neg hrange,hx,and_self,if_true,hrun,ok_bind,pushSign,copyOut_eq hnul]
    · simp only [List.length_append,List.length_cons,List.length_nil] at hlen ⊢
      omega
    · rw [str2int_minus ⟨hlow,hhigh⟩ hout,neg_neg]
  · have hpow : x.toNat < base.toNat^32 :=
      (hlt x).trans_le (Nat.pow_le_pow_left hlow 32)
    obtain ⟨room,out,hrun,hroom,hlen,hout⟩ := pushDigits_spec hlow hhigh 31 33 [] hpow
      (by omega)
    have hnul : 0 ∉ out := hout.noNul (by simp)
    refine ⟨out,?_,hnul,?_,str2int_plain ⟨hlow,hhigh⟩ hout⟩
    · simp only [int2str,if_neg hrange,if_neg hneg,hrun,ok_bind,copyOut_eq hnul]
    · simp only [List.length_append,List.length_cons,List.length_nil] at hlen ⊢
      omega

/-- The smallest `int` in base 10. -/
theorem str2int_int2str_min :
    ∃ text, int2str 0x80000000 10 = .ok (text++[0]) ∧ 0 ∉ text ∧ (text++[0]).length ≤ 33 ∧
      str2int text 10 = 0x80000000 :=
  str2int_int2str 0x80000000 10 ⟨by decide,by decide⟩

end GasInt
end RecycleBin
