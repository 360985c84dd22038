import RecycleBin.GasInt
import RecycleBin.Halting

/-!
# `str2int` in assembly

The blocks of `gas_str2int.s` as steps on the registers, and the comparison with
`str2int.c`.
-/

namespace RecycleBin
namespace GasAsm

open AntHash AntVisited CString GasInt Halting

/-! ## The program -/

/-- The labels, each for the code up to the next one. -/
inductive Label
  | str2int | init_base | skip_space | skip_space_next | sign | guess_hex | guess_hex_2
  | guess_hex_16 | check_base | cal | cal_10 | cal_next | exit
  deriving DecidableEq

/-- The registers in use; `rdi` is the text it points to, `SIGN` the stack slot. -/
structure Regs where
  rdi : Bytes
  esi : Word
  eax : Word
  r8b : UInt8
  r9d : Word
  SIGN : Word

/-- `movb (%rdi), …` -/
def Regs.byte (r : Regs) : UInt8 := r.rdi.headD 0

/-- `incq %rdi` -/
def Regs.inc (r : Regs) : Regs := { r with rdi := r.rdi.tail }

/-- A byte in the low part of a cleared register. -/
def low (b : UInt8) : Word := b.toBitVec.setWidth 32

/-- `%r9b` -/
def Regs.r9b (r : Regs) : UInt8 := ⟨r.r9d.setWidth 8⟩

/-- A byte as the signed jumps compare it. -/
def signed (b : UInt8) : ℤ := b.toInt8.toInt

/-- One block: where control goes with which registers, or the value returned. -/
def block : Label × Regs → (Label × Regs) ⊕ Word
  | (.str2int,r) =>
    let r := { r with SIGN := 1, eax := 0 }
    if r.esi = 0 then .inl (.init_base,r)
    else if r.esi.toInt < 2 then .inl (.exit,r)
    else if 36 < r.esi.toInt then .inl (.exit,r)
    else .inl (.skip_space,r)
  | (.init_base,r) => .inl (.skip_space,{ r with r9d := 10 })
  | (.skip_space,r) =>
    let r := { r with r8b := r.byte }
    if r.r8b = 0 then .inl (.exit,r)
    else if r.r8b = 32 then .inl (.skip_space_next,r)
    else if r.r8b = 13 then .inl (.skip_space_next,r)
    else if r.r8b = 10 then .inl (.skip_space_next,r)
    else if r.r8b = 9 then .inl (.skip_space_next,r)
    else .inl (.sign,r)
  | (.skip_space_next,r) => .inl (.skip_space,r.inc)
  | (.sign,r) =>
    if r.r8b ≠ 45 then .inl (.guess_hex,r)
    else .inl (.guess_hex,{ r.inc with SIGN := -1 })
  | (.guess_hex,r) =>
    if r.r8b ≠ 48 then .inl (.check_base,r)
    else
      let r := { r.inc with r9d := 8 }
      let r := { r with r8b := r.byte }
      if r.r8b = 0 then .inl (.exit,r)
      else if r.r8b = 98 then .inl (.guess_hex_2,r)
      else if r.r8b = 66 then .inl (.guess_hex_2,r)
      else if r.r8b = 120 then .inl (.guess_hex_16,r)
      else if r.r8b = 88 then .inl (.guess_hex_16,r)
      else .inl (.check_base,r)
  | (.guess_hex_2,r) => .inl (.check_base,{ r.inc with r9d := 2 })
  | (.guess_hex_16,r) => .inl (.check_base,{ r.inc with r9d := 16 })
  | (.check_base,r) =>
    if r.esi ≠ 0 then .inl (.cal,r) else .inl (.cal,{ r with esi := r.r9d })
  | (.cal,r) =>
    let r := { r with r9d := low r.byte }
    if r.r9b = 0 then .inl (.exit,r)
    else
      let r := { r with r9d := low (r.r9b ||| 0x20) }
      if signed r.r9b < 97 then .inl (.cal_10,r)
      else if 122 < signed r.r9b then .inl (.exit,r)
      else .inl (.cal_next,{ r with r9d := low (r.r9b-97+10) })
  | (.cal_10,r) =>
    if signed r.r9b < 48 then .inl (.exit,r)
    else if 57 < signed r.r9b then .inl (.exit,r)
    else .inl (.cal_next,{ r with r9d := low (r.r9b-48) })
  | (.cal_next,r) => .inl (.cal,{ r.inc with eax := r.eax*r.esi+r.r9d })
  | (.exit,r) => .inr (r.eax*r.SIGN)

/-- The call `str2int(str, base)`; the other registers hold what the caller left. -/
def entry (str : Bytes) (base eax : Word) (r8b : UInt8) (r9d SIGN : Word) : Label × Regs :=
  (.str2int,⟨str,base,eax,r8b,r9d,SIGN⟩)

/-! ## The loop over the digits -/

@[simp] theorem setWidth_low (b : UInt8) : (⟨(low b).setWidth 8⟩ : UInt8) = b := by
  apply UInt8.eq_of_toBitVec_eq
  simp [low]

theorem signed_or (ch : UInt8) : signed (ch ||| 0x20) = fold ch := rfl

theorem low_letter : ∀ ch : UInt8,97 ≤ fold ch → fold ch ≤ 122 →
    low ((ch ||| 0x20)-97+10) = BitVec.ofNat 32 ((fold ch).toNat-87) :=
  forall_byte (by decide +kernel)

theorem low_decimal : ∀ ch : UInt8,48 ≤ fold ch → fold ch ≤ 57 →
    low ((ch ||| 0x20)-48) = BitVec.ofNat 32 ((fold ch).toNat-48) :=
  forall_byte (by decide +kernel)

section Cal
variable {ch : UInt8} {v : Word} (r8b : UInt8) (str : Bytes) (esi eax r9d SIGN : Word)

theorem block_cal (hnul : ch ≠ 0) :
    block (.cal,⟨ch::str,esi,eax,r8b,r9d,SIGN⟩) =
      if fold ch < 97 then .inl (.cal_10,⟨ch::str,esi,eax,r8b,low (ch ||| 0x20),SIGN⟩)
      else if 122 < fold ch then .inl (.exit,⟨ch::str,esi,eax,r8b,low (ch ||| 0x20),SIGN⟩)
      else .inl (.cal_next,⟨ch::str,esi,eax,r8b,low ((ch ||| 0x20)-97+10),SIGN⟩) := by
  simp only [block,Regs.byte,Regs.r9b,List.headD_cons,setWidth_low,hnul,if_false,signed_or]

theorem block_cal_10 (ch : UInt8) :
    block (.cal_10,⟨ch::str,esi,eax,r8b,low (ch ||| 0x20),SIGN⟩) =
      if fold ch < 48 then .inl (.exit,⟨ch::str,esi,eax,r8b,low (ch ||| 0x20),SIGN⟩)
      else if 57 < fold ch then .inl (.exit,⟨ch::str,esi,eax,r8b,low (ch ||| 0x20),SIGN⟩)
      else .inl (.cal_next,⟨ch::str,esi,eax,r8b,low ((ch ||| 0x20)-48),SIGN⟩) := by
  simp only [block,Regs.r9b,setWidth_low,signed_or]

/-- A byte that is no digit ends the loop. -/
theorem cal_stop (h : digit ch = none) :
    Returns block (.cal,⟨ch::str,esi,eax,r8b,r9d,SIGN⟩) (eax*SIGN) := by
  unfold digit at h
  simp only at h
  split_ifs at h with hletter hdecimal
  by_cases hnul : ch = 0
  · refine Returns.next (t := (.exit,⟨ch::str,esi,eax,r8b,low ch,SIGN⟩)) ?_ (Returns.ret rfl)
    simp [block,Regs.byte,Regs.r9b,hnul]
  · have hblock := block_cal r8b str esi eax r9d SIGN hnul
    split_ifs at hblock with hlow hhigh
    · refine Returns.next hblock ?_
      have hten := block_cal_10 r8b str esi eax SIGN ch
      split_ifs at hten with hlow' hhigh'
      · exact Returns.next hten (Returns.ret rfl)
      · exact Returns.next hten (Returns.ret rfl)
      · omega
    · exact Returns.next hblock (Returns.ret rfl)
    · omega

/-- A digit goes into `%eax`. -/
theorem cal_digit {d : ℕ} (h : digit ch = some d)
    (hv : ∀ r9d,Returns block (.cal,⟨str,esi,eax*esi+BitVec.ofNat 32 d,r8b,r9d,SIGN⟩) v) :
    Returns block (.cal,⟨ch::str,esi,eax,r8b,r9d,SIGN⟩) v := by
  have hnul : ch ≠ 0 := by
    rintro rfl
    cases h
  have hnext : Returns block (.cal_next,⟨ch::str,esi,eax,r8b,BitVec.ofNat 32 d,SIGN⟩) v :=
    Returns.next rfl (hv _)
  unfold digit at h
  simp only at h
  split_ifs at h with hletter hdecimal
  · cases h
    rw [← low_letter ch hletter.1 hletter.2] at hnext
    refine Returns.next ?_ hnext
    rw [block_cal r8b str esi eax r9d SIGN hnul,if_neg (not_lt.mpr hletter.1),
      if_neg (not_lt.mpr hletter.2)]
  · cases h
    rw [← low_decimal ch hdecimal.1 hdecimal.2] at hnext
    refine Returns.next (t := (.cal_10,⟨ch::str,esi,eax,r8b,low (ch ||| 0x20),SIGN⟩)) ?_
      (Returns.next ?_ hnext)
    · rw [block_cal r8b str esi eax r9d SIGN hnul,if_pos (by omega)]
    · rw [block_cal_10,if_neg (not_lt.mpr hdecimal.1),if_neg (not_lt.mpr hdecimal.2)]

end Cal

theorem cal_returns (str : Bytes) (esi eax : Word) (r8b : UInt8) (r9d SIGN : Word) :
    Returns block (.cal,⟨str,esi,eax,r8b,r9d,SIGN⟩) (calLoop esi str eax*SIGN) := by
  induction str generalizing eax r9d with
  | nil => exact Returns.next (by simp [block,Regs.byte,Regs.r9b]; rfl) (Returns.ret rfl)
  | cons ch str ih =>
    cases hd : digit ch with
    | none =>
      rw [calLoop_stop hd]
      exact cal_stop r8b str esi eax r9d SIGN hd
    | some d =>
      rw [calLoop_digit hd]
      exact cal_digit r8b str esi eax r9d SIGN hd (fun r9d => ih _ r9d)

/-! ## The other blocks -/

/-- The base in use: the one given, or the one found for base 0. -/
def pick (base found : Word) : Word := if base = 0 then found else base

theorem check_base_returns (str : Bytes) (esi : Word) (r8b : UInt8) (r9d SIGN : Word) :
    Returns block (.check_base,⟨str,esi,0,r8b,r9d,SIGN⟩) (calLoop (pick esi r9d) str 0*SIGN) := by
  have hcal := cal_returns str (pick esi r9d) 0 r8b r9d SIGN
  refine Returns.next ?_ hcal
  by_cases hesi : esi = 0
  · rw [pick,if_pos hesi]
    exact if_neg (not_not.mpr hesi)
  · rw [pick,if_neg hesi]
    exact if_pos hesi

/-- Without a zero at `%r8b` no prefix is looked for. -/
theorem guess_hex_other {r8b : UInt8} (h : r8b ≠ 48) (str : Bytes) (esi r9d SIGN : Word) :
    Returns block (.guess_hex,⟨str,esi,0,r8b,r9d,SIGN⟩) (calLoop (pick esi r9d) str 0*SIGN) :=
  Returns.next (by simp [block,h]) (check_base_returns str esi r8b r9d SIGN)

/-- Behind a zero the assembly takes the prefixes of `str2int.c`. -/
theorem guess_hex_zero (u : Bytes) (esi r9d SIGN : Word) :
    Returns block (.guess_hex,⟨48::u,esi,0,48,r9d,SIGN⟩)
      (calLoop (pick esi (guess (48::u)).1) (guess (48::u)).2 0*SIGN) := by
  rcases u with _ | ⟨c,t⟩
  · exact Returns.next (by simp [block,Regs.inc,Regs.byte]; rfl) (Returns.ret rfl)
  by_cases hnul : c = 0
  · subst hnul
    refine Returns.next (t := (.exit,⟨0::t,esi,0,0,8,SIGN⟩)) (by simp [block,Regs.inc,Regs.byte])
      (Returns.ret ?_)
    have hstop : digit 0 = none := rfl
    simp only [block,guess]
    simp [calLoop_stop hstop]
  by_cases hbin : c = 98 ∨ c = 66
  · have hguess : guess (48::c::t) = (2,t) := by
      rcases hbin with rfl | rfl <;> simp [guess]
    rw [hguess]
    refine Returns.next (t := (.guess_hex_2,⟨c::t,esi,0,c,8,SIGN⟩)) ?_
      (Returns.next rfl (check_base_returns t esi c 2 SIGN))
    rcases hbin with rfl | rfl <;> simp [block,Regs.inc,Regs.byte]
  by_cases hhex : c = 120 ∨ c = 88
  · have hguess : guess (48::c::t) = (16,t) := by
      rcases hhex with rfl | rfl <;> simp [guess]
    rw [hguess]
    refine Returns.next (t := (.guess_hex_16,⟨c::t,esi,0,c,8,SIGN⟩)) ?_
      (Returns.next rfl (check_base_returns t esi c 16 SIGN))
    rcases hhex with rfl | rfl <;> simp [block,Regs.inc,Regs.byte]
  · have hguess : guess (48::c::t) = (8,c::t) := by
      simp [guess,hbin,hhex]
    rw [hguess]
    refine Returns.next (t := (.check_base,⟨c::t,esi,0,c,8,SIGN⟩)) ?_
      (check_base_returns (c::t) esi c 8 SIGN)
    push Not at hbin hhex
    simp [block,Regs.inc,Regs.byte,hnul,hbin,hhex]

/-- The blanks the assembly skips. -/
def blank (b : UInt8) : Bool :=
  b = 32 ∨ b = 13 ∨ b = 10 ∨ b = 9

/-- What the assembly makes of a text without blanks in front. -/
def readNumber (s : Bytes) (base : Word) : Word :=
  if s.head? = some 45 then -calLoop (pick base 10) s.tail 0
  else if s.head? = some 48 then calLoop (pick base (guess s).1) (guess s).2 0
  else calLoop (pick base 10) s 0

theorem sign_returns {c : UInt8} (t : Bytes) {base r9d : Word} (h9 : base = 0 → r9d = 10) :
    Returns block (.sign,⟨c::t,base,0,c,r9d,1⟩) (readNumber (c::t) base) := by
  have hpick : pick base r9d = pick base 10 := by
    unfold pick
    split_ifs with hb
    · exact h9 hb
    · rfl
  by_cases hminus : c = 45
  · subst hminus
    have hg := guess_hex_other (by decide : (45 : UInt8) ≠ 48) t base r9d (-1)
    rw [hpick,mul_neg_one] at hg
    exact Returns.next rfl hg
  by_cases hzero : c = 48
  · subst hzero
    have hg := guess_hex_zero t base r9d 1
    rw [mul_one] at hg
    exact Returns.next rfl hg
  · have hg := guess_hex_other hzero (c::t) base r9d 1
    rw [hpick,mul_one] at hg
    have hread : readNumber (c::t) base = calLoop (pick base 10) (c::t) 0 := by
      simp [readNumber,hminus,hzero]
    rw [hread]
    exact Returns.next (by simp [block,hminus]) hg

theorem skip_space_returns (str : Bytes) {base r9d : Word} (r8b : UInt8)
    (h9 : base = 0 → r9d = 10) :
    Returns block (.skip_space,⟨str,base,0,r8b,r9d,1⟩) (readNumber (str.dropWhile blank) base) := by
  induction str generalizing r8b with
  | nil => exact Returns.next (by simp [block,Regs.byte]; rfl) (Returns.ret (by simp [block,readNumber]))
  | cons c t ih =>
    by_cases hblank : blank c = true
    · have hnext : Returns block (.skip_space_next,⟨c::t,base,0,c,r9d,1⟩)
          (readNumber (t.dropWhile blank) base) := Returns.next rfl (ih c)
      rw [List.dropWhile_cons_of_pos hblank]
      refine Returns.next ?_ hnext
      simp only [blank,decide_eq_true_eq] at hblank
      rcases hblank with rfl | rfl | rfl | rfl <;> simp [block,Regs.byte]
    · rw [List.dropWhile_cons_of_neg hblank]
      simp only [blank,decide_eq_true_eq] at hblank
      push Not at hblank
      by_cases hnul : c = 0
      · subst hnul
        refine Returns.next (t := (.exit,⟨0::t,base,0,0,r9d,1⟩)) (by simp [block,Regs.byte])
          (Returns.ret ?_)
        have hstop : digit 0 = none := rfl
        simp [block,readNumber,calLoop_stop hstop]
      · exact Returns.next (by simp [block,Regs.byte,hnul,hblank]) (sign_returns t h9)

/-- The bases of the comparison: 0 to guess, or one from 2 to 36. -/
def AnyBase (base : Word) : Prop :=
  base = 0 ∨ ValidBase base

/-- From any registers the assembly returns, with the number behind its blanks. -/
theorem entry_returns (str : Bytes) {base : Word} (hb : AnyBase base) (eax : Word) (r8b : UInt8)
    (r9d SIGN : Word) :
    Returns block (entry str base eax r8b r9d SIGN) (readNumber (str.dropWhile blank) base) := by
  rcases hb with rfl | hb
  · exact Returns.next rfl (Returns.next rfl (skip_space_returns str r8b (fun _ => rfl)))
  · have h9 : base = 0 → r9d = 10 := fun h => absurd h hb.ne_zero
    have hskip := skip_space_returns str r8b h9
    refine Returns.next ?_ hskip
    have hint := hb.toInt
    obtain ⟨hlow,hhigh⟩ := hb
    simp only [entry,block]
    rw [if_neg (ValidBase.ne_zero ⟨hlow,hhigh⟩),if_neg (by omega),if_neg (by omega)]

/-! ## Numerals -/

/-- The digits a text starts with. -/
def digits : Bytes → List ℕ
  | [] => []
  | ch::s =>
    match digit ch with
    | some d => d::digits s
    | none => []

/-- The value of digits behind the value `v`; no digit is compared with the base. -/
def numeralFrom (base v : ℕ) (ds : List ℕ) : ℕ :=
  ds.foldl (fun v d => v*base+d) v

def numeral (base : ℕ) (ds : List ℕ) : ℕ :=
  numeralFrom base 0 ds

theorem numeralFrom_eq (base v : ℕ) (ds : List ℕ) :
    numeralFrom base v ds = v*base^ds.length+numeral base ds := by
  induction ds generalizing v with
  | nil => simp [numeralFrom,numeral]
  | cons d ds ih =>
    have hv : numeralFrom base v (d::ds) = numeralFrom base (v*base+d) ds := rfl
    have h0 : numeral base (d::ds) = numeralFrom base (0*base+d) ds := rfl
    rw [hv,h0,ih,ih (0*base+d),List.length_cons,pow_succ]
    ring

/-- The loop computes the numeral modulo `2^32`. -/
theorem calLoop_ofNat (base : Word) (s : Bytes) (v : ℕ) :
    calLoop base s (BitVec.ofNat 32 v) = BitVec.ofNat 32 (numeralFrom base.toNat v (digits s)) := by
  induction s generalizing v with
  | nil => rfl
  | cons ch s ih =>
    cases hd : digit ch with
    | none => rw [calLoop_stop hd,digits,hd]; rfl
    | some d =>
      have hstep : BitVec.ofNat 32 v*base+BitVec.ofNat 32 d = BitVec.ofNat 32 (v*base.toNat+d) := by
        apply BitVec.eq_of_toNat_eq
        simp [BitVec.toNat_add,BitVec.toNat_mul,Nat.add_mod,Nat.mul_mod]
      rw [calLoop_digit hd,hstep,ih,digits,hd]
      rfl

theorem calLoop_numeral (base : Word) (s : Bytes) :
    calLoop base s 0 = BitVec.ofNat 32 (numeral base.toNat (digits s)) :=
  calLoop_ofNat base s 0

theorem ofNat_eq_iff {m n : ℕ} :
    (BitVec.ofNat 32 m = BitVec.ofNat 32 n) ↔ m ≡ n [MOD 2^32] := by
  constructor
  · intro h
    have hn := congrArg BitVec.toNat h
    rw [BitVec.toNat_ofNat,BitVec.toNat_ofNat] at hn
    exact hn
  · intro h
    apply BitVec.eq_of_toNat_eq
    rw [BitVec.toNat_ofNat,BitVec.toNat_ofNat]
    exact h

/-! ## The comparison -/

/-- The number `str2int.c` reads, without its sign. -/
def magnitude (s : Bytes) (base : Word) : ℕ :=
  let guessed := guess (readSign (s.dropWhile isspace)).2
  numeral (pick base (if guessed.1 = -1 then 10 else guessed.1)).toNat (digits guessed.2)

theorem str2int_magnitude (s : Bytes) {base : Word} (hb : AnyBase base) :
    str2int s base =
      if (readSign (s.dropWhile isspace)).1 = 45 then -BitVec.ofNat 32 (magnitude s base)
      else BitVec.ofNat 32 (magnitude s base) := by
  have hrange : ¬((base.toInt < 2 ∧ base ≠ 0) ∨ 36 < base.toInt) := by
    rcases hb with rfl | hb
    · decide
    · rw [hb.toInt]
      obtain ⟨hlow,hhigh⟩ := hb
      omega
  simp only [str2int,if_neg hrange,magnitude,← calLoop_numeral]
  rfl

theorem dropWhile_blank (str : Bytes) :
    (str.dropWhile blank).dropWhile isspace = str.dropWhile isspace := by
  induction str with
  | nil => rfl
  | cons c t ih =>
    by_cases hblank : blank c = true
    · have hspace : isspace c = true := by
        simp only [blank,decide_eq_true_eq] at hblank
        rcases hblank with rfl | rfl | rfl | rfl <;> rfl
      rw [List.dropWhile_cons_of_pos hblank,List.dropWhile_cons_of_pos hspace,ih]
    · rw [List.dropWhile_cons_of_neg hblank]

/-- Where the assembly and the C program return the same, behind the blanks both skip. A `+`, a vertical tab or a form feed is refused by the assembly: it returns 0. Behind `-0` it
looks for no prefix: it goes on in base 10, and takes `x` for the digit 33 and `b` for 11. -/
def Agree (s : Bytes) (base : Word) : Prop :=
  if s.head? = some 43 ∨ s.head? = some 11 ∨ s.head? = some 12 then 2^32 ∣ magnitude s base
  else if s.head? = some 45 ∧ s.tail.head? = some 48 then
    let u := s.tail.tail
    if u.head? = some 120 ∨ u.head? = some 88 then
      if base = 0 then numeral 10 (digits u) ≡ numeral 16 (digits u.tail) [MOD 2^32]
      else 2^32 ∣ base.toNat^(digits u.tail).length
    else if u.head? = some 98 ∨ u.head? = some 66 then
      if base = 0 then numeral 10 (digits u) ≡ numeral 2 (digits u.tail) [MOD 2^32]
      else 2^32 ∣ base.toNat^(digits u.tail).length
    else base = 0 → numeral 10 (digits u) ≡ numeral 8 (digits u) [MOD 2^32]
  else True

/-- An odd leading digit that one program reads and the other passes over. -/
theorem lead_iff {base d : ℕ} (hd : Nat.Coprime 2 d) (ds : List ℕ) :
    numeral base (d::ds) ≡ numeral base ds [MOD 2^32] ↔ 2^32 ∣ base^ds.length := by
  have hlead : numeral base (d::ds) = d*base^ds.length+numeral base ds := by
    have h0 : numeral base (d::ds) = numeralFrom base (0*base+d) ds := rfl
    rw [h0,numeralFrom_eq,zero_mul,zero_add]
  have hcop : Nat.Coprime (2^32) d := Nat.Coprime.pow_left 32 hd
  rw [hlead,Nat.ModEq.comm,Nat.modEq_iff_dvd' (Nat.le_add_left _ _),Nat.add_sub_cancel]
  exact hcop.dvd_mul_left

theorem calLoop_eq_iff {base base' : Word} {s s' : Bytes} :
    calLoop base s 0 = calLoop base' s' 0 ↔
      numeral base.toNat (digits s) ≡ numeral base'.toNat (digits s') [MOD 2^32] := by
  rw [calLoop_numeral,calLoop_numeral,ofNat_eq_iff]

/-- What the assembly returns for a refused byte. -/
theorem zero_eq_iff {neg : Prop} [Decidable neg] {m : ℕ} :
    (0 : Word) = (if neg then -BitVec.ofNat 32 m else BitVec.ofNat 32 m) ↔ 2^32 ∣ m := by
  have hzero : (0 : Word) = BitVec.ofNat 32 m ↔ 2^32 ∣ m := by
    rw [← Nat.modEq_zero_iff_dvd,Nat.ModEq.comm]
    exact ofNat_eq_iff (m := 0)
  split_ifs
  · rw [← hzero,eq_comm,neg_eq_zero,eq_comm]
  · exact hzero

/-- A leading zero adds nothing. -/
theorem calLoop_zero (base : Word) (u : Bytes) : calLoop base (48::u) 0 = calLoop base u 0 := by
  have hd : digit 48 = some 0 := rfl
  rw [calLoop_digit hd]
  simp

/-- Behind `-0`: one prefix letter, of odd digit value `d` and base `found`. -/
theorem minus_prefix_iff {base found : Word} {c : UInt8} {d : ℕ} (w : Bytes) (hd : digit c = some d)
    (hodd : Nat.Coprime 2 d) :
    calLoop (pick base 10) (c::w) 0 = calLoop (pick base found) w 0 ↔
      if base = 0 then numeral 10 (digits (c::w)) ≡ numeral found.toNat (digits w) [MOD 2^32]
      else 2^32 ∣ base.toNat^(digits w).length := by
  rw [calLoop_eq_iff]
  by_cases hb : base = 0
  · rw [if_pos hb,pick,pick,if_pos hb,if_pos hb]
    rfl
  · rw [if_neg hb,pick,pick,if_neg hb,if_neg hb,← lead_iff hodd,digits,hd]

/-- Behind `-0` without a prefix letter. -/
theorem minus_octal_iff {base : Word} (u : Bytes) :
    calLoop (pick base 10) u 0 = calLoop (pick base 8) u 0 ↔
      (base = 0 → numeral 10 (digits u) ≡ numeral 8 (digits u) [MOD 2^32]) := by
  rw [calLoop_eq_iff]
  by_cases hb : base = 0
  · rw [pick,pick,if_pos hb,if_pos hb]
    exact ⟨fun h _ => h,fun h => h hb⟩
  · rw [pick,pick,if_neg hb,if_neg hb]
    exact ⟨fun _ h => absurd h hb,fun _ => rfl⟩

theorem str2int_dropWhile_blank (str : Bytes) (base : Word) :
    str2int (str.dropWhile blank) base = str2int str base := by
  simp only [str2int,dropWhile_blank]

/-- A byte that only `str2int.c` takes in front of a number. -/
theorem refused_iff {c : UInt8} (hc : c = 43 ∨ c = 11 ∨ c = 12) (t : Bytes) {base : Word}
    (hb : AnyBase base) : readNumber (c::t) base = str2int (c::t) base ↔ Agree (c::t) base := by
  have hread : readNumber (c::t) base = 0 := by
    have hstop : digit c = none := by rcases hc with rfl | rfl | rfl <;> rfl
    have h45 : c ≠ 45 := by rintro rfl; simp at hc
    have h48 : c ≠ 48 := by rintro rfl; simp at hc
    simp [readNumber,h45,h48,calLoop_stop hstop]
  have hagree : Agree (c::t) base ↔ 2^32 ∣ magnitude (c::t) base := by
    rw [Agree,if_pos (by simpa using hc)]
  rw [hread,hagree,str2int_magnitude _ hb]
  exact zero_eq_iff

/-- The C program on a text that starts with neither a blank nor a sign. -/
theorem str2int_unsigned {c : UInt8} (hspace : isspace c = false) (hplus : c ≠ 43)
    (hminus : c ≠ 45) (t : Bytes) {base : Word} (hb : AnyBase base) :
    str2int (c::t) base =
      calLoop (pick base (if (guess (c::t)).1 = -1 then 10 else (guess (c::t)).1))
        (guess (c::t)).2 0 := by
  have hskip : (c::t).dropWhile isspace = c::t := List.dropWhile_cons_of_neg (by simp [hspace])
  have hsign : readSign (c::t) = (43,c::t) := by
    rw [readSign,if_neg (by simp [hplus,hminus])]
  rw [str2int_magnitude _ hb,magnitude,hskip,hsign,← calLoop_numeral]
  rfl

theorem str2int_minus (t : Bytes) {base : Word} (hb : AnyBase base) :
    str2int (45::t) base =
      -calLoop (pick base (if (guess t).1 = -1 then 10 else (guess t).1)) (guess t).2 0 := by
  have hskip : (45::t).dropWhile isspace = 45::t := List.dropWhile_cons_of_neg (by decide)
  have hsign : readSign (45::t) = (45,t) := rfl
  rw [str2int_magnitude _ hb,magnitude,hskip,hsign,← calLoop_numeral]
  rfl

theorem guess_other {s : Bytes} (h : s.head? ≠ some 48) : guess s = (-1,s) := by
  rw [guess,if_neg h]

theorem agree_minus_zero (u : Bytes) (base : Word) : Agree (45::48::u) base ↔
    if u.head? = some 120 ∨ u.head? = some 88 then
      if base = 0 then numeral 10 (digits u) ≡ numeral 16 (digits u.tail) [MOD 2^32]
      else 2^32 ∣ base.toNat^(digits u.tail).length
    else if u.head? = some 98 ∨ u.head? = some 66 then
      if base = 0 then numeral 10 (digits u) ≡ numeral 2 (digits u.tail) [MOD 2^32]
      else 2^32 ∣ base.toNat^(digits u.tail).length
    else base = 0 → numeral 10 (digits u) ≡ numeral 8 (digits u) [MOD 2^32] := by
  rw [Agree,if_neg (by simp),if_pos (by simp)]
  rfl

theorem agree_minus_other {t : Bytes} (h : t.head? ≠ some 48) (base : Word) :
    Agree (45::t) base := by
  rw [Agree,if_neg (by simp),if_neg (fun hz => h hz.2)]
  trivial

/-- A prefix behind `-` is what the assembly misses. -/
theorem minus_iff (t : Bytes) {base : Word} (hb : AnyBase base) :
    readNumber (45::t) base = str2int (45::t) base ↔ Agree (45::t) base := by
  have hread : readNumber (45::t) base = -calLoop (pick base 10) t 0 := rfl
  rw [hread,str2int_minus t hb,neg_inj]
  by_cases hzero : t.head? = some 48
  · obtain ⟨u,rfl⟩ : ∃ u, t = 48::u := by
      rcases t with _ | ⟨c,u⟩
      · cases hzero
      · cases hzero
        exact ⟨u,rfl⟩
    rw [agree_minus_zero,calLoop_zero]
    by_cases hhex : u.head? = some 120 ∨ u.head? = some 88
    · rw [if_pos hhex]
      have hguess : guess (48::u) = (16,u.tail) := by simp [guess,hhex]
      rw [hguess]
      rcases u with _ | ⟨c,w⟩
      · simp at hhex
      · have hd : digit c = some 33 := by
          simp only [List.head?_cons,Option.some.injEq] at hhex
          rcases hhex with rfl | rfl <;> rfl
        exact minus_prefix_iff w hd (by decide)
    rw [if_neg hhex]
    by_cases hbin : u.head? = some 98 ∨ u.head? = some 66
    · rw [if_pos hbin]
      have hguess : guess (48::u) = (2,u.tail) := by simp [guess,hhex,hbin]
      rw [hguess]
      rcases u with _ | ⟨c,w⟩
      · simp at hbin
      · have hd : digit c = some 11 := by
          simp only [List.head?_cons,Option.some.injEq] at hbin
          rcases hbin with rfl | rfl <;> rfl
        exact minus_prefix_iff w hd (by decide)
    · rw [if_neg hbin]
      have hguess : guess (48::u) = (8,u) := by simp [guess,hhex,hbin]
      rw [hguess]
      exact minus_octal_iff u
  · rw [guess_other hzero]
    exact iff_of_true rfl (agree_minus_other hzero base)

/-- On every other text the two programs take the same way. -/
theorem plain_eq {c : UInt8} (hspace : isspace c = false) (hplus : c ≠ 43) (hminus : c ≠ 45)
    (t : Bytes) {base : Word} (hb : AnyBase base) :
    readNumber (c::t) base = str2int (c::t) base := by
  rw [str2int_unsigned hspace hplus hminus t hb,readNumber,if_neg (by simpa using hminus)]
  by_cases hzero : c = 48
  · subst hzero
    have hhead : (48::t).head? = some 48 := rfl
    have hne : (guess (48::t)).1 ≠ -1 := by
      rw [guess,if_pos hhead]
      split_ifs <;> simp
    rw [if_pos hhead,if_neg hne]
  · have hhead : (c::t).head? ≠ some 48 := by simpa using hzero
    rw [if_neg hhead,guess_other hhead]
    rfl

theorem readNumber_eq_iff (str : Bytes) {base : Word} (hb : AnyBase base) :
    readNumber (str.dropWhile blank) base = str2int str base ↔
      Agree (str.dropWhile blank) base := by
  rw [← str2int_dropWhile_blank str]
  cases hs : str.dropWhile blank with
  | nil =>
    have hempty : readNumber [] base = str2int [] base := by
      rw [str2int_magnitude [] hb]
      rfl
    exact iff_of_true hempty (by simp [Agree])
  | cons c t =>
    have hblank : blank c = false := by
      have h := List.head?_dropWhile_not blank str
      rw [hs] at h
      simpa using h
    by_cases hrefused : c = 43 ∨ c = 11 ∨ c = 12
    · exact refused_iff hrefused t hb
    by_cases hminus : c = 45
    · subst hminus
      exact minus_iff t hb
    have hspace : isspace c = false := by
      revert hblank hrefused
      exact forall_byte (P := fun c => blank c = false → ¬(c = 43 ∨ c = 11 ∨ c = 12) →
        isspace c = false) (by decide +kernel) c
    refine iff_of_true (plain_eq hspace (fun h => hrefused (Or.inl h)) hminus t hb) ?_
    rw [Agree,if_neg (by simpa using hrefused),if_neg (by simp [hminus])]
    trivial

/-- For every text, base and caller's registers the assembly returns what the C program
returns exactly where `Agree` says so. -/
theorem str2int_agree_iff (str : Bytes) (base : Word) (hb : AnyBase base) (eax : Word)
    (r8b : UInt8) (r9d SIGN : Word) :
    Returns block (entry str base eax r8b r9d SIGN) (str2int str base) ↔
      Agree (str.dropWhile blank) base := by
  have hentry := entry_returns str hb eax r8b r9d SIGN
  rw [← readNumber_eq_iff str hb]
  constructor
  · intro h
    exact hentry.unique h
  · intro h
    rw [← h]
    exact hentry

/-- Blanks, a sign and octal digits behind the zero: both read 17 in base 10. -/
theorem str2int_agree_iff_017 :
    Returns block (entry (ascii " -017") 10 0 0 0 0) (str2int (ascii " -017") 10) ↔
      Agree ((ascii " -017").dropWhile blank) 10 :=
  str2int_agree_iff (ascii " -017") 10 (Or.inr ⟨by decide,by decide⟩) 0 0 0 0

/-- `+5` in base 10: the C program returns 5 and the assembly 0. -/
theorem not_agree_plus :
    ¬∀ (str : Bytes) (base : Word), AnyBase base → ∀ (eax : Word) (r8b : UInt8) (r9d SIGN : Word),
      Returns block (entry str base eax r8b r9d SIGN) (str2int str base) := by
  intro h
  have hb : AnyBase 10 := Or.inr ⟨by decide,by decide⟩
  have hret := h (ascii "+5") 10 hb 0 0 0 0
  have heq := (entry_returns (ascii "+5") hb 0 0 0 0).unique hret
  revert heq
  decide

end GasAsm
end RecycleBin
