import RecycleBin.GasInt

/-!
# Two printers of integers

`ant_itoa` of `ant_string.c` fills a buffer from its end; `int2str` of the assembler
exercises stores the digits the other way round and copies them back.
-/

namespace RecycleBin
namespace AntItoa

open AntHash AntVisited CString GasInt

/-- `"0123456789abcdef"`, with its terminator. -/
def digits : Bytes :=
  ascii "0123456789abcdef"++[0]

/-- The `do` loop: the room left in `str` below `p`, and what `str` holds from `p` on. -/
def digitLoop (base : Word) : ℕ → Word → Bytes → Except Fault (ℕ × Bytes)
  | 0,_,_ => .error .undefined
  | room+1,m,p =>
    if base = 0 then .error .undefined
    else
      match digits[(m%base).toNat]? with
      | none => .error .undefined
      | some d => if m/base = 0 then .ok (room,d::p) else digitLoop base room (m/base) (d::p)

/-- `while ((*dst++ = *p++) != '\0')`: the bytes stored to `dst`. -/
def copyText : Bytes → Except Fault Bytes
  | [] => .error .undefined
  | c::p =>
    if c = 0 then .ok [0]
    else do
      let rest ← copyText p
      .ok (c::rest)

/-- `INT_MIN`, as the code writes it. -/
def intMin : Word :=
  ((~~~(0 : Word)) >>> 1)+1

/-- The number whose digits are printed. -/
def magnitude (n base : Word) : Word :=
  if n = intMin then n
  else if n.toInt < 0 ∧ base = 10 then -n
  else n

/-- `ant_itoa`: the bytes stored to `dst`. The array `str` has 33 bytes, the last of which
is the terminator. -/
def ant_itoa (n base : Word) : Except Fault Bytes := do
  let r ← digitLoop base 32 (magnitude n base) [0]
  let p ← if n.toInt < 0 ∧ base = 10 then pushSign r else .ok r.2
  copyText p

/-- The most negative number is its own opposite. -/
theorem magnitude_eq (n base : Word) :
    magnitude n base = if n.toInt < 0 ∧ base = 10 then -n else n := by
  rw [magnitude]
  split_ifs with hmin hneg
  · rw [hmin]
    decide
  · rfl
  · rfl
  · rfl

theorem copyText_append {text : Bytes} (h : 0 ∉ text) (rest : Bytes) :
    copyText (text++0::rest) = .ok (text++[0]) := by
  induction text with
  | nil => rfl
  | cons c text ih =>
    have hc : c ≠ 0 := by
      rintro rfl
      exact h List.mem_cons_self
    rw [List.cons_append,copyText,if_neg hc,ih (fun hmem => h (List.mem_cons_of_mem _ hmem))]
    rfl

/-- Below 16 the two tables agree. -/
theorem digits_eq : ∀ i : Fin 16,digits[i.val]? = some (tabAt (BitVec.ofNat 32 i)) := by
  decide

section Loop

variable {base : Word} (hlow : 2 ≤ base.toNat) (hhigh : base.toNat ≤ 16)
include hlow hhigh

theorem digits_mod (m : Word) : digits[(m%base).toNat]? = some (tabAt (m%base)) := by
  have hlt : (m%base).toNat < 16 := by
    rw [BitVec.toNat_umod]
    exact (Nat.mod_lt _ (by omega)).trans_le hhigh
  have heq : BitVec.ofNat 32 (m%base).toNat = m%base := by
    rw [BitVec.ofNat_toNat,BitVec.setWidth_eq]
  simpa only [heq] using digits_eq ⟨(m%base).toNat,hlt⟩

/-- The digits one loop stores from the end are those the other stores from the front, in
front of what the buffers held. -/
theorem digitLoop_eq (room : ℕ) (m : Word) (buf p : Bytes) {room' : ℕ} {out : Bytes}
    (h : pushDigits base room m buf = .ok (room',out)) :
    digitLoop base room m (buf++p) = .ok (room',out++p) := by
  have hbase : base ≠ 0 := by
    rintro rfl
    exact absurd hlow (by decide)
  induction room generalizing m buf with
  | zero => cases h
  | succ room ih =>
    rw [pushDigits] at h
    rw [digitLoop,if_neg hbase,digits_mod hlow hhigh]
    simp only
    split_ifs at h ⊢ with hq
    · cases h
      rfl
    · exact ih (m/base) (tabAt (m%base)::buf) h

end Loop

/-- A byte more of room is left over. -/
theorem pushDigits_room {base : Word} (room : ℕ) (m : Word) (buf : Bytes) {room' : ℕ}
    {out : Bytes} (h : pushDigits base room m buf = .ok (room',out)) :
    pushDigits base (room+1) m buf = .ok (room'+1,out) := by
  induction room generalizing m buf with
  | zero => cases h
  | succ room ih =>
    rw [pushDigits] at h ⊢
    split_ifs at h ⊢ with hq
    · cases h
      rfl
    · exact ih (m/base) (tabAt (m%base)::buf) h

/-- The sign goes in front of the digits in both. -/
theorem print_negative {base : Word} (hlow : 2 ≤ base.toNat) (hhigh : base.toNat ≤ 16)
    {n : Word} (hneg : n.toInt < 0 ∧ base = 10) :
    ∃ text, 0 ∉ text ∧ ant_itoa n base = .ok (text++[0]) ∧ int2str n base = .ok (text++[0]) := by
  have hrange : ¬(base.toInt < 2 ∨ 36 < base.toInt) := by
    rw [ValidBase.toInt ⟨hlow,by omega⟩]
    omega
  have hpow : (-n).toNat < base.toNat^10 := by
    rw [hneg.2]
    exact (-n).isLt.trans (by decide)
  obtain ⟨room,out,hrun,hroom,-,hout⟩ :=
    pushDigits_spec hlow (by omega) 9 32 [] hpow (by omega)
  obtain ⟨r,rfl⟩ : ∃ r, room = r+1 := ⟨room-1,by omega⟩
  have hnul : 0 ∉ 45::out := by
    intro hmem
    rcases List.mem_cons.mp hmem with heq | hmem
    · cases heq
    · exact hout.noNul (by simp) hmem
  have hloop := digitLoop_eq hlow hhigh 32 (-n) [] [0] hrun
  have hpush := pushDigits_room 32 (-n) [] hrun
  refine ⟨45::out,hnul,?_,?_⟩
  · rw [List.nil_append] at hloop
    rw [ant_itoa,magnitude_eq,if_pos hneg,hloop]
    simp only [ok_bind,if_pos hneg,pushSign]
    exact copyText_append hnul []
  · simp only [int2str,if_neg hrange,if_pos hneg,hpush,ok_bind,pushSign,copyOut_eq hnul]

theorem print_unsigned {base : Word} (hlow : 2 ≤ base.toNat) (hhigh : base.toNat ≤ 16)
    {n : Word} (hneg : ¬(n.toInt < 0 ∧ base = 10)) :
    ∃ text, 0 ∉ text ∧ ant_itoa n base = .ok (text++[0]) ∧ int2str n base = .ok (text++[0]) := by
  have hrange : ¬(base.toInt < 2 ∨ 36 < base.toInt) := by
    rw [ValidBase.toInt ⟨hlow,by omega⟩]
    omega
  have hpow : n.toNat < base.toNat^32 :=
    n.isLt.trans_le (Nat.pow_le_pow_left hlow 32)
  obtain ⟨room,out,hrun,-,-,hout⟩ :=
    pushDigits_spec hlow (by omega) 31 32 [] hpow (by omega)
  have hnul : 0 ∉ out := hout.noNul (by simp)
  have hloop := digitLoop_eq hlow hhigh 32 n [] [0] hrun
  have hpush := pushDigits_room 32 n [] hrun
  refine ⟨out,hnul,?_,?_⟩
  · rw [List.nil_append] at hloop
    rw [ant_itoa,magnitude_eq,if_neg hneg,hloop]
    simp only [ok_bind,if_neg hneg]
    exact copyText_append hnul []
  · simp only [int2str,if_neg hrange,if_neg hneg,hpush,ok_bind,copyOut_eq hnul]

/-- In every base both accept, the two printers write one text. -/
theorem ant_itoa_int2str (n base : Word) (hlow : 2 ≤ base.toNat) (hhigh : base.toNat ≤ 16) :
    ∃ text, 0 ∉ text ∧ ant_itoa n base = .ok (text++[0]) ∧ int2str n base = .ok (text++[0]) := by
  by_cases hneg : n.toInt < 0 ∧ base = 10
  · exact print_negative hlow hhigh hneg
  · exact print_unsigned hlow hhigh hneg

/-- The smallest `int` in base 10. -/
theorem ant_itoa_int2str_min :
    ∃ text, 0 ∉ text ∧ ant_itoa 0x80000000 10 = .ok (text++[0]) ∧
      int2str 0x80000000 10 = .ok (text++[0]) :=
  ant_itoa_int2str 0x80000000 10 (by decide) (by decide)

example : ant_itoa 0x80000000 10 = .ok (ascii "-2147483648"++[0]) := by decide

end AntItoa
end RecycleBin
