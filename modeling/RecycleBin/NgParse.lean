import RecycleBin.GurlMachine

/-! `ParseSize` of `core/parse.go`, and which sizes it reads. A string is the list of its
bytes, and `strconv.Atoi` is the one of the calculator. -/
namespace RecycleBin
namespace NgParse
open GurlCal (Bytes Literal IntLit Sign atoi decimal isDigit wrap)

def ERROR : ℤ := -1

def MAX_SIZE_T_VALUE : ℕ := 9223372036854775807

/-- The switch of `ParseSize`: `max` and `scale`. -/
def sizeUnit (unit : UInt8) : ℕ × ℕ :=
  if unit ∈ [75,107] then (MAX_SIZE_T_VALUE/1024,1024)
  else if unit ∈ [77,109] then (MAX_SIZE_T_VALUE/(1024*1024),1024*1024)
  else (MAX_SIZE_T_VALUE,1)

/-- `ParseSize`. The length `l` is counted down for a suffix, but `Atoi` is given the line. -/
def parseSize (line : Bytes) : ℤ :=
  match line.getLast? with
  | none => ERROR
  | some unit =>
    match atoi line with
    | none => ERROR
    | some size =>
      if size > (sizeUnit unit).1 then ERROR else wrap (size*(sizeUnit unit).2)

/-! ### Sizes -/

/-- The suffixes and their factors. -/
def suffix (b : UInt8) : Option ℕ :=
  if b ∈ [75,107] then some 1024
  else if b ∈ [77,109] then some 1048576
  else none

/-- The line is decimal digits with an optional suffix, for the size `n`. -/
inductive Size : Bytes → ℕ → Prop
  | plain (a : Literal) : Size a.digits (decimal a.digits)
  | scaled (a : Literal) {b : UInt8} {scale : ℕ} (h : suffix b = some scale) :
      Size (a.digits++[b]) (decimal a.digits*scale)

/-- The size the line stands for, or `ERROR` if it stands for none up to `2^63-1`. -/
def ReadsSize (line : Bytes) : Prop :=
  (parseSize line = ERROR ↔ ¬∃ n, Size line n ∧ n ≤ MAX_SIZE_T_VALUE) ∧
    ∀ n, Size line n → n ≤ MAX_SIZE_T_VALUE → parseSize line = n

/-- Digits with a suffix, for a size up to `2^63-1`. -/
def Suffixed (line : Bytes) : Prop :=
  ∃ (a : Literal) (b : UInt8) (scale : ℕ), line = a.digits++[b] ∧ suffix b = some scale ∧
    decimal a.digits*scale ≤ MAX_SIZE_T_VALUE

/-- A sign and digits, for an `int` other than `-1`. -/
def Signed (line : Bytes) : Prop :=
  ∃ a : IntLit, a.sign ≠ .none ∧ line = a.text ∧ a.val ≠ -1

theorem Literal.last (a : Literal) : ∃ b, a.digits.getLast? = some b ∧ isDigit b = true := by
  have hb := List.getLast?_eq_some_getLast a.ne_nil
  exact ⟨_,hb,a.isDigit _ (List.mem_of_getLast? hb)⟩

theorem sizeUnit_digit {b : UInt8} (h : isDigit b = true) :
    sizeUnit b = (MAX_SIZE_T_VALUE,1) ∧ suffix b = none := by
  have hb : b ∉ ([75,107] : Bytes) ∧ b ∉ ([77,109] : Bytes) := by
    constructor <;> intro hm <;> revert h <;> fin_cases hm <;> decide
  simp [sizeUnit,suffix,hb.1,hb.2]

/-- `Atoi` reads the literals of type `int` and nothing else. -/
theorem atoi_eq_some {s : Bytes} {v : ℤ} (h : atoi s = some v) :
    ∃ a : IntLit, a.text = s ∧ a.val = v := by
  unfold atoi at h
  split at h
  rename_i neg digits hsplit
  have hsign : ∃ sign : Sign, s = sign.text++digits ∧ (neg = true ↔ sign = .minus) := by
    split at hsplit <;> cases hsplit
    · exact ⟨.minus,rfl,by simp⟩
    · exact ⟨.plus,rfl,by simp⟩
    · exact ⟨.none,rfl,by simp⟩
  obtain ⟨sign,rfl,hneg⟩ := hsign
  split_ifs at h with hd hn hle hlt
  · obtain rfl := hneg.mp hn
    refine ⟨⟨.minus,⟨digits,hd.1,List.all_eq_true.mp hd.2⟩,?_,?_⟩,rfl,Option.some.inj h⟩
    · simp only [Sign.apply]
      omega
    · simp only [Sign.apply]
      omega
  · have hs : sign.apply (decimal digits) = decimal digits := by
      cases sign with
      | minus => exact absurd (hneg.mpr rfl) hn
      | none => rfl
      | plus => rfl
    refine ⟨⟨sign,⟨digits,hd.1,List.all_eq_true.mp hd.2⟩,?_,?_⟩,rfl,hs.trans (Option.some.inj h)⟩
    · rw [hs]
      omega
    · rw [hs]
      exact_mod_cast hlt

/-- An `int` without a suffix is returned as it is. -/
theorem parseSize_text (a : IntLit) : parseSize a.text = a.val := by
  obtain ⟨b,hb,hd⟩ := Literal.last a.abs
  have hlast : a.text.getLast? = some b := by
    rw [IntLit.text,List.getLast?_append,hb]
    rfl
  have hmax := a.lt_max
  have hmin := a.min_le
  rw [parseSize,hlast]
  simp only [a.atoi_text,(sizeUnit_digit hd).1]
  have hle : ¬a.val > (MAX_SIZE_T_VALUE : ℕ) := by
    simp only [IntLit.val,MAX_SIZE_T_VALUE]
    omega
  rw [if_neg hle,wrap,Int.bmod_eq_of_le]
  · simp
  · simp only [IntLit.val]
    omega
  · simp only [IntLit.val]
    omega

theorem parseSize_other {line : Bytes} (h : ¬∃ a : IntLit, a.text = line) : parseSize line = ERROR := by
  have hnone : atoi line = none := by
    by_contra hne
    obtain ⟨v,hv⟩ := Option.ne_none_iff_exists'.mp hne
    obtain ⟨a,ha,-⟩ := atoi_eq_some hv
    exact h ⟨a,ha⟩
  rw [parseSize,hnone]
  rcases line.getLast? <;> rfl

/-- Of the texts of type `int`, those without a sign are sizes. -/
theorem size_text {a : IntLit} {n : ℕ} (h : Size a.text n) :
    a.sign = .none ∧ n = decimal a.abs.digits := by
  obtain ⟨b,hb,hd⟩ := Literal.last a.abs
  generalize hline : a.text = line at h
  cases h with
  | plain d =>
    have hnone : a.sign = .none := by
      -- a sign is no digit
      have hfirst := d.isDigit
      rw [← hline,IntLit.text] at hfirst
      cases hs : a.sign with
      | none => rfl
      | plus => exact absurd (hfirst 43 (by simp [hs,Sign.text])) (by decide)
      | minus => exact absurd (hfirst 45 (by simp [hs,Sign.text])) (by decide)
    rw [IntLit.text,hnone] at hline
    exact ⟨hnone,by rw [← hline]; rfl⟩
  | scaled d h =>
    have hlast := congrArg List.getLast? hline
    rw [IntLit.text,List.getLast?_append,hb,List.getLast?_concat] at hlast
    cases Option.some.inj hlast
    rw [(sizeUnit_digit hd).2] at h
    cases h

theorem not_suffixed_text (a : IntLit) : ¬Suffixed a.text := by
  rintro ⟨d,b,scale,ht,hb,-⟩
  obtain ⟨c,hc,hd⟩ := Literal.last a.abs
  have hlast := congrArg List.getLast? ht
  rw [IntLit.text,List.getLast?_append,hc,List.getLast?_concat] at hlast
  cases Option.some.inj hlast
  rw [(sizeUnit_digit hd).2] at hb
  cases hb

theorem size_of_text {a : IntLit} (hs : a.sign = .none) :
    Size a.text (decimal a.abs.digits) ∧ a.val = decimal a.abs.digits ∧
      decimal a.abs.digits ≤ MAX_SIZE_T_VALUE := by
  have hval : a.val = decimal a.abs.digits := by rw [IntLit.val,hs]; rfl
  have hlt : a.val < 2^63 := a.lt_max
  refine ⟨?_,hval,?_⟩
  · rw [IntLit.text,hs]
    exact Size.plain a.abs
  · rw [hval] at hlt
    simp only [MAX_SIZE_T_VALUE]
    omega

theorem readsSize_text (a : IntLit) : ReadsSize a.text ↔ a.sign = .none ∨ a.val = -1 := by
  rw [ReadsSize,parseSize_text]
  by_cases hs : a.sign = .none
  · obtain ⟨hsize,hval,hmax⟩ := size_of_text hs
    refine iff_of_true ⟨iff_of_false ?_ fun hno => hno ⟨_,hsize,hmax⟩,fun n hn _ => ?_⟩ (.inl hs)
    · rw [hval,ERROR]
      omega
    · rw [hval,(size_text hn).2]
  · have hno : ¬∃ n, Size a.text n ∧ n ≤ MAX_SIZE_T_VALUE := by
      rintro ⟨n,hn,-⟩
      exact hs (size_text hn).1
    constructor
    · rintro ⟨herr,-⟩
      exact .inr (herr.mpr hno)
    · rintro (hc | hval)
      · exact absurd hc hs
      · exact ⟨iff_of_true hval hno,fun n hn => absurd (size_text hn).1 hs⟩

theorem signed_text (a : IntLit) : Signed a.text ↔ a.sign ≠ .none ∧ a.val ≠ -1 := by
  constructor
  · rintro ⟨t,hs,ht,hne⟩
    have hval : a.val = t.val := by rw [← parseSize_text,ht,parseSize_text]
    refine ⟨fun hn => hs ?_,hval ▸ hne⟩
    have hsize := (size_of_text hn).1
    rw [ht] at hsize
    exact (size_text hsize).1
  · rintro ⟨hs,hne⟩
    exact ⟨a,hs,rfl,hne⟩

theorem readsSize_other {line : Bytes} (h : ¬∃ a : IntLit, a.text = line) :
    ReadsSize line ↔ ¬Suffixed line := by
  rw [ReadsSize,parseSize_other h]
  constructor
  · rintro ⟨herr,-⟩ ⟨a,b,scale,rfl,hb,hn⟩
    exact herr.mp rfl ⟨_,Size.scaled a hb,hn⟩
  · intro hsuf
    have hno : ∀ n, Size line n → ¬n ≤ MAX_SIZE_T_VALUE := by
      intro n hn hle
      cases hn with
      | plain d =>
        refine h ⟨⟨.none,d,?_,?_⟩,rfl⟩ <;> simp only [Sign.apply,MAX_SIZE_T_VALUE] at hle ⊢ <;> omega
      | scaled d hb => exact hsuf ⟨d,_,_,rfl,hb,hle⟩
    refine ⟨iff_of_true rfl ?_,fun n hn hle => absurd hle (hno n hn)⟩
    rintro ⟨n,hn,hle⟩
    exact hno n hn hle

/-- `ParseSize` is right except on sizes with a suffix, and on signed numbers, which it
accepts; `-1` passes for `ERROR`. -/
theorem readsSize_iff (line : Bytes) : ReadsSize line ↔ ¬Suffixed line ∧ ¬Signed line := by
  by_cases htext : ∃ a : IntLit, a.text = line
  · obtain ⟨a,rfl⟩ := htext
    rw [readsSize_text,signed_text]
    have hsuf := not_suffixed_text a
    tauto
  · rw [readsSize_other htext]
    refine (and_iff_left ?_).symm
    rintro ⟨a,-,rfl,-⟩
    exact htext ⟨a,rfl⟩

/-- `1K`. -/
theorem not_readsSize : ¬ReadsSize [49,75] := by
  have hdigit : ∀ b ∈ ([49] : Bytes), isDigit b = true := List.all_eq_true.mp rfl
  rintro ⟨herr,-⟩
  refine herr.mp rfl ⟨_,Size.scaled (b:=75) ⟨[49],by simp,hdigit⟩ rfl,?_⟩
  change 1*1024 ≤ MAX_SIZE_T_VALUE
  decide

end NgParse
end RecycleBin
