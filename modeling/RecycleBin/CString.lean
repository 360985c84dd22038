import RecycleBin.AntVisited

/-! Functions of the C library on strings. A string is the list of its bytes before the
terminating NUL; what stands behind it is cut off by `cstr`. -/
namespace RecycleBin
namespace CString
open AntHash AntVisited

/-- The first position where `sub` occurs. -/
def find (sub : Bytes) : Bytes → Option ℕ
  | [] => if sub = [] then some 0 else none
  | b::s => if sub.isPrefixOf (b::s) then some 0 else (find sub s).map (·+1)

/-- `strstr` on the string at the front of `s`, as an index. -/
def strstr (s sub : Bytes) : Option ℕ := find sub (cstr s)

/-- The bytes in front of the first one without the property, or of the terminator. -/
def spanLength (P : UInt8 → Bool) : Bytes → Except Fault ℕ
  | [] => .error .undefined
  | b::s =>
    if b ≠ 0 ∧ P b then do
      let n ← spanLength P s
      .ok (n+1)
    else .ok 0

/-- `strspn(s, set)`, in an array that begins with `s`. -/
def strspn (s set : Bytes) : Except Fault ℕ := spanLength (fun b => b ∈ set) s

/-- `strcspn(s, set)` -/
def strcspn (s set : Bytes) : Except Fault ℕ := spanLength (fun b => b ∉ set) s

/-- `!strcasecmp(a, b)`. -/
def strcaseeq (a b : Bytes) : Bool := a.map tolower = b.map tolower

/-- A sign, as the conversions take it. -/
def takeSign (s : Bytes) : Bool × Bytes :=
  if s.head? = some 45 then (true,s.tail)
  else if s.head? = some 43 then (false,s.tail)
  else (false,s)

/-- `strtol(s, NULL, 10)` and `strtoll`, of 64 bits. -/
def strtol (s : Bytes) : ℤ :=
  let r := takeSign (s.dropWhile isspace)
  let v : ℕ := (r.2.takeWhile isdigit).foldl (fun v d => 10*v+(d.toNat-48)) 0
  if r.1 then max (-2^63) (-v) else min (2^63-1) v

/-- The value of a hexadecimal digit. -/
def hexDigit (b : UInt8) : Option ℕ :=
  if isdigit b then some (b.toNat-48)
  else if 97 ≤ tolower b ∧ tolower b ≤ 102 then some ((tolower b).toNat-87)
  else none

/-- The digits at the front of `s` behind the value so far. -/
def hexValue (v : ℕ) : Bytes → ℕ
  | [] => v
  | b::s =>
    match hexDigit b with
    | some d => hexValue (16*v+d) s
    | none => v

/-- A `0x` with a digit behind it is passed over. -/
def dropHexPrefix (s : Bytes) : Bytes :=
  if s.head? = some 48 ∧ (s.tail.head?.map tolower) = some 120 ∧
      (s.tail.tail.head?.bind hexDigit).isSome then s.tail.tail
  else s

/-- `strtoul(s, NULL, 16)`. -/
def strtoul16 (s : Bytes) : ℕ :=
  let r := takeSign (s.dropWhile isspace)
  let v := hexValue 0 (dropHexPrefix r.2)
  if 2^64 ≤ v then 2^64-1
  else if r.1 then (2^64-v)%2^64
  else v

/-- The conversion of an integer to `int`. -/
@[irreducible] def toInt (n : ℤ) : ℤ := Int.bmod n (2^32)

theorem toInt_of_lt {n : ℕ} (h : n < 2^31) : toInt n = n := by
  rw [toInt,Int.bmod_eq_of_le] <;> omega

/-- The conversion of an integer to `size_t`. -/
def toSize (n : ℤ) : ℕ := (n%2^64).toNat

/-- An ASCII text. -/
def ascii (s : String) : Bytes := s.toList.map fun c => UInt8.ofNat c.toNat

/-- The digits of `%d`. -/
def decimal (n : ℕ) : Bytes := (Nat.toDigits 10 n).map fun c => UInt8.ofNat c.toNat

/-- A byte is its lower-case form, or a capital letter. -/
theorem tolower_cases {b c : UInt8} (h : tolower b = c) : b = c ∨ 97 ≤ c ∧ b = c-32 := by
  rw [tolower] at h
  split_ifs at h with hb
  · have h65 : 65 ≤ b.toNat := hb.1
    have h90 : b.toNat ≤ 90 := hb.2
    have h32 : (32 : UInt8).toNat = 32 := rfl
    subst h
    refine .inr ⟨?_,(UInt8.add_sub_cancel b 32).symm⟩
    change 97 ≤ (b+32).toNat
    rw [UInt8.toNat_add,h32]
    omega
  · exact .inl h

/-! ### Searches -/

theorem find_cons {sub s : Bytes} {b : UInt8} (h : sub.isPrefixOf (b::s) = false) :
    find sub (b::s) = (find sub s).map (·+1) := by
  rw [find,h]
  rfl

/-- What is found lies in the text. -/
theorem find_le {sub : Bytes} (s : Bytes) : ∀ {n : ℕ},find sub s = some n → n+sub.length ≤ s.length := by
  induction s with
  | nil =>
    intro n h
    rw [find] at h
    split at h
    next hsub =>
      cases h
      rw [hsub]
      rfl
    next => cases h
  | cons b s ih =>
    intro n h
    cases hp : sub.isPrefixOf (b::s) with
    | true =>
      rw [find,hp] at h
      cases h
      rw [Nat.zero_add]
      exact (List.isPrefixOf_iff_prefix.mp hp).length_le
    | false =>
      rw [find_cons hp] at h
      obtain ⟨m,hm,rfl⟩ := Option.map_eq_some_iff.mp h
      have := ih hm
      rw [List.length_cons]
      omega

/-- The text that is found stands there. -/
theorem find_drop {sub : Bytes} (s : Bytes) : ∀ {n : ℕ},find sub s = some n → sub <+: s.drop n := by
  induction s with
  | nil =>
    intro n h
    rw [find] at h
    split at h
    next hsub =>
      rw [hsub]
      exact List.nil_prefix
    next => cases h
  | cons b s ih =>
    intro n h
    cases hp : sub.isPrefixOf (b::s) with
    | true =>
      rw [find,hp] at h
      cases h
      exact List.isPrefixOf_iff_prefix.mp hp
    | false =>
      rw [find_cons hp] at h
      obtain ⟨m,hm,rfl⟩ := Option.map_eq_some_iff.mp h
      exact ih hm

/-- A text that stands somewhere is found. -/
theorem find_isSome {sub : Bytes} (s : Bytes) : ∀ {n : ℕ},sub <+: s.drop n → (find sub s).isSome := by
  induction s with
  | nil =>
    intro n h
    rw [List.drop_nil] at h
    rw [find,if_pos (List.prefix_nil.mp h)]
    rfl
  | cons b s ih =>
    intro n h
    cases hp : sub.isPrefixOf (b::s) with
    | true =>
      rw [find,hp]
      rfl
    | false =>
      cases n with
      | zero =>
        rw [List.drop_zero] at h
        rw [List.isPrefixOf_iff_prefix.mpr h] at hp
        cases hp
      | succ n =>
        rw [find_cons hp,Option.isSome_map]
        exact ih h

/-- The first occurrence stays the first one when more follows. -/
theorem find_append {sub : Bytes} (r s : Bytes) : ∀ {n : ℕ},find sub s = some n →
    find sub (s++r) = some n := by
  induction s with
  | nil =>
    intro n h
    rw [find] at h
    split at h
    next hsub =>
      cases h
      rw [hsub]
      cases r <;> rfl
    next => cases h
  | cons b s ih =>
    intro n h
    cases hp : sub.isPrefixOf (b::s) with
    | true =>
      rw [find,hp] at h
      cases h
      have hp' : sub.isPrefixOf (b::s++r) = true := List.isPrefixOf_iff_prefix.mpr
        ((List.isPrefixOf_iff_prefix.mp hp).trans (List.prefix_append _ _))
      rw [List.cons_append] at hp' ⊢
      rw [find,hp']
      rfl
    | false =>
      have hle := find_le _ h
      have hp' : sub.isPrefixOf (b::(s++r)) = false := by
        by_contra hne
        have hpre := List.isPrefixOf_iff_prefix.mp (Bool.of_not_eq_false hne)
        have hpre' := List.prefix_of_prefix_length_le hpre (List.prefix_append (b::s) r)
          (Nat.le_trans (Nat.le_add_left _ _) hle)
        rw [List.isPrefixOf_iff_prefix.mpr hpre'] at hp
        cases hp
      rw [find_cons hp] at h
      obtain ⟨m,hm,rfl⟩ := Option.map_eq_some_iff.mp h
      rw [List.cons_append,find_cons hp',ih hm]
      rfl

/-- A part of the text that ends before the first occurrence does. -/
theorem find_take_none {sub s : Bytes} {n k : ℕ} (h : find sub s = some n) (hk : k < n+sub.length) :
    find sub (s.take k) = none := by
  cases hm : find sub (s.take k) with
  | none => rfl
  | some m =>
    have happ := find_append (s.drop k) _ hm
    rw [List.take_append_drop,h] at happ
    cases happ
    have hle := find_le _ hm
    rw [List.length_take] at hle
    omega

theorem cstr_append {d : Bytes} (h : 0 ∉ d) (r : Bytes) : cstr (d++r) = d++cstr r := by
  rw [cstr,List.takeWhile_append_of_pos]
  · rfl
  · intro b hb
    have : b ≠ 0 := fun h0 => h (h0 ▸ hb)
    simp [this]

theorem cstr_of_noNul {s : Bytes} (h : 0 ∉ s) : cstr s = s := by
  have happ := cstr_append h []
  rw [List.append_nil] at happ
  rw [happ]
  exact List.append_nil s

/-- What stands behind the terminator is no part of the string. -/
theorem cstr_terminated {d : Bytes} (h : 0 ∉ d) (r : Bytes) : cstr (d++0::r) = d := by
  rw [cstr_append h]
  exact List.append_nil d

/-- A span ends at the first byte that is the terminator or lacks the property. -/
theorem spanLength_append {P : UInt8 → Bool} {d : Bytes} (h : 0 ∉ d) (hp : ∀ b ∈ d,P b = true)
    {b : UInt8} (hb : b = 0 ∨ P b = false) (r : Bytes) :
    spanLength P (d++b::r) = .ok d.length := by
  induction d with
  | nil =>
    rw [List.nil_append,spanLength,if_neg]
    · rfl
    · rintro ⟨hne,hpb⟩
      rcases hb with h0 | hfalse
      · exact hne h0
      · rw [hfalse] at hpb
        cases hpb
  | cons c d ih =>
    have hc : c ≠ 0 := fun h0 => h (h0 ▸ List.mem_cons_self)
    rw [List.cons_append,spanLength,if_pos ⟨hc,hp c List.mem_cons_self⟩,
      ih (fun hmem => h (List.mem_cons_of_mem c hmem)) fun b hb => hp b (List.mem_cons_of_mem c hb)]
    rfl

/-- A text is a span and what is left behind it. -/
theorem exists_span (P : UInt8 → Bool) (s : Bytes) :
    ∃ d r,s = d++r ∧ (∀ b ∈ d,P b = true) ∧ ∀ b,r.head? = some b → P b = false := by
  refine ⟨s.takeWhile P,s.dropWhile P,List.takeWhile_append_dropWhile.symm,
    fun b hb => List.mem_takeWhile_imp hb,fun b hb => ?_⟩
  have hnot := List.head?_dropWhile_not P s
  rw [hb] at hnot
  simpa using hnot

/-- The span of a string with its terminator. -/
theorem spanLength_split {P : UInt8 → Bool} {d r : Bytes} (h : 0 ∉ d) (hp : ∀ b ∈ d,P b = true)
    (hr : ∀ b,r.head? = some b → P b = false) (rest : Bytes) :
    spanLength P (d++(r++0::rest)) = .ok d.length := by
  cases r with
  | nil => exact spanLength_append h hp (.inl rfl) rest
  | cons b r => exact spanLength_append h hp (.inr (hr b rfl)) (r++0::rest)

theorem any_nul {s : Bytes} (h : 0 ∈ s) : s.any (· = 0) = true :=
  List.any_eq_true.mpr ⟨0,h,decide_eq_true rfl⟩

/-! ### Numerals -/

/-- A property of all bytes, by their values. -/
theorem forall_byte {P : UInt8 → Prop} (h : ∀ n : Fin 256,P (UInt8.ofNat n)) (b : UInt8) : P b := by
  have hb := h ⟨b.toNat,b.toNat_lt⟩
  rwa [UInt8.ofNat_toNat] at hb

/-- What hexadecimal digits are not. -/
theorem hexDigit_ne : ∀ b : UInt8,(hexDigit b).isSome = true →
    b ≠ 0 ∧ b ≠ 10 ∧ b ≠ 13 ∧ b ≠ 43 ∧ b ≠ 45 ∧ isspace b = false ∧ tolower b ≠ 120 :=
  forall_byte (by decide +kernel)

/-- What decimal digits are. -/
theorem isdigit_spec : ∀ b : UInt8,isdigit b = true →
    b ≠ 43 ∧ b ≠ 45 ∧ isspace b = false ∧ b.toNat-48 < 10 ∧ (b ≠ 48 → b.toNat-48 ≠ 0) :=
  forall_byte (by decide +kernel)

/-- The value of a numeral ends at the first byte that is no digit. -/
theorem hexValue_append {d : Bytes} (h : ∀ b ∈ d,(hexDigit b).isSome = true) {b : UInt8}
    (hb : hexDigit b = none) (r : Bytes) : ∀ v,hexValue v (d++b::r) = hexValue v d := by
  induction d with
  | nil =>
    intro v
    show hexValue v (b::r) = v
    rw [hexValue,hb]
  | cons c d ih =>
    intro v
    obtain ⟨x,hx⟩ := Option.isSome_iff_exists.mp (h c List.mem_cons_self)
    show hexValue v (c::(d++b::r)) = _
    rw [hexValue,hexValue,hx]
    exact ih (fun b hb => h b (List.mem_cons_of_mem c hb)) _

/-- `strtoul` of a numeral with a CR behind it. -/
theorem strtoul16_numeral {d r : Bytes} (hd : d ≠ []) (h : ∀ b ∈ d,(hexDigit b).isSome = true)
    (hv : hexValue 0 d < 2^64) : strtoul16 (d++13::r) = hexValue 0 d := by
  cases d with
  | nil => exact absurd rfl hd
  | cons b d =>
    obtain ⟨-,-,-,hplus,hminus,hspace,-⟩ := hexDigit_ne b (h b List.mem_cons_self)
    have hdrop : ((b::d)++13::r).dropWhile isspace = (b::d)++13::r := by simp [hspace]
    have hsign : takeSign ((b::d)++13::r) = (false,(b::d)++13::r) := by
      simp [takeSign,hplus,hminus]
    have hx : dropHexPrefix ((b::d)++13::r) = (b::d)++13::r := by
      rw [dropHexPrefix,if_neg]
      rintro ⟨-,hsecond,-⟩
      cases d with
      | nil =>
        have h13 : tolower 13 ≠ 120 := by decide
        exact h13 (Option.some.inj hsecond)
      | cons c d =>
        obtain ⟨-,-,-,-,-,-,hc⟩ := hexDigit_ne c (h c (by simp))
        exact hc (Option.some.inj hsecond)
    have hcr : hexDigit 13 = none := by decide
    rw [strtoul16,hdrop,hsign]
    simp only [hx,hexValue_append h hcr,if_neg (Nat.not_le_of_lt hv),Bool.false_eq_true,if_false]

/-- `strtol` of a run of digits. -/
theorem strtol_digits {ds : Bytes} (h : ∀ b ∈ ds,isdigit b = true) :
    strtol ds = min (2^63-1) ((ds.foldl (fun v d => 10*v+(d.toNat-48)) 0 : ℕ) : ℤ) := by
  have htake : ds.takeWhile isdigit = ds := List.takeWhile_eq_self_iff.mpr h
  cases ds with
  | nil => rfl
  | cons b ds =>
    obtain ⟨hplus,hminus,hspace,-⟩ := isdigit_spec b (h b List.mem_cons_self)
    have hdrop : (b::ds).dropWhile isspace = b::ds := by simp [hspace]
    have hsign : takeSign (b::ds) = (false,b::ds) := by simp [takeSign,hplus,hminus]
    rw [strtol,hdrop,hsign]
    simp only [htake,Bool.false_eq_true,if_false]

theorem toNat_ofNat_digit {c : Char} (h : c.isDigit = true) :
    (UInt8.ofNat c.toNat).toNat = c.toNat ∧ 48 ≤ c.toNat ∧ c.toNat ≤ 57 := by
  have hdigit : 48 ≤ c.toNat ∧ c.toNat ≤ 57 := Char.isDigit_iff_toNat.mp h
  refine ⟨?_,hdigit⟩
  rw [UInt8.toNat_ofNat']
  omega

theorem isdigit_decimal (n : ℕ) : ∀ b ∈ decimal n,isdigit b = true := by
  intro b hb
  obtain ⟨c,hc,rfl⟩ := List.mem_map.mp hb
  obtain ⟨heq,hlo,hhi⟩ := toNat_ofNat_digit (Nat.isDigit_of_mem_toDigits (by decide) (by decide) hc)
  rw [isdigit,decide_eq_true_eq,UInt8.le_iff_toNat_le,UInt8.le_iff_toNat_le,heq]
  exact ⟨hlo,hhi⟩

theorem decimal_value (n : ℕ) : (decimal n).foldl (fun v d => 10*v+(d.toNat-48)) 0 = n := by
  have hfold : ∀ (cs : List Char) (v : ℕ),(∀ c ∈ cs,c.isDigit = true) →
      (cs.map fun c => UInt8.ofNat c.toNat).foldl (fun v d => 10*v+(d.toNat-48)) v =
        Nat.ofDigitChars 10 cs v := by
    intro cs
    induction cs with
    | nil => intro v _; rfl
    | cons c cs ih =>
      intro v h
      rw [List.map_cons,List.foldl_cons,(toNat_ofNat_digit (h c List.mem_cons_self)).1,
        ih _ (fun c hc => h c (List.mem_cons_of_mem _ hc)),Nat.ofDigitChars_cons]
      rfl
  rw [decimal,hfold _ _ fun c hc => Nat.isDigit_of_mem_toDigits (by decide) (by decide) hc]
  exact Nat.ofDigitChars_ten_toDigits

theorem strtol_decimal {n : ℕ} (h : n < 2^63) : strtol (decimal n) = n := by
  rw [strtol_digits (isdigit_decimal n),decimal_value]
  omega

theorem decimal_length {n k : ℕ} (hk : 0 < k) (h : n < 10^k) : (decimal n).length ≤ k := by
  rw [decimal,List.length_map]
  exact (Nat.length_toDigits_le_iff (by decide) hk).mpr h

example : strtoul16 (ascii "1aF\x0d\n") = 431 := by decide

example : strtol (ascii " 200 OK") = 200 := by decide

end CString
end RecycleBin
