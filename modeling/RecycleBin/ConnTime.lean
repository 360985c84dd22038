import RecycleBin.GurlLevels

/-! The durations of `conn`: `ParseTime` of `conn_core.go` and the texts it is meant for. -/
namespace RecycleBin
namespace ConnTime
open GurlCal (Bytes Literal decimal decimalFrom isDigit wrap)

def Millisecond : ℤ := 1000000
def Second : ℤ := 1000000000

/-- The variables of the loop. -/
structure Scan where
  t0 : ℤ := 0
  rv : ℤ := 0

/-- `rv += time.Duration(t0*factor) * unit; t0 = 0` -/
def Scan.add (st : Scan) (factor unit : ℤ) : Scan where
  rv := wrap (st.rv+wrap (wrap (st.t0*factor)*unit))

/-- The loop. It runs over the characters, but only bytes below 128 have a case. -/
def scan : Bytes → Scan → Scan
  | [], st => st
  | v::t, st =>
    if isDigit v then scan t { st with t0 := wrap (st.t0*10+(v.toNat-48 : ℕ)) }
    else if v = 115 then scan t (st.add 1 Second)
    else if v = 109 then
      -- `k++` does not skip the `s`
      if t.head? = some 115 then scan t (st.add 1 Millisecond)
      else scan t (st.add 60 Second)
    else if v = 104 then scan t (st.add (60*60) Second)
    else if v = 100 then scan t (st.add (60*60*24) Second)
    else if v = 119 then scan t (st.add (60*60*24*7) Second)
    else if v = 77 then scan t (st.add (60*60*24*7*31) Second)
    else if v = 121 then scan t (st.add (60*60*24*7*31*365) Second)
    else scan t st

def parseTime (t : Bytes) : ℤ := (scan t { }).rv

/-! ### Durations -/

inductive TimeUnit
  | milli | sec | min | hour | day | week | month | year
  deriving DecidableEq

namespace TimeUnit

def text : TimeUnit → Bytes
  | milli => [109,115]
  | sec => [115]
  | min => [109]
  | hour => [104]
  | day => [100]
  | week => [119]
  | month => [77]
  | year => [121]

/-- The unit in nanoseconds. -/
def nanos : TimeUnit → ℕ
  | milli => 1000000
  | sec => 1000000000
  | min => 60000000000
  | hour => 3600000000000
  | day => 86400000000000
  | week => 7*86400000000000
  | month => 31*86400000000000
  | year => 365*86400000000000

/-- The days that `ParseTime` counts too many. -/
def excess : TimeUnit → ℕ
  | month => 7*31-31
  | year => 7*31*365-365
  | _ => 0

end TimeUnit

structure Item where
  number : Literal
  unit : TimeUnit

def Item.text (i : Item) : Bytes := i.number.digits++i.unit.text

def Item.value (i : Item) : ℕ := decimal i.number.digits

def text (items : List Item) : Bytes := items.flatMap Item.text

def total (items : List Item) : ℕ := (items.map fun i => i.value*i.unit.nanos).sum

/-- Items with a sum that a `time.Duration` holds. -/
structure Period where
  items : List Item
  fits : total items < 2^63

/-- The text is read as its sum, and so are its parts. -/
structure Sums (x : Period) : Prop where
  sum : parseTime (text x.items) = total x.items
  append : ∀ a b, x.items = a++b → parseTime (text a++text b) = parseTime (text a)+parseTime (text b)

/-! ### What the loop adds -/

theorem wrap_zero : wrap 0 = 0 := rfl

/-- An item adds its number, whatever wraps around on the way. -/
theorem add_eq (n : ℕ) (rv factor unit : ℤ) :
    ({ t0 := wrap n,rv := wrap rv } : Scan).add factor unit =
      { rv := wrap (rv+n*(factor*unit)) } := by
  rw [Scan.add]
  simp only [wrap,Int.bmod_mul_bmod,Int.add_bmod_bmod,Int.bmod_add_bmod,mul_assoc]

theorem scan_digits {ds : Bytes} (hd : ∀ b ∈ ds, isDigit b = true) (s : Bytes) (n : ℕ) (rv : ℤ) :
    scan (ds++s) { t0 := wrap n,rv := rv } = scan s { t0 := wrap (decimalFrom n ds),rv := rv } := by
  induction ds generalizing n with
  | nil => rfl
  | cons d ds ih =>
    have hstep : wrap (wrap n*10+(d.toNat-48 : ℕ)) = wrap ((n*10+(d.toNat-48) : ℕ) : ℤ) := by
      simp only [wrap]
      rw [← Int.bmod_add_bmod,Int.bmod_mul_bmod,Int.bmod_add_bmod]
      push_cast
      rfl
    rw [List.cons_append,scan,if_pos (hd d List.mem_cons_self)]
    dsimp only
    rw [hstep,ih (fun b hb => hd b (List.mem_cons_of_mem _ hb))]
    rfl

/-- The unit behind a number, unless it is an `m` in front of an `s`. -/
theorem scan_unit (u : TimeUnit) {s : Bytes} (hs : s.head? ≠ some 115) (n : ℕ) (rv : ℤ) :
    scan (u.text++s) { t0 := wrap n,rv := wrap rv } =
      scan s { rv := wrap (rv+n*(u.nanos+86400000000000*u.excess : ℕ)) } := by
  have hadd : ∀ factor unit : ℤ, factor*unit = (u.nanos+86400000000000*u.excess : ℕ) →
      ({ t0 := wrap n,rv := wrap rv } : Scan).add factor unit =
        { rv := wrap (rv+n*(u.nanos+86400000000000*u.excess : ℕ)) } := by
    intro factor unit h
    rw [add_eq,h]
  cases u with
  | milli =>
    -- the `s` is a unit once more, of the number 0
    have hagain := add_eq 0 (rv+n*(TimeUnit.milli.nanos+86400000000000*TimeUnit.milli.excess : ℕ))
      1 Second
    rw [Nat.cast_zero,zero_mul,add_zero,wrap_zero] at hagain
    have hhead : ([115]++s).head? = some 115 := rfl
    rw [TimeUnit.text,List.cons_append,scan,if_neg (by decide),if_neg (by decide),if_pos rfl,
      if_pos hhead,hadd _ _ (by decide),List.singleton_append,scan,if_neg (by decide),if_pos rfl,hagain]
  | sec => rw [TimeUnit.text,List.singleton_append,scan,if_neg (by decide),if_pos rfl,hadd _ _ (by decide)]
  | min =>
    rw [TimeUnit.text,List.singleton_append,scan,if_neg (by decide),if_neg (by decide),if_pos rfl,
      if_neg hs,hadd _ _ (by decide)]
  | hour =>
    rw [TimeUnit.text,List.singleton_append,scan,if_neg (by decide),if_neg (by decide),
      if_neg (by decide),if_pos rfl,hadd _ _ (by decide)]
  | day =>
    rw [TimeUnit.text,List.singleton_append,scan,if_neg (by decide),if_neg (by decide),
      if_neg (by decide),if_neg (by decide),if_pos rfl,hadd _ _ (by decide)]
  | week =>
    rw [TimeUnit.text,List.singleton_append,scan,if_neg (by decide),if_neg (by decide),
      if_neg (by decide),if_neg (by decide),if_neg (by decide),if_pos rfl,hadd _ _ (by decide)]
  | month =>
    rw [TimeUnit.text,List.singleton_append,scan,if_neg (by decide),if_neg (by decide),
      if_neg (by decide),if_neg (by decide),if_neg (by decide),if_neg (by decide),if_pos rfl,
      hadd _ _ (by decide)]
  | year =>
    rw [TimeUnit.text,List.singleton_append,scan,if_neg (by decide),if_neg (by decide),
      if_neg (by decide),if_neg (by decide),if_neg (by decide),if_neg (by decide),
      if_neg (by decide),if_pos rfl,hadd _ _ (by decide)]

/-- No text of items begins with an `s`. -/
theorem text_head (items : List Item) : (text items).head? ≠ some 115 := by
  rcases items with _ | ⟨i,items⟩
  · simp [text]
  · obtain ⟨d,ds,hds⟩ := List.exists_cons_of_ne_nil i.number.ne_nil
    have hd : isDigit d = true := i.number.isDigit d (by simp [hds])
    have hhead : (text (i::items)).head? = some d := by simp [text,Item.text,hds]
    rw [hhead]
    intro h
    rw [Option.some.inj h] at hd
    cases hd

/-- What `ParseTime` adds for the items, were there no overflow. -/
def counted (items : List Item) : ℕ :=
  (items.map fun i => i.value*(i.unit.nanos+86400000000000*i.unit.excess)).sum

theorem scan_text (items : List Item) (rv : ℤ) :
    scan (text items) { rv := wrap rv } = { rv := wrap (rv+counted items) } := by
  induction items generalizing rv with
  | nil => simp [text,counted,scan]
  | cons i items ih =>
    have hdigits := scan_digits i.number.isDigit (i.unit.text++text items) 0 (wrap rv)
    rw [Nat.cast_zero,wrap_zero] at hdigits
    have hunit := scan_unit i.unit (text_head items) i.value rv
    have htext : text (i::items) = i.number.digits++(i.unit.text++text items) := by
      simp [text,Item.text]
    rw [htext]
    refine hdigits.trans (hunit.trans ?_)
    have hcounted : (counted (i::items) : ℤ) =
        i.value*(i.unit.nanos+86400000000000*i.unit.excess : ℕ)+counted items := by
      rw [counted,List.map_cons,List.sum_cons,counted,Nat.cast_add,Nat.cast_mul]
    rw [ih,hcounted,add_assoc]

theorem parseTime_text (items : List Item) : parseTime (text items) = wrap (counted items) := by
  have h := scan_text items 0
  rw [zero_add,wrap_zero] at h
  rw [parseTime,h]

/-- On any texts of items the parser is additive, as far as `int64` is. -/
theorem parseTime_append (a b : List Item) :
    parseTime (text a++text b) = wrap (parseTime (text a)+parseTime (text b)) := by
  have htext : text a++text b = text (a++b) := by simp [text]
  have hcounted : counted (a++b) = counted a+counted b := by simp [counted]
  rw [htext,parseTime_text,parseTime_text,parseTime_text,hcounted,Nat.cast_add]
  simp only [wrap,Int.bmod_add_bmod,Int.add_bmod_bmod]

/-! ### The months and the years -/

/-- The days that are counted too many for the items. -/
def excess (items : List Item) : ℕ := (items.map fun i => i.value*i.unit.excess).sum

theorem counted_eq (items : List Item) : counted items = total items+86400000000000*excess items := by
  induction items with
  | nil => rfl
  | cons i items ih =>
    simp only [counted,total,excess,List.map_cons,List.sum_cons] at ih ⊢
    rw [ih]
    ring

/-- They are at most 216 days for a day. -/
theorem excess_le (items : List Item) : 86400000000000*excess items ≤ 216*total items := by
  have hunit : ∀ u : TimeUnit, 86400000000000*u.excess ≤ 216*u.nanos := by
    intro u
    cases u <;> decide
  induction items with
  | nil => rfl
  | cons i items ih =>
    have hi := Nat.mul_le_mul_left i.value (hunit i.unit)
    simp only [total,excess,List.map_cons,List.sum_cons] at ih ⊢
    linarith

theorem excess_eq_zero {items : List Item} :
    excess items = 0 ↔ ∀ i ∈ items, i.unit = .month ∨ i.unit = .year → i.value = 0 := by
  have hunit : ∀ u : TimeUnit, u.excess = 0 ↔ ¬(u = .month ∨ u = .year) := by
    intro u
    cases u <;> decide
  rw [excess,List.sum_eq_zero_iff]
  simp only [List.mem_map,forall_exists_index,and_imp,forall_apply_eq_imp_iff₂,Nat.mul_eq_zero,hunit]
  exact forall₂_congr fun i _ => or_iff_not_imp_right.trans (by rw [not_not])

/-- The days too many are never lost in an overflow: a day is an odd multiple of `2^16`. -/
theorem wrap_counted_iff {t e : ℕ} (ht : t < 2^63) (he : 86400000000000*e ≤ 216*t) :
    wrap ((t+86400000000000*e : ℕ) : ℤ) = t ↔ e = 0 := by
  constructor
  · intro h
    obtain ⟨k,hk⟩ := Int.dvd_bmod_sub_self (x:=((t+86400000000000*e : ℕ) : ℤ)) (m:=2^64)
    rw [← wrap,h] at hk
    push_cast at hk
    have hodd : (((1318359375*e : ℕ)) : ℤ) = ((2^48 : ℕ) : ℤ)*(-k) := by
      push_cast
      linarith
    have hdvd : 2^48 ∣ 1318359375*e := Int.natCast_dvd_natCast.mp ⟨-k,hodd⟩
    have hcoprime : Nat.Coprime (2^48) 1318359375 := by norm_num
    refine Nat.eq_zero_of_dvd_of_lt (hcoprime.dvd_of_dvd_mul_left hdvd) ?_
    linarith
  · rintro rfl
    exact GurlCal.wrap_natCast ht

/-- `ParseTime` is right for a text exactly when there is no month and no year in it. -/
theorem sums_iff (x : Period) :
    Sums x ↔ ∀ i ∈ x.items, i.unit = .month ∨ i.unit = .year → i.value = 0 := by
  rw [← excess_eq_zero]
  have hsum : parseTime (text x.items) = total x.items ↔ excess x.items = 0 := by
    rw [parseTime_text,counted_eq]
    exact wrap_counted_iff x.fits (excess_le x.items)
  constructor
  · intro h
    exact hsum.mp h.sum
  · intro h
    refine ⟨hsum.mpr h,?_⟩
    intro a b hab
    have htotal : counted x.items = counted a+counted b := by simp [hab,counted]
    have hfits := x.fits
    rw [counted_eq,h] at htotal
    have htext : text a++text b = text x.items := by simp [hab,text]
    rw [htext,hsum.mpr h,parseTime_text,parseTime_text,GurlCal.wrap_natCast (by omega),
      GurlCal.wrap_natCast (by omega)]
    omega

/-- `1M` -/
theorem not_sums_month : ¬∀ x : Period, Sums x := by
  intro h
  have hsum := (h ⟨[⟨⟨[49],by simp,List.all_eq_true.mp rfl⟩,.month⟩],by decide⟩).sum
  revert hsum
  decide

end ConnTime
end RecycleBin
