import Mathlib.Data.Rat.Floor
import Mathlib.Order.Bounds.Basic
import Mathlib.Order.Monotone.Basic
import Mathlib.Tactic

/-!
# The jump consistent hash

`JumpConsistentHash` of `test_hash/jump_consistent_hash.c`: a generator seeded
by the key proposes ever larger buckets, and the last proposal below
`num_buckets` is the answer. The proposals do not depend on `num_buckets`.
-/

namespace RecycleBin
namespace JumpHash

/-! ## The greatest element below a bound -/

section Below

variable {α : Type} [LinearOrder α] {S : Set α} {m n r r' : α}

/-- The greatest element of `S` below `n`. -/
def GreatestBelow (S : Set α) (n r : α) : Prop :=
  IsGreatest {x | x ∈ S ∧ x < n} r

theorem GreatestBelow.lt (h : GreatestBelow S n r) : r < n :=
  h.1.2

/-- When the bound grows, the greatest element below it stays, or it moves into the new part. -/
theorem GreatestBelow.grow (hmn : m ≤ n) (h : GreatestBelow S m r) (h' : GreatestBelow S n r') :
    r' = r ∨ m ≤ r' := by
  rcases lt_or_ge r' m with hlt | hge
  · left
    have hle : r' ≤ r := h.2 ⟨h'.1.1,hlt⟩
    have hge : r ≤ r' := h'.2 ⟨h.1.1,h.lt.trans_le hmn⟩
    exact le_antisymm hle hge
  · exact Or.inr hge

/-- Between two neighbours of an increasing sequence nothing of the sequence is skipped. -/
theorem greatestBelow_of_strictMono {s : ℕ → α} (hs : StrictMono s) (k : ℕ)
    (hk : s k < n) (hk' : n ≤ s (k+1)) : GreatestBelow (Set.range s) n (s k) := by
  constructor
  · exact ⟨⟨k,rfl⟩,hk⟩
  · rintro x ⟨⟨i,rfl⟩,hi⟩
    have hik : i < k+1 := hs.lt_iff_lt.mp (hi.trans_le hk')
    exact hs.monotone (Nat.lt_succ_iff.mp hik)

end Below

/-! ## The loop of the source -/

/-- The variables of the loop; `b` and `j` are `int64_t`. -/
structure Walk where
  key : BitVec 64
  b : ℤ
  j : ℤ
  deriving DecidableEq, Repr

def nextKey (key : BitVec 64) : BitVec 64 :=
  key*2862933555777941757+1

/-- `(key >> 33) + 1` -/
def divisor (key : BitVec 64) : ℕ :=
  (key >>> 33).toNat+1

/-- `(b + 1) * ((double)(1LL << 31) / (double)((key >> 33) + 1))`, cut towards zero. -/
def leap (key : BitVec 64) (b : ℤ) : ℤ :=
  ((b+1)*2^31).tdiv (divisor key)

/-- One pass of the loop body. -/
def jump (w : Walk) : Walk :=
  ⟨nextKey w.key,w.j,leap (nextKey w.key) w.j⟩

/-- `while (j < num_buckets)`, with a bound on the number of tests of the condition. -/
def jumpLoop (num_buckets : ℤ) : ℕ → Walk → Option ℤ
  | 0,_ => none
  | fuel+1,w => if w.j < num_buckets then jumpLoop num_buckets fuel (jump w) else some w.b

def start (key : BitVec 64) : Walk :=
  ⟨key,-1,0⟩

def JumpConsistentHash (fuel : ℕ) (key : BitVec 64) (num_buckets : ℤ) : Option ℤ :=
  jumpLoop num_buckets fuel (start key)

/-! ## The leap -/

theorem divisor_pos (key : BitVec 64) : 0 < divisor key :=
  Nat.succ_pos _

/-- Only 31 bits of the key are left, so the divisor never exceeds the dividend's factor. -/
theorem divisor_le (key : BitVec 64) : divisor key ≤ 2^31 := by
  have h : key.toNat < 2^64 := key.isLt
  rw [divisor,BitVec.toNat_ushiftRight,Nat.shiftRight_eq_div_pow]
  omega

theorem leap_eq_ediv (key : BitVec 64) {b : ℤ} (hb : 0 ≤ b) :
    leap key b = (b+1)*2^31/divisor key := by
  have hpos : (0 : ℤ) ≤ (b+1)*2^31 := by positivity
  rw [leap,Int.tdiv_eq_ediv_of_nonneg hpos]

/-- The exact quotient the `double` arithmetic stands for. -/
theorem leap_eq_floor (key : BitVec 64) {b : ℤ} (hb : 0 ≤ b) :
    leap key b = ⌊((b+1 : ℤ) : ℚ)*((2 : ℚ)^31/(divisor key : ℚ))⌋ := by
  have hq : ((b+1 : ℤ) : ℚ)*((2 : ℚ)^31/(divisor key : ℚ)) =
      (((b+1)*2^31 : ℤ) : ℚ)/(divisor key : ℚ) := by
    push_cast
    ring
  rw [hq,Rat.floor_intCast_div_natCast,leap_eq_ediv key hb]

theorem lt_leap (key : BitVec 64) {b : ℤ} (hb : 0 ≤ b) : b < leap key b := by
  have hd : (divisor key : ℤ) ≤ 2^31 := by exact_mod_cast divisor_le key
  have hpos : (0 : ℤ) < divisor key := by exact_mod_cast divisor_pos key
  have hle : b+1 ≤ leap key b := by
    rw [leap_eq_ediv key hb,Int.le_ediv_iff_mul_le hpos]
    exact mul_le_mul_of_nonneg_left hd (by omega)
  omega

/-- With an `int32_t` bound on `b` the product stays far below the `int64_t` range. -/
theorem leap_le (key : BitVec 64) {b : ℤ} (hb : 0 ≤ b) (hlt : b < 2^31) : leap key b ≤ 2^62 := by
  have hpos : (0 : ℤ) ≤ (b+1)*2^31 := by positivity
  have hle : leap key b ≤ (b+1)*2^31 := by
    rw [leap_eq_ediv key hb]
    exact Int.ediv_le_self _ hpos
  omega

/-! ## The sequence of proposals -/

/-- The variables after `k` passes. -/
def walk (key : BitVec 64) (k : ℕ) : Walk :=
  jump^[k] (start key)

/-- The `k`-th proposal of the generator. -/
def proposal (key : BitVec 64) (k : ℕ) : ℤ :=
  (walk key k).j

theorem walk_succ (key : BitVec 64) (k : ℕ) : walk key (k+1) = jump (walk key k) :=
  Function.iterate_succ_apply' jump k (start key)

@[simp] theorem proposal_zero (key : BitVec 64) : proposal key 0 = 0 := rfl

/-- The loop returns the proposal before the one that stops it. -/
theorem walk_succ_b (key : BitVec 64) (k : ℕ) : (walk key (k+1)).b = proposal key k := by
  rw [walk_succ]
  rfl

theorem proposal_succ (key : BitVec 64) (k : ℕ) :
    proposal key (k+1) = leap (walk key (k+1)).key (proposal key k) := by
  simp only [proposal,walk_succ,jump]

theorem proposal_nonneg (key : BitVec 64) (k : ℕ) : 0 ≤ proposal key k := by
  induction k with
  | zero => simp
  | succ k ih =>
    rw [proposal_succ]
    exact ih.trans (lt_leap _ ih).le

theorem proposal_strictMono (key : BitVec 64) : StrictMono (proposal key) := by
  apply strictMono_nat_of_lt_succ
  intro k
  rw [proposal_succ]
  exact lt_leap _ (proposal_nonneg key k)

/-- Every proposal grows by at least one, so the `n`-th is not below `n`. -/
theorem le_proposal (key : BitVec 64) (k : ℕ) : (k : ℤ) ≤ proposal key k := by
  induction k with
  | zero => simp
  | succ k ih =>
    have h : proposal key k < proposal key (k+1) := proposal_strictMono key (Nat.lt_succ_self k)
    push_cast
    omega

/-! ## What the loop returns -/

/-- The loop runs along the proposals up to the first that is not below the bound. -/
theorem jumpLoop_walk (key : BitVec 64) (n : ℤ) (fuel k : ℕ) (hfuel : n ≤ fuel+k+1)
    (hk : proposal key k < n) :
    ∃ i, k ≤ i ∧ proposal key i < n ∧ n ≤ proposal key (i+1) ∧
      jumpLoop n (fuel+1) (walk key (k+1)) = some (proposal key i) := by
  induction fuel generalizing k with
  | zero =>
    have h := le_proposal key (k+1)
    have hge : n ≤ proposal key (k+1) := by
      push_cast at h hfuel
      omega
    refine ⟨k,le_rfl,hk,hge,?_⟩
    rw [jumpLoop,walk_succ_b]
    exact if_neg (not_lt.mpr hge)
  | succ fuel ih =>
    rcases lt_or_ge (proposal key (k+1)) n with hlt | hge
    · obtain ⟨i,hki,hi,hi',hrun⟩ := ih (k+1) (by push_cast at hfuel ⊢; omega) hlt
      refine ⟨i,by omega,hi,hi',?_⟩
      rw [jumpLoop,← walk_succ]
      exact (if_pos hlt).trans hrun
    · refine ⟨k,le_rfl,hk,hge,?_⟩
      rw [jumpLoop,walk_succ_b]
      exact if_neg (not_lt.mpr hge)

/-- With `num_buckets ≥ 1` the hash is the greatest proposal below `num_buckets`. -/
theorem JumpConsistentHash_spec (key : BitVec 64) (n : ℤ) (hn : 1 ≤ n) :
    ∃ r, GreatestBelow (Set.range (proposal key)) n r ∧ 0 ≤ r ∧
      ∀ fuel : ℕ, n < fuel → JumpConsistentHash fuel key n = some r := by
  have hfirst : proposal key 0 < n := by
    rw [proposal_zero]
    omega
  obtain ⟨i,-,hi,hi',-⟩ := jumpLoop_walk key n n.toNat 0 (by omega) hfirst
  refine ⟨proposal key i,greatestBelow_of_strictMono (proposal_strictMono key) i hi hi',
    proposal_nonneg key i,?_⟩
  intro fuel hfuel
  obtain ⟨f,rfl⟩ : ∃ f, fuel = f+1+1 := ⟨fuel-2,by omega⟩
  obtain ⟨l,-,hl,hl',hrun⟩ := jumpLoop_walk key n f 0 (by push_cast at hfuel ⊢; omega) hfirst
  -- The two runs stop at the same place of the sequence.
  have hil : i < l+1 := (proposal_strictMono key).lt_iff_lt.mp (hi.trans_le hl')
  have hli : l < i+1 := (proposal_strictMono key).lt_iff_lt.mp (hl.trans_le hi')
  have heq : l = i := by omega
  rw [JumpConsistentHash,jumpLoop,← heq]
  exact (if_pos hfirst).trans hrun

/-- The loop ends, its result is a bucket, and one more bucket only takes keys over. -/
theorem jump_adds_bucket (key : BitVec 64) (n : ℤ) (hn : 1 ≤ n) :
    ∃ r r', (∀ fuel : ℕ, n+1 < fuel → JumpConsistentHash fuel key n = some r ∧
        JumpConsistentHash fuel key (n+1) = some r') ∧
      (0 ≤ r ∧ r < n) ∧ (r' = r ∨ r' = n) := by
  obtain ⟨r,hr,hr0,hrun⟩ := JumpConsistentHash_spec key n hn
  obtain ⟨r',hr',-,hrun'⟩ := JumpConsistentHash_spec key (n+1) (by omega)
  refine ⟨r,r',?_,⟨hr0,hr.lt⟩,?_⟩
  · intro fuel hfuel
    exact ⟨hrun fuel (by omega),hrun' fuel (by omega)⟩
  · rcases hr.grow (by omega : n ≤ n+1) hr' with heq | hge
    · exact Or.inl heq
    · right
      have hlt := hr'.lt
      omega

theorem jump_adds_bucket_two :
    ∃ r r', (∀ fuel : ℕ, 2+1 < (fuel : ℤ) → JumpConsistentHash fuel 7 2 = some r ∧
        JumpConsistentHash fuel 7 (2+1) = some r') ∧
      ((0 : ℤ) ≤ r ∧ r < 2) ∧ (r' = r ∨ r' = 2) :=
  jump_adds_bucket 7 2 (by decide)

/-- For any two numbers of buckets, a key that moves goes to one of the new ones. -/
theorem jump_moves_to_new (key : BitVec 64) (m n r r' : ℤ) (hm : 1 ≤ m) (hmn : m ≤ n)
    (fuel : ℕ) (hfuel : n < fuel) (hr : JumpConsistentHash fuel key m = some r)
    (hr' : JumpConsistentHash fuel key n = some r') : r' = r ∨ m ≤ r' := by
  obtain ⟨a,ha,-,hrun⟩ := JumpConsistentHash_spec key m hm
  obtain ⟨c,hc,-,hrun'⟩ := JumpConsistentHash_spec key n (hm.trans hmn)
  have hra : a = r := Option.some.inj ((hrun fuel (by omega)).symm.trans hr)
  have hrc : c = r' := Option.some.inj ((hrun' fuel hfuel).symm.trans hr')
  subst hra hrc
  exact ha.grow hmn hc

end JumpHash
end RecycleBin
