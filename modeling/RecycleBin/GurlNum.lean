import RecycleBin.GurlLevels

/-! For which expressions `num` is right. Where a `+` or `-` stands behind a `*`, `/` or
`%` of the same parenthesis level, literals can be chosen so that the result differs from
the value; the difference then survives all that stands around the level. -/
namespace RecycleBin
namespace GurlCal

/-! ### Literals of a given value -/

theorem decimalFrom_append (n : ℕ) (s : Bytes) (b : UInt8) :
    decimalFrom n (s++[b]) = decimalFrom n s*10+(b.toNat-48) := by
  induction s generalizing n with
  | nil => rfl
  | cons c s ih => exact ih _

theorem exists_digit {n : ℕ} (h : n < 10) : ∃ b, isDigit b = true ∧ b.toNat = 48+n := by
  have hn : (UInt8.ofNat (48+n)).toNat = 48+n := by
    rw [UInt8.toNat_ofNat']
    omega
  have hlo : (48 : UInt8).toNat = 48 := rfl
  have hhi : (57 : UInt8).toNat = 57 := rfl
  refine ⟨UInt8.ofNat (48+n),?_,hn⟩
  simp only [isDigit,Bool.and_eq_true,decide_eq_true_eq,UInt8.le_iff_toNat_le,hn,hlo,hhi]
  omega

/-- One digit more. -/
theorem Literal.exists_append (a : Literal) {n : ℕ} (h : n < 10) :
    ∃ a' : Literal, decimal a'.digits = decimal a.digits*10+n := by
  obtain ⟨b,hb,hv⟩ := exists_digit h
  refine ⟨⟨a.digits++[b],by simp,?_⟩,?_⟩
  · intro c hc
    rcases List.mem_append.mp hc with hc | hc
    · exact a.isDigit c hc
    · rwa [List.mem_singleton.mp hc]
  · rw [decimal,decimalFrom_append,hv,Nat.add_sub_cancel_left]
    rfl

theorem Literal.exists_decimal (n : ℕ) : ∃ a : Literal, decimal a.digits = n := by
  induction n using Nat.strong_induction_on with
  | _ n ih =>
    by_cases h : n < 10
    · obtain ⟨b,hb,hv⟩ := exists_digit h
      refine ⟨⟨[b],by simp,by simpa using hb⟩,?_⟩
      change 0*10+(b.toNat-48) = n
      omega
    · obtain ⟨a,ha⟩ := ih (n/10) (by omega)
      obtain ⟨a',ha'⟩ := a.exists_append (Nat.mod_lt n (by norm_num : 0 < 10))
      refine ⟨a',?_⟩
      rw [ha',ha]
      omega

/-! ### Operators on small numbers -/

namespace BinOp

theorem eval_add {m n : ℕ} (h : m+n < 2^63) : (low .add).eval m n = .ok (m+n : ℕ) :=
  congrArg Except.ok (wrap_natCast h)

theorem eval_sub {m n : ℕ} (hn : n ≤ m) (hm : m < 2^63) :
    (low .sub).eval m n = .ok (m-n : ℕ) := by
  have hw : wrap (m-n : ℕ) = (m-n : ℕ) := wrap_natCast (by omega)
  rw [Nat.cast_sub hn] at hw ⊢
  exact congrArg Except.ok hw

theorem eval_mul {m n : ℕ} (h : m*n < 2^63) : (high .mul).eval m n = .ok (m*n : ℕ) := by
  have hw : wrap (m*n : ℕ) = (m*n : ℕ) := wrap_natCast h
  rw [Nat.cast_mul] at hw ⊢
  exact congrArg Except.ok hw

theorem eval_div {m n : ℕ} (hn : 0 < n) (hm : m < 2^63) :
    (high .div).eval m n = .ok (m/n : ℕ) := by
  have hw : wrap (m/n : ℕ) = (m/n : ℕ) := wrap_natCast ((Nat.div_le_self _ _).trans_lt hm)
  have hz : (n : ℤ) ≠ 0 := by omega
  change (if (n : ℤ) = 0 then _ else Except.ok (wrap ((m : ℤ).tdiv n))) = _
  rw [if_neg hz,← Int.ofNat_tdiv,hw]

theorem eval_mod {m n : ℕ} (hn : 0 < n) (hm : m < 2^63) :
    (high .mod).eval m n = .ok (m%n : ℕ) := by
  have hw : wrap (m%n : ℕ) = (m%n : ℕ) := wrap_natCast ((Nat.mod_le _ _).trans_lt hm)
  have hz : (n : ℤ) ≠ 0 := by omega
  change (if (n : ℤ) = 0 then _ else Except.ok (wrap ((m : ℤ).tmod n))) = _
  rw [if_neg hz,← Int.ofNat_tmod,hw]

end BinOp

/-- A right operand that changes no number up to `n`. -/
def High.neutral : High → ℕ → ℕ
  | .mod, n => n+1
  | _, _ => 1

theorem High.eval_neutral (o : High) {m n : ℕ} (hmn : m ≤ n) (hn : n < 2^63) :
    (BinOp.high o).eval m (o.neutral n) = .ok (m : ℕ) := by
  have hm : m < 2^63 := by omega
  cases o with
  | mul =>
    have h := BinOp.eval_mul (m:=m) (n:=1) (by omega)
    rwa [Nat.mul_one] at h
  | div =>
    have h := BinOp.eval_div (m:=m) Nat.one_pos hm
    rwa [Nat.div_one] at h
  | mod =>
    have h := BinOp.eval_mod (m:=m) (n:=n+1) (Nat.succ_pos n) hm
    rwa [Nat.mod_eq_of_lt (by omega)] at h

theorem Low.eval_zero (o : Low) {v : ℤ} (hv : wrap v = v) : (BinOp.low o).eval v 0 = .ok v := by
  cases o with
  | add => exact congrArg Except.ok (by rw [add_zero,hv])
  | sub => exact congrArg Except.ok (by rw [sub_zero,hv])

theorem High.zero_eval (o : High) {n : ℕ} (hn : 0 < n) :
    (BinOp.high o).eval 0 n = .ok 0 := by
  cases o with
  | mul => simpa using BinOp.eval_mul (m:=0) (n:=n) (by omega)
  | div => simpa using BinOp.eval_div (m:=0) hn (by omega)
  | mod => simpa using BinOp.eval_mod (m:=0) hn (by omega)

/-! ### Filling in literals -/

namespace Exp
variable {α β : Type}

theorem size_map {l : Level} (f : α → β) (e : Exp α l) : (e.map f).size = e.size := by
  induction e with
  | lit a => rfl
  | paren e ih | factor a ih | term t ih => exact ih
  | mul t o a iht iha | add e o t iht iha => simp only [map,size,iht,iha]

theorem flat_map {l : Level} (f : α → β) (e : Exp α l) : (e.map f).flat = e.flat := by
  induction e with
  | lit a | paren e ih | factor a ih | mul t o a iht iha => rfl
  | term t ih => exact ih
  | add e o t ihe iht => simp only [map,flat,ihe,iht]

theorem noDrop_map {l : Level} (f : α → β) (e : Exp α l) : (e.map f).noDrop = e.noDrop := by
  induction e with
  | lit a => rfl
  | paren e ih | factor a ih | term t ih => exact ih
  | mul t o a iht iha => simp only [map,noDrop,iht,iha]
  | add e o t ihe iht => simp only [map,noDrop,ihe,iht,flat_map]

theorem lits_map {l : Level} (f : α → β) (e : Exp α l) : (e.map f).lits = e.lits.map f := by
  induction e with
  | lit a => rfl
  | paren e ih | factor a ih | term t ih => exact ih
  | mul t o a iht iha | add e o t iht iha => simp only [map,lits,iht,iha,List.map_append]

/-- An expression with all its literals marked as an `int`. -/
def allFit {l : Level} (e : Exp α l) : Exp Bool l := e.map fun _ => true

theorem kind_of_fits {l : Level} {e : Exp Literal l} (h : e.Fits) : e.kind = e.allFit := by
  induction e with
  | lit a =>
    have ha : a.val < 2^63 := h a (List.mem_singleton_self a)
    exact congrArg lit (decide_eq_true ha)
  | paren e ih => exact congrArg paren (ih h)
  | factor a ih => exact congrArg factor (ih h)
  | term t ih => exact congrArg term (ih h)
  | mul t o a iht iha =>
    have ht := iht fun b hb => h b (List.mem_append_left _ hb)
    have ha := iha fun b hb => h b (List.mem_append_right _ hb)
    exact congrArg₂ (fun t a => mul t o a) ht ha
  | add e o t ihe iht =>
    have he := ihe fun b hb => h b (List.mem_append_left _ hb)
    have ht := iht fun b hb => h b (List.mem_append_right _ hb)
    exact congrArg₂ (fun e t => add e o t) he ht

theorem fits_iff_kind {l : Level} (e : Exp Literal l) : e.Fits ↔ ∀ b ∈ e.kind.lits, b = true := by
  simp [Fits,kind,lits_map]

end Exp

/-- With some literals the expression has the value `n`, and the result of the
calculator is `c`. -/
def Yields {α : Type} {l : Level} (s : Exp α l) (n : ℕ) (c : Except Fault ℤ) : Prop :=
  ∃ e : Exp Literal l, e.kind = s.allFit ∧ e.value = .ok n ∧ e.result = c

section
variable {α : Type} {n m k : ℕ} {c d r : Except Fault ℤ}

theorem Yields.lit (a : α) (h : n < 2^63) : Yields (.lit a) n (.ok n) := by
  obtain ⟨b,hb⟩ := Literal.exists_decimal n
  have hv : b.val = n := congrArg Nat.cast hb
  have hlt : b.val < 2^63 := by omega
  refine ⟨.lit b,congrArg Exp.lit (decide_eq_true hlt),by rw [Exp.value,hv],?_⟩
  rw [← hv]
  simp only [Exp.result,Exp.run,if_pos hlt]
  rfl

theorem Yields.paren {s : Exp α .sum} (h : Yields s n c) : Yields s.paren n c := by
  obtain ⟨e,hk,hv,hr⟩ := h
  exact ⟨e.paren,congrArg Exp.paren hk,hv,by rw [Exp.result_paren,hr]⟩

theorem Yields.factor {s : Exp α .atom} (h : Yields s n c) : Yields s.factor n c := by
  obtain ⟨e,hk,hv,hr⟩ := h
  exact ⟨e.factor,congrArg Exp.factor hk,hv,hr⟩

theorem Yields.term {s : Exp α .prod} (h : Yields s n c) : Yields s.term n c := by
  obtain ⟨e,hk,hv,hr⟩ := h
  exact ⟨e.term,congrArg Exp.term hk,hv,hr⟩

theorem Yields.mul {t : Exp α .prod} {a : Exp α .atom} {o : High} (ht : Yields t m c)
    (ha : Yields a n d) (hv : (BinOp.high o).eval m n = .ok k)
    (hr : (c >>= fun x => d >>= fun y => (BinOp.high o).eval x y) = r) :
    Yields (t.mul o a) k r := by
  obtain ⟨t',hkt,hvt,hrt⟩ := ht
  obtain ⟨a',hka,hva,hra⟩ := ha
  refine ⟨t'.mul o a',congrArg₂ (fun t a => Exp.mul t o a) hkt hka,?_,?_⟩
  · rw [Exp.value,hvt,hva]
    exact hv
  · rw [Exp.result_mul,hrt,hra,hr]

theorem Yields.add_flat {e : Exp α .sum} {t : Exp α .prod} {o : Low} (hf : e.flat = true)
    (he : Yields e m c) (ht : Yields t n d) (hv : (BinOp.low o).eval m n = .ok k)
    (hr : (c >>= fun x => d >>= fun y => (BinOp.low o).eval x y) = r) :
    Yields (e.add o t) k r := by
  obtain ⟨e',hke,hve,hre⟩ := he
  obtain ⟨t',hkt,hvt,hrt⟩ := ht
  have hf' : e'.flat = true := by
    have h := congrArg Exp.flat hke
    rwa [Exp.kind,Exp.allFit,Exp.flat_map,Exp.flat_map,hf] at h
  refine ⟨e'.add o t',congrArg₂ (fun e t => Exp.add e o t) hke hkt,?_,?_⟩
  · rw [Exp.value,hve,hvt]
    exact hv
  · rw [Exp.result_add_flat e' o t' hf',hre,hrt,hr]

/-- A term that is zero changes nothing in any order. -/
theorem Exp.result_add_zero {e : Exp Literal .sum} {t : Exp Literal .prod} (o : Low)
    (ht : t.result = .ok 0) : (e.add o t).result = e.result := by
  have he : e.result = e.run [] >>= fun r => fold r.1 r.2 := rfl
  rw [result_add,he]
  rcases h : e.run [] with f | ⟨v,S⟩
  · rfl
  have hv : wrap v = v := wrap_run h
  simp only [ht,ok_bind]
  rcases S with _ | ⟨⟨p,x⟩,S⟩
  · simp only [pushVal,ok_bind,fold,o.eval_zero hv]
  · rw [pushVal]
    split_ifs with hp
    · rw [fold]
      rcases hy : p.eval x v with f | y
      · rfl
      · simp only [ok_bind,fold,o.eval_zero (BinOp.wrap_eval hy)]
    · simp only [ok_bind,fold,o.eval_zero hv]

theorem Yields.add_zero {e : Exp α .sum} {t : Exp α .prod} (o : Low) (he : Yields e n c)
    (hn : n < 2^63) (ht : Yields t 0 (.ok 0)) : Yields (e.add o t) n c := by
  obtain ⟨e',hke,hve,hre⟩ := he
  obtain ⟨t',hkt,hvt,hrt⟩ := ht
  refine ⟨e'.add o t',congrArg₂ (fun e t => Exp.add e o t) hke hkt,?_,?_⟩
  · rw [Exp.value,hve,hvt]
    exact o.eval_zero (wrap_natCast hn)
  · rw [Exp.result_add_zero o hrt,hre]

theorem High.neutral_le (o : High) (n : ℕ) : o.neutral n ≤ n+1 := by
  cases o <;> simp [neutral]

/-- Every expression can be given every small value in both orders. -/
theorem yields_self {l : Level} (s : Exp α l) (n : ℕ) (h : n+s.size < 2^63) :
    Yields s n (.ok n) := by
  induction s generalizing n with
  | lit a => exact .lit a (by omega)
  | paren s ih => exact (ih n h).paren
  | factor s ih => exact (ih n h).factor
  | term s ih => exact (ih n h).term
  | mul t o a iht iha =>
    rw [Exp.size] at h
    have hne := o.neutral_le n
    have hev := o.eval_neutral (m:=n) le_rfl (by omega)
    exact (iht n (by omega)).mul (iha (o.neutral n) (by omega)) hev hev
  | add e o t ihe iht =>
    rw [Exp.size] at h
    exact (ihe n (by omega)).add_zero o (by omega) (iht 0 (by omega))

end

/-! ### Wrong results -/

/-- What the calculator gives in place of the value `n`. -/
inductive Miss
  | zero | more | stuck

def Miss.out : Miss → ℕ → ℕ → Except Fault ℤ
  | zero, _, _ => .ok 0
  | more, n, d => .ok (n+d : ℕ)
  | stuck, _, _ => .error .panic

/-- All small positive values are missed alike. -/
def Misses {α : Type} {l : Level} (m : Miss) (s : Exp α l) : Prop :=
  ∀ n d, 0 < n → 0 < d → n+s.size ≤ 2^60 → d+s.size ≤ 2^60 → Yields s n (m.out n d)

section
variable {α : Type} {m : Miss}

theorem Misses.mul_left {t : Exp α .prod} (h : Misses m t) (o : High) (a : Exp α .atom) :
    Misses m (t.mul o a) := by
  intro n d hn hd hsn hsd
  rw [Exp.size] at hsn hsd
  have hle := o.neutral_le (n+d)
  have ha := yields_self a (o.neutral (n+d)) (by omega)
  refine (h n d hn hd (by omega) (by omega)).mul ha (o.eval_neutral (by omega) (by omega)) ?_
  cases m with
  | zero => exact o.zero_eval (by cases o <;> simp [High.neutral])
  | more => exact o.eval_neutral le_rfl (by omega)
  | stuck => rfl

/-- A factor that makes the operation panic, behind a product of any small value. -/
theorem Misses.mul_stuck {a : Exp α .atom} (h : Misses m a) (t : Exp α .prod) (o : High)
    (hpanic : ∀ n k d : ℕ, (m.out k d >>= fun y => (BinOp.high o).eval n y) = .error .panic) :
    Misses .stuck (t.mul o a) := by
  intro n d hn hd hsn hsd
  rw [Exp.size] at hsn hsd
  have hle := o.neutral_le n
  have hpos : 0 < o.neutral n := by cases o <;> exact Nat.succ_pos _
  exact (yields_self t n (by omega)).mul (h (o.neutral n) d hpos hd (by omega) (by omega))
    (o.eval_neutral le_rfl (by omega)) (hpanic n (o.neutral n) d)

/-- A wrong factor makes the product wrong, in one way or another. -/
theorem Misses.mul_right {a : Exp α .atom} (h : Misses m a) (t : Exp α .prod) (o : High) :
    ∃ m', Misses m' (t.mul o a) := by
  cases o with
  | mul =>
    refine ⟨m,fun n d hn hd hsn hsd => ?_⟩
    rw [Exp.size] at hsn hsd
    have hone : ∀ k : ℕ, k < 2^63 → (BinOp.high .mul).eval (1 : ℕ) k = .ok (k : ℕ) := by
      intro k hk
      have he := BinOp.eval_mul (m:=1) (n:=k) (by omega)
      rwa [Nat.one_mul] at he
    refine (yields_self t 1 (by omega)).mul (h n d hn hd (by omega) (by omega))
      (hone n (by omega)) ?_
    cases m with
    | zero => exact hone 0 (by omega)
    | more => exact hone (n+d) (by omega)
    | stuck => rfl
  | div =>
    cases m with
    | zero => exact ⟨.stuck,h.mul_stuck t .div fun _ _ _ => rfl⟩
    | more =>
      refine ⟨.zero,fun n d hn hd hsn hsd => ?_⟩
      rw [Exp.size] at hsn hsd
      have hz := BinOp.eval_div (m:=n) (n:=1+n) (by omega) (by omega)
      rw [Nat.div_eq_of_lt (by omega)] at hz
      exact (yields_self t n (by omega)).mul (h 1 n (by omega) hn (by omega) (by omega))
        (High.eval_neutral .div le_rfl (by omega)) hz
    | stuck => exact ⟨.stuck,h.mul_stuck t .div fun _ _ _ => rfl⟩
  | mod =>
    cases m with
    | zero => exact ⟨.stuck,h.mul_stuck t .mod fun _ _ _ => rfl⟩
    | more =>
      refine ⟨.zero,fun n d hn hd hsn hsd => ?_⟩
      rw [Exp.size] at hsn hsd
      have hv := BinOp.eval_mod (m:=n+(n+1)) (n:=n+1) (by omega) (by omega)
      have hz := BinOp.eval_mod (m:=n+(n+1)) (n:=n+1+n) (by omega) (by omega)
      rw [Nat.add_mod_right,Nat.mod_eq_of_lt (by omega)] at hv
      rw [Nat.add_comm n (n+1),Nat.mod_self] at hz
      refine (yields_self t (n+(n+1)) (by omega)).mul
        (h (n+1) n (by omega) hn (by omega) (by omega)) hv ?_
      rw [Nat.add_comm n (n+1)]
      exact hz
    | stuck => exact ⟨.stuck,h.mul_stuck t .mod fun _ _ _ => rfl⟩

theorem Misses.add_left {e : Exp α .sum} (h : Misses m e) (o : Low) (t : Exp α .prod) :
    Misses m (e.add o t) := by
  intro n d hn hd hsn hsd
  rw [Exp.size] at hsn hsd
  exact (h n d hn hd (by omega) (by omega)).add_zero o (by omega) (yields_self t 0 (by omega))

/-- A wrong term makes the sum wrong, in one way or another. -/
theorem Misses.add_right {e : Exp α .sum} {t : Exp α .prod} (h : Misses m t) (hf : e.flat = true)
    (o : Low) : ∃ m', Misses m' (e.add o t) := by
  cases o with
  | add =>
    refine ⟨m,fun n d hn hd hsn hsd => ?_⟩
    rw [Exp.size] at hsn hsd
    have hzero : ∀ k : ℕ, k < 2^63 → (BinOp.low .add).eval (0 : ℕ) k = .ok (k : ℕ) := by
      intro k hk
      have he := BinOp.eval_add (m:=0) (n:=k) (by omega)
      rwa [Nat.zero_add] at he
    refine (yields_self e 0 (by omega)).add_flat hf (h n d hn hd (by omega) (by omega))
      (hzero n (by omega)) ?_
    cases m with
    | zero => exact hzero 0 (by omega)
    | more => exact hzero (n+d) (by omega)
    | stuck => rfl
  | sub =>
    have hsub : ∀ k n : ℕ, n+k < 2^63 → (BinOp.low .sub).eval (n+k : ℕ) k = .ok (n : ℕ) := by
      intro k n hk
      have he := BinOp.eval_sub (m:=n+k) (n:=k) (by omega) hk
      rwa [Nat.add_sub_cancel] at he
    cases m with
    | zero =>
      refine ⟨.more,fun n d hn hd hsn hsd => ?_⟩
      rw [Exp.size] at hsn hsd
      exact (yields_self e (n+d) (by omega)).add_flat hf
        (h d d hd hd (by omega) (by omega)) (hsub d n (by omega)) (hsub 0 (n+d) (by omega))
    | more =>
      refine ⟨.zero,fun n d hn hd hsn hsd => ?_⟩
      rw [Exp.size] at hsn hsd
      have hz := hsub (1+n) 0 (by omega)
      rw [Nat.zero_add] at hz
      refine (yields_self e (n+1) (by omega)).add_flat hf
        (h 1 n (by omega) hn (by omega) (by omega)) (hsub 1 n (by omega)) ?_
      rw [Nat.add_comm n 1]
      exact hz
    | stuck =>
      refine ⟨.stuck,fun n d hn hd hsn hsd => ?_⟩
      rw [Exp.size] at hsn hsd
      exact (yields_self e (n+1) (by omega)).add_flat hf
        (h 1 n (by omega) hn (by omega) (by omega)) (hsub 1 n (by omega)) rfl

end

/-! ### The first drop of a level -/

/-- The `+` or `-` behind a product is done before the product's last operator. -/
theorem Exp.result_drop_term (q : Exp Literal .prod) (h : High) (a : Exp Literal .atom) (o : Low)
    (t : Exp Literal .prod) :
    ((q.mul h a).term.add o t).result =
      q.result >>= fun u => a.result >>= fun v => t.result >>= fun w =>
        (BinOp.low o).eval v w >>= fun z => (BinOp.high h).eval u z := by
  rw [result_add]
  change ((q.mul h a).run [] >>= _) = _
  rw [run_mul q h a [] (by simp [Clear])]
  rcases q.result with f | u
  · rfl
  rcases a.result with f | v
  · rfl
  simp only [ok_bind,pushVal,BinOp.isHigh,Bool.true_eq_false,if_false]
  rcases t.result with f | w
  · rfl
  simp only [ok_bind,fold]
  rcases (BinOp.low o).eval v w with f | z
  · rfl
  simp only [ok_bind]
  rcases (BinOp.high h).eval u z with f | y <;> rfl

theorem Exp.result_drop_add (e : Exp Literal .sum) (p : Low) (q : Exp Literal .prod) (h : High)
    (a : Exp Literal .atom) (o : Low) (t : Exp Literal .prod) (hf : e.flat = true) :
    ((e.add p (q.mul h a)).add o t).result =
      e.result >>= fun x => q.result >>= fun u => a.result >>= fun v => t.result >>= fun w =>
        (BinOp.low o).eval v w >>= fun z => (BinOp.high h).eval u z >>= fun y =>
          (BinOp.low p).eval x y := by
  have hr : (e.add p (q.mul h a)).run [] =
      (e.run [] >>= fun r => pushVal (.low p) r.1 r.2) >>= (q.mul h a).run :=
    (bind_assoc _ _ _).symm
  rw [result_add,hr,pushVal_flat e p hf]
  rcases e.result with f | x
  · rfl
  simp only [Except.map,ok_bind]
  rw [run_mul q h a _ (by simp [Clear,BinOp.isHigh])]
  rcases q.result with f | u
  · rfl
  rcases a.result with f | v
  · rfl
  simp only [ok_bind,pushVal,BinOp.isHigh,Bool.true_eq_false,if_false]
  rcases t.result with f | w
  · rfl
  simp only [ok_bind,fold]
  rcases (BinOp.low o).eval v w with f | z
  · rfl
  simp only [ok_bind]
  rcases (BinOp.high h).eval u z with f | y
  · rfl
  simp only [ok_bind]
  rcases (BinOp.low p).eval x y with f | y <;> rfl

section
variable {α : Type}

theorem Yields.drop_term {q t : Exp α .prod} {a : Exp α .atom} {h : High} {o : Low}
    {u v w x k : ℕ} {r : Except Fault ℤ} (hq : Yields q u (.ok u)) (ha : Yields a v (.ok v))
    (ht : Yields t w (.ok w)) (hx : (BinOp.high h).eval u v = .ok x)
    (hk : (BinOp.low o).eval x w = .ok k)
    (hr : ((BinOp.low o).eval v w >>= fun z => (BinOp.high h).eval u z) = r) :
    Yields ((q.mul h a).term.add o t) k r := by
  obtain ⟨q',hkq,hvq,hrq⟩ := hq
  obtain ⟨a',hka,hva,hra⟩ := ha
  obtain ⟨t',hkt,hvt,hrt⟩ := ht
  have hkm := congrArg₂ (fun q a => (Exp.mul q h a).term) hkq hka
  refine ⟨(q'.mul h a').term.add o t',congrArg₂ (fun e t => Exp.add e o t) hkm hkt,?_,?_⟩
  · simp only [Exp.value,hvq,hva,hvt,ok_bind,hx,hk]
  · simp only [Exp.result_drop_term,hrq,hra,hrt,ok_bind,hr]

theorem Yields.drop_add {e : Exp α .sum} {q t : Exp α .prod} {a : Exp α .atom} {p o : Low}
    {h : High} {y u v w x z k : ℕ} {r : Except Fault ℤ} (hf : e.flat = true)
    (he : Yields e y (.ok y)) (hq : Yields q u (.ok u)) (ha : Yields a v (.ok v))
    (ht : Yields t w (.ok w)) (hx : (BinOp.high h).eval u v = .ok x)
    (hz : (BinOp.low p).eval y x = .ok z) (hk : (BinOp.low o).eval z w = .ok k)
    (hr : ((BinOp.low o).eval v w >>= fun z => (BinOp.high h).eval u z >>= fun x =>
      (BinOp.low p).eval y x) = r) :
    Yields ((e.add p (q.mul h a)).add o t) k r := by
  obtain ⟨e',hke,hve,hre⟩ := he
  obtain ⟨q',hkq,hvq,hrq⟩ := hq
  obtain ⟨a',hka,hva,hra⟩ := ha
  obtain ⟨t',hkt,hvt,hrt⟩ := ht
  have hf' : e'.flat = true := by
    have h := congrArg Exp.flat hke
    rwa [Exp.kind,Exp.allFit,Exp.flat_map,Exp.flat_map,hf] at h
  have hkm := congrArg₂ (fun q a => Exp.mul q h a) hkq hka
  have hks := congrArg₂ (fun e t => Exp.add e p t) hke hkm
  refine ⟨(e'.add p (q'.mul h a')).add o t',congrArg₂ (fun e t => Exp.add e o t) hks hkt,?_,?_⟩
  · simp only [Exp.value,hve,hvq,hva,hvt,ok_bind,hx,hz,hk]
  · simp only [Exp.result_drop_add _ _ _ _ _ _ _ hf',hre,hrq,hra,hrt,ok_bind,hr]

/-- A level that drops at its second term. -/
theorem misses_drop_term (q : Exp α .prod) (h : High) (a : Exp α .atom) (o : Low)
    (t : Exp α .prod) : ∃ m, Misses m ((q.mul h a).term.add o t) := by
  cases o with
  | add =>
    -- 0*1+n
    refine ⟨.zero,fun n d hn hd hsn hsd => ?_⟩
    simp only [Exp.size] at hsn hsd
    have hk := BinOp.eval_add (m:=0) (n:=n) (by omega)
    rw [Nat.zero_add] at hk
    have hz : (BinOp.low .add).eval (1 : ℕ) n = .ok (1+n : ℕ) := BinOp.eval_add (by omega)
    refine (yields_self q 0 (by omega)).drop_term (yields_self a 1 (by omega))
      (yields_self t n (by omega)) (h.zero_eval Nat.one_pos) hk ?_
    rw [hz]
    exact h.zero_eval (by omega)
  | sub =>
    have hsub : ∀ n : ℕ, n < 2^62 → (BinOp.low .sub).eval (n+1 : ℕ) (1 : ℕ) = .ok (n : ℕ) := by
      intro n hn
      have he := BinOp.eval_sub (m:=n+1) (n:=1) (by omega) (by omega)
      rwa [Nat.add_sub_cancel] at he
    cases h with
    | mul =>
      -- 2*n-n
      refine ⟨.zero,fun n d hn hd hsn hsd => ?_⟩
      simp only [Exp.size] at hsn hsd
      have hx := BinOp.eval_mul (m:=2) (n:=n) (by omega)
      have hk := BinOp.eval_sub (m:=2*n) (n:=n) (by omega) (by omega)
      have hz := BinOp.eval_sub (m:=n) (n:=n) le_rfl (by omega)
      rw [show 2*n-n = n by omega] at hk
      refine (yields_self q 2 (by omega)).drop_term (yields_self a n (by omega))
        (yields_self t n (by omega)) hx hk ?_
      rw [hz,Nat.sub_self]
      rfl
    | div =>
      -- (n+1)/1-1
      refine ⟨.stuck,fun n d hn hd hsn hsd => ?_⟩
      simp only [Exp.size] at hsn hsd
      have hx := BinOp.eval_div (m:=n+1) (n:=1) Nat.one_pos (by omega)
      rw [Nat.div_one] at hx
      refine (yields_self q (n+1) (by omega)).drop_term (yields_self a 1 (by omega))
        (yields_self t 1 (by omega)) hx (hsub n (by omega)) ?_
      rw [hsub 0 (by omega)]
      rfl
    | mod =>
      -- (n+1)%(n+2)-1
      refine ⟨.zero,fun n d hn hd hsn hsd => ?_⟩
      simp only [Exp.size] at hsn hsd
      have hx := BinOp.eval_mod (m:=n+1) (n:=n+2) (by omega) (by omega)
      have hr := BinOp.eval_mod (m:=n+1) (n:=n+1) (by omega) (by omega)
      rw [Nat.mod_eq_of_lt (by omega)] at hx
      rw [Nat.mod_self] at hr
      refine (yields_self q (n+1) (by omega)).drop_term (yields_self a (n+2) (by omega))
        (yields_self t 1 (by omega)) hx (hsub n (by omega)) ?_
      rw [hsub (n+1) (by omega)]
      exact hr

/-- A level that drops at a later term. -/
theorem misses_drop_add (e : Exp α .sum) (p : Low) (q : Exp α .prod) (h : High)
    (a : Exp α .atom) (o : Low) (t : Exp α .prod) (hf : e.flat = true) :
    ∃ m, Misses m ((e.add p (q.mul h a)).add o t) := by
  have hzero : ∀ y : ℕ, y < 2^63 → (BinOp.low p).eval y (0 : ℕ) = .ok (y : ℕ) :=
    fun y hy => p.eval_zero (wrap_natCast hy)
  cases o with
  | add =>
    -- 0+0*1+n
    refine ⟨.zero,fun n d hn hd hsn hsd => ?_⟩
    simp only [Exp.size] at hsn hsd
    have hk := BinOp.eval_add (m:=0) (n:=n) (by omega)
    rw [Nat.zero_add] at hk
    have hz : (BinOp.low .add).eval (1 : ℕ) n = .ok (1+n : ℕ) := BinOp.eval_add (by omega)
    have h0 : (BinOp.high h).eval (0 : ℕ) (1+n : ℕ) = .ok (0 : ℕ) := h.zero_eval (by omega)
    refine (yields_self e 0 (by omega)).drop_add hf (yields_self q 0 (by omega))
      (yields_self a 1 (by omega)) (yields_self t n (by omega)) (h.zero_eval Nat.one_pos)
      (hzero 0 (by omega)) hk ?_
    rw [hz,ok_bind,h0]
    exact hzero 0 (by omega)
  | sub =>
    -- n+d+0*(d+1)-d
    refine ⟨.more,fun n d hn hd hsn hsd => ?_⟩
    simp only [Exp.size] at hsn hsd
    have hk := BinOp.eval_sub (m:=n+d) (n:=d) (by omega) (by omega)
    have hz := BinOp.eval_sub (m:=d+1) (n:=d) (by omega) (by omega)
    rw [Nat.add_sub_cancel] at hk
    rw [Nat.add_sub_cancel_left] at hz
    have h0 : (BinOp.high h).eval (0 : ℕ) (1 : ℕ) = .ok (0 : ℕ) := h.zero_eval Nat.one_pos
    have hx : (BinOp.high h).eval (0 : ℕ) (d+1 : ℕ) = .ok (0 : ℕ) := h.zero_eval (by omega)
    refine (yields_self e (n+d) (by omega)).drop_add hf (yields_self q 0 (by omega))
      (yields_self a (d+1) (by omega)) (yields_self t d (by omega)) hx
      (hzero (n+d) (by omega)) hk ?_
    rw [hz,ok_bind,h0]
    exact hzero (n+d) (by omega)

theorem misses_drop : ∀ (e : Exp α .sum) (o : Low) (t : Exp α .prod), e.flat = false →
    e.noDrop = true → ∃ m, Misses m (e.add o t)
  | .term (.mul q h a), o, t, _, _ => misses_drop_term q h a o t
  | .add e p (.factor a), o, t, hf, hd => by simp_all [Exp.flat,Exp.noDrop]
  | .add e p (.mul q h a), o, t, _, hd => by
    have he : e.flat = true := by
      simp only [Exp.noDrop,Bool.and_eq_true] at hd
      exact hd.1.1
    exact misses_drop_add e p q h a o t he

/-- Wherever an expression drops, some values come out wrong. -/
theorem exists_misses {l : Level} (e : Exp α l) (h : e.noDrop = false) : ∃ m, Misses m e := by
  induction e with
  | lit a => cases h
  | paren e ih =>
    obtain ⟨m,hm⟩ := ih h
    exact ⟨m,fun n d hn hd hsn hsd => (hm n d hn hd hsn hsd).paren⟩
  | factor a ih =>
    obtain ⟨m,hm⟩ := ih h
    exact ⟨m,fun n d hn hd hsn hsd => (hm n d hn hd hsn hsd).factor⟩
  | term t ih =>
    obtain ⟨m,hm⟩ := ih h
    exact ⟨m,fun n d hn hd hsn hsd => (hm n d hn hd hsn hsd).term⟩
  | mul t o a iht iha =>
    by_cases ht : t.noDrop = true
    · have ha : a.noDrop = false := by simpa [Exp.noDrop,ht] using h
      obtain ⟨m,hm⟩ := iha ha
      exact hm.mul_right t o
    · obtain ⟨m,hm⟩ := iht (Bool.eq_false_of_not_eq_true ht)
      exact ⟨m,hm.mul_left o a⟩
  | add e o t ihe iht =>
    by_cases he : e.noDrop = true
    · by_cases hf : e.flat = true
      · have ht : t.noDrop = false := by simpa [Exp.noDrop,he,hf] using h
        obtain ⟨m,hm⟩ := iht ht
        exact hm.add_right hf o
      · exact misses_drop e o t (Bool.eq_false_of_not_eq_true hf) he
    · obtain ⟨m,hm⟩ := ihe (Bool.eq_false_of_not_eq_true he)
      exact ⟨m,hm.add_left o t⟩

end

/-! ### Which expressions `num` evaluates -/

/-- A right result needs literals that are an `int` and a short text. -/
theorem fits_of_num {e : Exp Literal .sum} {v : ℤ} (h : num e.render = .ok (.int v)) :
    e.Fits ∧ e.size ≤ 100 := by
  have hs : e.size ≤ 100 := by
    by_contra hs
    exact num_ne_int (by omega) v h
  rw [num_eq_result hs] at h
  rcases hr : e.run [] with f | r
  · rw [Exp.result,hr] at h
    cases h
  · exact ⟨Exp.fits_of_run hr,hs⟩

theorem Miss.out_ne (m : Miss) : m.out 1 1 ≠ .ok (1 : ℕ) := by
  cases m <;> simp [out]

/-- The expressions with the operators and parentheses of a given one, and with literals
that are an `int` where its are, all evaluate to their value if and only if its literals
are an `int`, its operands and operators are at most a hundred and it never drops. -/
theorem num_evaluates_iff (e₀ : Exp Literal .sum) (v₀ : ℤ) (h₀ : e₀.value = .ok v₀) :
    (∀ (e : Exp Literal .sum) (v : ℤ), e.kind = e₀.kind → e.value = .ok v →
      num e.render = .ok (.int v)) ↔
    e₀.Fits ∧ e₀.size ≤ 100 ∧ e₀.noDrop = true := by
  refine ⟨fun h => ?_,fun ⟨hf,hs,hd⟩ e v hk hv => ?_⟩
  · obtain ⟨hf,hs⟩ := fits_of_num (h e₀ v₀ rfl h₀)
    refine ⟨hf,hs,?_⟩
    by_contra hd
    obtain ⟨m,hm⟩ := exists_misses e₀ (Bool.eq_false_of_not_eq_true hd)
    obtain ⟨e,hk,hv,hr⟩ := hm 1 1 Nat.one_pos Nat.one_pos (by omega) (by omega)
    have hnum := h e (1 : ℕ) (hk.trans (Exp.kind_of_fits hf).symm) hv
    rw [num_eq_result (fits_of_num hnum).2,hr] at hnum
    have hout := m.out_ne
    rcases hc : m.out 1 1 with f | w
    · rw [hc] at hnum
      cases hnum
    · rw [hc] at hnum hout
      cases hnum
      exact hout rfl
  · have hef : e.Fits := by
      rw [Exp.fits_iff_kind,hk]
      exact (Exp.fits_iff_kind e₀).mp hf
    have hes : e.size = e₀.size := by
      have h := congrArg Exp.size hk
      rwa [Exp.kind,Exp.kind,Exp.size_map,Exp.size_map] at h
    have hed : e.noDrop = e₀.noDrop := by
      have h := congrArg Exp.noDrop hk
      rwa [Exp.kind,Exp.kind,Exp.noDrop_map,Exp.noDrop_map] at h
    rw [num_eq_result (by omega),Exp.result_eq_value e hef (hed.trans hd),hv]
    rfl

/-- A literal of one digit. -/
def digit (b : UInt8) (h : isDigit b = true) : Literal where
  digits := [b]
  ne_nil := by simp
  isDigit := isDigit_single h

/-- `2+3*4`. -/
def rising : Exp Literal .sum :=
  .add (.term (.factor (.lit (digit 50 rfl)))) .add
    (.mul (.factor (.lit (digit 51 rfl))) .mul (.lit (digit 52 rfl)))

theorem num_evaluates_rising :
    (∀ (e : Exp Literal .sum) (v : ℤ), e.kind = rising.kind → e.value = .ok v →
      num e.render = .ok (.int v)) ↔
    rising.Fits ∧ rising.size ≤ 100 ∧ rising.noDrop = true :=
  num_evaluates_iff rising 14 (by decide)

/-- `2*3+1`. -/
def dropping : Exp Literal .sum :=
  .add (.term (.mul (.factor (.lit (digit 50 rfl))) .mul (.lit (digit 51 rfl)))) .add
    (.factor (.lit (digit 49 rfl)))

theorem not_num_evaluates_dropping :
    ¬∀ (e : Exp Literal .sum) (v : ℤ), e.value = .ok v → num e.render = .ok (.int v) := by
  intro h
  have h7 : dropping.value = .ok 7 := by decide
  have h8 : num dropping.render = .ok (.int 8) := by decide
  rw [h dropping 7 h7] at h8
  cases h8

end GurlCal
end RecycleBin
