import RecycleBin.GurlOrder

/-! When the calculator's order gives the value under the usual grammar: as long as no
parenthesis level has a `+` or `-` behind a `*`, `/` or `%`. Any other arrangement of
operators is wrong for some literals. -/
namespace RecycleBin
namespace GurlCal

namespace Exp
variable {α : Type}

/-- No `*`, `/` or `%` outside of parentheses. -/
def flat : {l : Level} → Exp α l → Bool
  | _, lit _ => true
  | _, paren _ => true
  | _, factor _ => true
  | _, mul _ _ _ => false
  | _, term t => t.flat
  | _, add e _ t => e.flat && t.flat

/-- No `+` or `-` behind a `*`, `/` or `%` of the same parenthesis level. -/
def noDrop : {l : Level} → Exp α l → Bool
  | _, lit _ => true
  | _, paren e => e.noDrop
  | _, factor a => a.noDrop
  | _, mul t _ a => t.noDrop && a.noDrop
  | _, term t => t.noDrop
  | _, add e _ t => e.flat && e.noDrop && t.noDrop

/-- Every literal is an `int`. -/
def Fits {l : Level} (e : Exp Literal l) : Prop := ∀ a ∈ e.lits, a.val < 2^63

/-- The operators and parentheses of an expression, and which literals are an `int`. -/
def kind {l : Level} (e : Exp Literal l) : Exp Bool l := e.map fun a => decide (a.val < 2^63)

end Exp

/-! ### Values are integers of 64 bits -/

theorem wrap_eq {v : ℤ} (h₁ : -2^63 ≤ v) (h₂ : v < 2^63) : wrap v = v := by
  rw [wrap,Int.bmod_def]
  norm_num at *
  omega

theorem wrap_natCast {n : ℕ} (h : n < 2^63) : wrap n = n := wrap_eq (by omega) (by omega)

theorem BinOp.wrap_eval {o : BinOp} {x v y : ℤ} (h : o.eval x v = .ok y) : wrap y = y := by
  rw [eval,apply] at h
  split_ifs at h <;> cases h <;> exact Int.bmod_bmod

theorem wrap_fold {v w : ℤ} {S : Waiting} (hv : wrap v = v) (h : fold v S = .ok w) :
    wrap w = w := by
  induction S generalizing v with
  | nil =>
    cases h
    exact hv
  | cons p S ih =>
    obtain ⟨y,hy,h⟩ := bind_eq_ok.mp h
    exact ih (BinOp.wrap_eval hy) h

theorem Exp.wrap_run {l : Level} {e : Exp Literal l} {S : Waiting} {r : ℤ × Waiting}
    (h : e.run S = .ok r) : wrap r.1 = r.1 := by
  induction e generalizing S r with
  | lit a =>
    simp only [run] at h
    split_ifs at h with ha
    cases h
    exact wrap_eq (by rw [Literal.val]; omega) ha
  | paren e ih =>
    obtain ⟨r₁,h₁,h⟩ := bind_eq_ok.mp h
    obtain ⟨v,hv,h⟩ := bind_eq_ok.mp h
    cases h
    exact wrap_fold (ih h₁) hv
  | factor a ih => exact ih h
  | term t ih => exact ih h
  | mul t o a _ ih | add e o t _ ih =>
    obtain ⟨r₁,-,h⟩ := bind_eq_ok.mp h
    obtain ⟨S₁,-,h⟩ := bind_eq_ok.mp h
    exact ih h

theorem Exp.fits_of_run {l : Level} {e : Exp Literal l} {S : Waiting} {r : ℤ × Waiting}
    (h : e.run S = .ok r) : e.Fits := by
  induction e generalizing S r with
  | lit a =>
    simp only [run] at h
    split_ifs at h with ha
    simpa [Fits,lits] using ha
  | paren e ih =>
    obtain ⟨r₁,h₁,-⟩ := bind_eq_ok.mp h
    exact ih h₁
  | factor a ih => exact ih h
  | term t ih => exact ih h
  | mul t o a iht iha | add e o t iht iha =>
    obtain ⟨r₁,h₁,h⟩ := bind_eq_ok.mp h
    obtain ⟨S₁,-,h₂⟩ := bind_eq_ok.mp h
    exact fun b hb => (List.mem_append.mp hb).elim (iht h₁ b) (iha h₂ b)

/-! ### The calculator's order, operator by operator -/

theorem Exp.run_atom (a : Exp Literal .atom) (S : Waiting) :
    a.run S = a.result.map fun v => (v,S) := by
  cases a with
  | lit a =>
    simp only [result,run]
    split_ifs <;> rfl
  | paren e =>
    simp only [result,run,bind_assoc]
    rcases e.run [] with f | r
    · rfl
    · simp only [ok_bind]
      rcases fold r.1 r.2 with f | v <;> rfl

theorem Exp.result_paren (e : Exp Literal .sum) : e.paren.result = e.result := by
  simp only [result,run,bind_assoc]
  rcases e.run [] with f | r
  · rfl
  · simp only [ok_bind]
    rcases fold r.1 r.2 with f | v <;> rfl

/-- The last waiting operator, if any, is a `+` or `-`. -/
def Clear (S : Waiting) : Prop := ∀ p ∈ S.head?, p.1.isHigh = false

theorem pushVal_high {S : Waiting} (hS : Clear S) (o : High) (v : ℤ) :
    pushVal (.high o) v S = .ok ((.high o,v)::S) := by
  rcases S with _ | ⟨⟨p,x⟩,S⟩
  · rfl
  · have hp : p.isHigh = false := hS _ rfl
    rw [pushVal,if_neg (by rw [hp]; simp [BinOp.isHigh])]

theorem Exp.result_of_run_mul {t : Exp Literal .prod} {o : High} {a : Exp Literal .atom}
    (h : (t.mul o a).run [] =
      t.result >>= fun u => a.result >>= fun v => .ok (v,[(.high o,u)])) :
    (t.mul o a).result =
      t.result >>= fun u => a.result >>= fun v => (BinOp.high o).eval u v := by
  rw [result,h]
  rcases t.result with f | u
  · rfl
  rcases a.result with f | v
  · rfl
  simp only [ok_bind,fold]
  rcases (BinOp.high o).eval u v with f | y <;> rfl

/-- A product keeps its last operator waiting. -/
theorem Exp.run_mul : ∀ (t : Exp Literal .prod) (o : High) (a : Exp Literal .atom) (S : Waiting),
    Clear S → (t.mul o a).run S =
      t.result >>= fun u => a.result >>= fun v => .ok (v,(.high o,u)::S)
  | factor b, o, a, S, hS => by
    change (b.run S >>= fun r => pushVal (.high o) r.1 r.2 >>= fun S => a.run S) =
      b.result >>= _
    rw [run_atom]
    rcases b.result with f | u
    · rfl
    · simp only [Except.map,ok_bind,pushVal_high hS,run_atom]
      rcases a.result with f | v <;> rfl
  | mul t o' b, o, a, S, hS => by
    change ((t.mul o' b).run S >>= fun r => pushVal (.high o) r.1 r.2 >>= fun S => a.run S) = _
    rw [run_mul t o' b S hS,result_of_run_mul (run_mul t o' b [] (by simp [Clear]))]
    rcases t.result with f | u
    · rfl
    rcases b.result with f | v
    · rfl
    simp only [ok_bind,pushVal,BinOp.isHigh,if_true]
    rcases (BinOp.high o').eval u v with f | y
    · rfl
    simp only [ok_bind,run_atom]
    rcases a.result with f | w <;> rfl

theorem Exp.result_mul (t : Exp Literal .prod) (o : High) (a : Exp Literal .atom) :
    (t.mul o a).result =
      t.result >>= fun u => a.result >>= fun v => (BinOp.high o).eval u v :=
  result_of_run_mul (run_mul t o a [] (by simp [Clear]))

/-- A product is done before what waits in front of it. -/
theorem Exp.fold_prod (t : Exp Literal .prod) {S : Waiting} (hS : Clear S) :
    (t.run S >>= fun r => fold r.1 r.2) = t.result >>= fun v => fold v S := by
  cases t with
  | factor a =>
    change (a.run S >>= fun r => fold r.1 r.2) = a.result >>= fun v => fold v S
    rw [run_atom]
    rcases a.result with f | v <;> rfl
  | mul t o a =>
    rw [run_mul t o a S hS,result_mul]
    rcases t.result with f | u
    · rfl
    rcases a.result with f | v <;> rfl

theorem clear_of_pushVal {o : Low} {v : ℤ} {S S' : Waiting} (h : pushVal (.low o) v S = .ok S') :
    Clear S' := by
  rcases S with _ | ⟨⟨p,x⟩,S⟩
  · cases h
    simp [Clear,BinOp.isHigh]
  · rw [pushVal] at h
    split_ifs at h
    · obtain ⟨y,-,hy⟩ := bind_eq_ok.mp h
      cases hy
      simp [Clear,BinOp.isHigh]
    · cases h
      simp [Clear,BinOp.isHigh]

/-- A term is added to what stands in front of it only where no operator waits. -/
theorem Exp.result_add (e : Exp Literal .sum) (o : Low) (t : Exp Literal .prod) :
    (e.add o t).result = e.run [] >>= fun r => pushVal (.low o) r.1 r.2 >>= fun S =>
      t.result >>= fun v => fold v S := by
  change ((e.run [] >>= fun r => pushVal (.low o) r.1 r.2 >>= fun S => t.run S) >>=
    fun r => fold r.1 r.2) = _
  rw [bind_assoc]
  refine bind_congr fun r => ?_
  rw [bind_assoc]
  rcases h : pushVal (.low o) r.1 r.2 with f | S
  · rfl
  · exact fold_prod t (clear_of_pushVal h)

/-- In a flat sum each operator is done before the next one waits. -/
theorem Exp.pushVal_flat : ∀ (e : Exp Literal .sum) (o : Low), e.flat = true →
    (e.run [] >>= fun r => pushVal (.low o) r.1 r.2) = e.result.map fun y => [(.low o,y)]
  | term (factor a), o, _ => by
    change (a.run [] >>= fun r => pushVal (.low o) r.1 r.2) = a.result.map _
    rw [run_atom]
    rcases a.result with f | v <;> rfl
  | add e o' (factor a), o, h => by
    have he : e.flat = true := by simpa [flat] using h
    have ih := pushVal_flat e o' he
    rw [result_add]
    simp only [run,Run.binary]
    rw [← bind_assoc,← bind_assoc,ih]
    change _ = Except.map _ (e.result.map _ >>= fun S => a.result >>= _)
    rcases e.result with f | x
    · rfl
    simp only [Except.map,ok_bind,run_atom]
    rcases a.result with f | v
    · rfl
    simp only [ok_bind,pushVal,fold,BinOp.isHigh,if_true]
    rcases (BinOp.low o').eval x v with f | y <;> rfl
  | add e o' (mul t o'' a), o, h => by simp [flat] at h

theorem Exp.result_add_flat (e : Exp Literal .sum) (o : Low) (t : Exp Literal .prod)
    (h : e.flat = true) : (e.add o t).result =
      e.result >>= fun x => t.result >>= fun v => (BinOp.low o).eval x v := by
  rw [result_add,← bind_assoc,pushVal_flat e o h]
  rcases e.result with f | x
  · rfl
  simp only [Except.map,ok_bind]
  rcases t.result with f | v
  · rfl
  simp only [ok_bind,fold]
  rcases (BinOp.low o).eval x v with f | y <;> rfl

/-- Without a drop the calculator's order is the usual one. -/
theorem Exp.result_eq_value {l : Level} (e : Exp Literal l) (hf : e.Fits) (h : e.noDrop = true) :
    e.result = e.value := by
  induction e with
  | lit a =>
    have ha : a.val < 2^63 := hf a (List.mem_singleton_self a)
    simp only [result,run,if_pos ha,value]
    rfl
  | paren e ih => rw [result_paren,value,ih hf h]
  | factor a ih => exact ih hf h
  | term t ih => exact ih hf h
  | mul t o a iht iha =>
    have hd : t.noDrop = true ∧ a.noDrop = true := by simpa [noDrop] using h
    rw [result_mul,value,iht (fun b hb => hf b (List.mem_append_left _ hb)) hd.1,
      iha (fun b hb => hf b (List.mem_append_right _ hb)) hd.2]
  | add e o t ihe iht =>
    have hd : (e.flat = true ∧ e.noDrop = true) ∧ t.noDrop = true := by simpa [noDrop] using h
    rw [result_add_flat e o t hd.1.1,value,
      ihe (fun b hb => hf b (List.mem_append_left _ hb)) hd.1.2,
      iht (fun b hb => hf b (List.mem_append_right _ hb)) hd.2]

end GurlCal
end RecycleBin
