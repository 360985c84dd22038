import RecycleBin.GurlPostfix

/-! The order in which the calculator evaluates an expression, and its results. Within
a parenthesis the state is the last value and the waiting operators with their left
operands: an operator of the priority of the last one is done after it, an operator of
the other priority before it. -/
namespace RecycleBin
namespace GurlCal

/-- The waiting operators of a parenthesis with their left operands, the last first. -/
abbrev Waiting := List (BinOp × ℤ)

/-- An operator arrives behind a value. -/
def pushVal (o : BinOp) : ℤ → Waiting → Except Fault Waiting
  | v, [] => .ok [(o,v)]
  | v, (p,x)::S =>
    if p.isHigh = o.isHigh then do
      let y ← p.eval x v
      .ok ((o,y)::S)
    else .ok ((o,v)::(p,x)::S)

/-- The end of a parenthesis: the waiting operators are done from the last one on. -/
def fold : ℤ → Waiting → Except Fault ℤ
  | v, [] => .ok v
  | v, (p,x)::S => do
    let y ← p.eval x v
    fold y S

/-- What reading an operand does to the state. -/
abbrev Run := Waiting → Except Fault (ℤ × Waiting)

def Run.binary (o : BinOp) (f g : Run) : Run := fun S => do
  let r ← f S
  let S ← pushVal o r.1 r.2
  g S

/-- The calculator's run over an expression. -/
def Exp.run : {l : Level} → Exp Literal l → Run
  | _, lit a => fun S => if a.val < 2^63 then .ok (a.val,S) else .error .panic
  | _, paren e => fun S => do
    let r ← e.run []
    let v ← fold r.1 r.2
    .ok (v,S)
  | _, factor a => a.run
  | _, mul t o a => .binary (.high o) t.run a.run
  | _, term t => t.run
  | _, add e o t => .binary (.low o) e.run t.run

/-- The value of an expression in the calculator's order. -/
def Exp.result {l : Level} (e : Exp Literal l) : Except Fault ℤ := do
  let r ← e.run []
  fold r.1 r.2

/-! ### The postfix code runs in this order -/

def ops (S : Waiting) : List BinOp := S.map Prod.fst

def vals (S : Waiting) : List Any := S.map fun p => .int p.2

theorem calStep_binOp (o : BinOp) (x v : ℤ) (st : List Any) :
    calStep o.any (.int v::.int x::st) = (o.eval x v).map fun y => .int y::st := by
  have hmem : o.byte ∈ [43,45,42,47,37] := by rcases o with (_ | _) | (_ | _ | _) <;> decide
  rw [BinOp.any,calStep,if_pos hmem,BinOp.eval]
  simp only [Any.toInt,ok_bind]
  rcases apply o.byte x v with f | y <;> rfl

theorem Literal.atoi_digits (a : Literal) :
    atoi a.digits = if a.val < 2^63 then some a.val else none := by
  have hall : a.digits.all GurlCal.isDigit = true := List.all_eq_true.mpr a.isDigit
  unfold atoi
  split
  rename_i neg digits hd
  have hs : (neg,digits) = (false,a.digits) := by
    rw [← hd]
    split
    · rename_i t ht
      have h := a.isDigit 45 (by rw [ht]; exact List.mem_cons_self)
      cases h
    · rename_i t ht
      have h := a.isDigit 43 (by rw [ht]; exact List.mem_cons_self)
      cases h
    · rfl
  cases hs
  rw [if_pos ⟨a.ne_nil,hall⟩]
  simp [Literal.val]

/-- The postfix code `f` has the run `g` as its effect on the postfix machine. -/
structure Computes (f : Emit) (g : Run) : Prop where
  cal : ∀ S st, calList (f (ops S)).1 (vals S++st) =
    (g S).map fun r => .int r.1::(vals r.2++st)
  waiting : ∀ S r, g S = .ok r → (f (ops S)).2 = ops r.2

theorem pushOp_cal (o : BinOp) (v : ℤ) (S : Waiting) (st : List Any) :
    calList (pushOp o (ops S)).1 (.int v::(vals S++st)) =
      (pushVal o v S).map fun S' => vals S'++st := by
  rcases S with _ | ⟨⟨p,x⟩,S⟩
  · rfl
  · by_cases h : p.isHigh = o.isHigh
    · simp only [ops,vals,List.map_cons,pushOp,pushVal,if_pos h,List.cons_append,calList,
        calStep_binOp]
      rcases p.eval x v with f | y <;> rfl
    · simp only [ops,vals,List.map_cons,pushOp,pushVal,if_neg h]
      rfl

theorem pushOp_waiting {o : BinOp} {v : ℤ} {S S' : Waiting} (h : pushVal o v S = .ok S') :
    (pushOp o (ops S)).2 = ops S' := by
  rcases S with _ | ⟨⟨p,x⟩,S⟩
  · cases h
    rfl
  · by_cases hp : p.isHigh = o.isHigh
    · rw [pushVal,if_pos hp] at h
      obtain ⟨y,-,hy⟩ := bind_eq_ok.mp h
      cases hy
      simp [ops,pushOp,hp]
    · rw [pushVal,if_neg hp] at h
      cases h
      simp [ops,pushOp,hp]

theorem fold_cal (v : ℤ) (S : Waiting) (st : List Any) :
    calList ((ops S).map BinOp.any) (.int v::(vals S++st)) = (fold v S).map fun w => .int w::st := by
  induction S generalizing v with
  | nil => rfl
  | cons p S ih =>
    obtain ⟨p,x⟩ := p
    simp only [ops,vals,List.map_cons,List.cons_append,calList,calStep_binOp,fold]
    rcases p.eval x v with f | y
    · rfl
    · exact ih y

theorem Computes.binary {f g : Emit} {f' g' : Run} (o : BinOp) (hf : Computes f f')
    (hg : Computes g g') : Computes (.binary o f g) (.binary o f' g') := by
  refine ⟨fun S st => ?_,fun S r hr => ?_⟩
  · simp only [Emit.binary,Run.binary,calList_append,hf.cal]
    rcases h₁ : f' S with e | ⟨v,S₁⟩
    · rfl
    · rw [hf.waiting S _ h₁]
      change calList (_++_) (.int v::(vals S₁++st)) = _
      rw [calList_append,pushOp_cal]
      rcases h₂ : pushVal o v S₁ with e | S₂
      · simp [h₂]
        rfl
      · rw [pushOp_waiting h₂]
        simp only [ok_bind,h₂]
        exact hg.cal S₂ st
  · obtain ⟨⟨v,S₁⟩,h₁,h⟩ := bind_eq_ok.mp hr
    obtain ⟨S₂,h₂,h₃⟩ := bind_eq_ok.mp h
    simp only [Emit.binary]
    rw [hf.waiting S _ h₁,pushOp_waiting h₂,hg.waiting S₂ r h₃]

theorem Exp.computes {l : Level} (e : Exp Literal l) : Computes e.emit e.run := by
  induction e with
  | lit a =>
    refine ⟨fun S st => ?_,fun S r hr => ?_⟩
    · simp only [emit,run,calList,calStep,a.atoi_digits]
      split_ifs <;> rfl
    · simp only [run] at hr
      split_ifs at hr
      cases hr
      rfl
  | paren e ih =>
    refine ⟨fun S st => ?_,fun S r hr => ?_⟩
    · have h := ih.cal [] (vals S++st)
      simp only [emit,run,calList_append]
      change calList (e.emit (ops [])).1 (vals []++(vals S++st)) >>= _ = _
      rw [h]
      rcases h₁ : e.run [] with f | ⟨v,S₁⟩
      · rfl
      · have h₂ := ih.waiting [] _ h₁
        change calList (List.map BinOp.any (e.emit (ops [])).2) _ = _
        rw [h₂]
        change calList _ (.int v::(vals S₁++(vals S++st))) = _
        rw [fold_cal,ok_bind]
        rcases fold v S₁ with f | w <;> rfl
    · obtain ⟨r₁,-,h⟩ := bind_eq_ok.mp hr
      obtain ⟨v,-,h⟩ := bind_eq_ok.mp h
      cases h
      rfl
  | factor a ih => exact ih
  | term t ih => exact ih
  | mul t o a iht iha => exact iht.binary _ iha
  | add e o t ihe iht => exact ihe.binary _ iht

theorem calList_code (e : Exp Literal .sum) :
    calList e.code [] = e.result.map fun v => [.int v] := by
  have h := e.computes.cal [] []
  rw [Exp.code,calList_append]
  change calList (e.emit (ops [])).1 (vals []++[]) >>= _ = _
  rw [h,Exp.result]
  rcases h₁ : e.run [] with f | ⟨v,S⟩
  · rfl
  · have h₂ := e.computes.waiting [] _ h₁
    change calList (List.map BinOp.any (e.emit (ops [])).2) (.int v::(vals S++[])) = _
    rw [h₂,fold_cal,ok_bind]

theorem Exp.code_length (e : Exp Literal .sum) : e.code.length = e.size := by
  rw [code,List.length_append,List.length_map,e.emit_length,List.length_nil,Nat.zero_add]

/-- Up to a hundred operands and operators `num` returns the value in this order. -/
theorem num_eq_result {e : Exp Literal .sum} (h : e.size ≤ 100) :
    num e.render = e.result.map .int := by
  rw [num_render,List.take_of_length_le (by rw [e.code_length]; exact h),calList_code]
  rcases e.result with f | v <;> rfl

/-! ### Longer expressions -/

/-- Each value of the postfix code changes the parity of the stack's height. -/
theorem calStep_parity {v : Any} {st st' : List Any} (hv : v.IsToken)
    (h : calStep v st = .ok st') : st'.length%2 = (st.length+1)%2 := by
  cases v with
  | nil => cases hv
  | int n => cases hv
  | str s =>
    rw [calStep] at h
    split at h <;> cases h
    rfl
  | byte b =>
    unfold calStep at h
    dsimp only at h
    split_ifs at h
    split at h
    · obtain ⟨n₁,-,h⟩ := bind_eq_ok.mp h
      obtain ⟨n₂,-,h⟩ := bind_eq_ok.mp h
      obtain ⟨n,-,h⟩ := bind_eq_ok.mp h
      cases h
      simp only [List.length_cons]
      omega
    · cases h

theorem calList_parity {out st st' : List Any} (ho : ∀ v ∈ out, v.IsToken)
    (h : calList out st = .ok st') : st'.length%2 = (st.length+out.length)%2 := by
  induction out generalizing st with
  | nil =>
    cases h
    rfl
  | cons v out ih =>
    obtain ⟨st₁,h₁,h₂⟩ := bind_eq_ok.mp h
    have h₃ := calStep_parity (ho v List.mem_cons_self) h₁
    have h₄ := ih (fun w hw => ho w (List.mem_cons_of_mem _ hw)) h₂
    rw [List.length_cons]
    omega

/-- Beyond a hundred the queue cuts the postfix code off, and a hundred values never leave
one on the stack. -/
theorem num_ne_int {e : Exp Literal .sum} (h : 100 < e.size) (v : ℤ) :
    num e.render ≠ .ok (.int v) := by
  intro hv
  rw [num_render] at hv
  obtain ⟨st,hst,hv⟩ := bind_eq_ok.mp hv
  have htok : ∀ v ∈ e.code.take 100, v.IsToken := fun v hv =>
    isToken_append (e.emit_isToken []) (isToken_map_any _) v (List.mem_of_mem_take hv)
  have hpar := calList_parity htok hst
  rw [List.length_take,e.code_length,min_eq_left h.le] at hpar
  split_ifs at hv with h1
  have hnil : st = [] := List.length_eq_zero_iff.mp (by simp at hpar; omega)
  rw [hnil] at hv
  cases hv

end GurlCal
end RecycleBin
