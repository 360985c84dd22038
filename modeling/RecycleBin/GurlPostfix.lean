import RecycleBin.GurlExpr

/-! From the tokens of an expression to the postfix code in the output queue, and from
there to the value that `num` returns. Both passes keep, for each open parenthesis, the
operators that still wait for their right operand; the first pass keeps their bytes,
the second also has their left operands on its stack. -/
namespace RecycleBin
namespace GurlCal
open GurlQueue (Queue Rep)

/-! ### Postfix code -/

/-- The operator as a value of the queue or the stack. -/
def BinOp.any (o : BinOp) : Any := .byte o.byte

theorem BinOp.priority (o : BinOp) : priority o.byte = if o.isHigh then 2 else 1 := by
  rcases o with (_ | _) | (_ | _ | _) <;> rfl

theorem BinOp.byte_ne (o : BinOp) : o.byte ≠ 40 ∧ o.byte ≠ 41 := by
  rcases o with (_ | _) | (_ | _ | _) <;> decide

/-- An operator arrives at the waiting ones: only one of its own priority leaves. -/
def pushOp (o : BinOp) : List BinOp → List Any × List BinOp
  | [] => ([],[o])
  | p::P => if p.isHigh = o.isHigh then ([p.any],o::P) else ([],o::p::P)

/-- Postfix code and the operators left waiting, from those that wait before. -/
abbrev Emit := List BinOp → List Any × List BinOp

/-- The left operand, the operator and the right operand one after the other. -/
def Emit.binary (o : BinOp) (f g : Emit) : Emit := fun P =>
  let r := f P
  let s := pushOp o r.2
  let u := g s.2
  (r.1++(s.1++u.1),u.2)

/-- The postfix code of an expression. -/
def Exp.emit : {l : Level} → Exp Literal l → Emit
  | _, lit a => fun P => ([.str a.digits],P)
  | _, paren e => fun P => ((e.emit []).1++(e.emit []).2.map BinOp.any,P)
  | _, factor a => a.emit
  | _, mul t o a => .binary (.high o) t.emit a.emit
  | _, term t => t.emit
  | _, add e o t => .binary (.low o) e.emit t.emit

theorem pushOp_length (o : BinOp) (P : List BinOp) :
    (pushOp o P).1.length+(pushOp o P).2.length = P.length+1 := by
  rcases P with _ | ⟨p,P⟩
  · rfl
  · rw [pushOp]
    split_ifs
    · exact Nat.add_comm _ _
    · simp

theorem Emit.binary_length {f g : Emit} {m n : ℕ} (o : BinOp)
    (hf : ∀ P, (f P).1.length+(f P).2.length = P.length+m)
    (hg : ∀ P, (g P).1.length+(g P).2.length = P.length+n) (P : List BinOp) :
    (binary o f g P).1.length+(binary o f g P).2.length = P.length+(m+1+n) := by
  have h₁ := hf P
  have h₂ := pushOp_length o (f P).2
  have h₃ := hg (pushOp o (f P).2).2
  simp only [binary,List.length_append]
  omega

/-- Every literal and every operator is emitted once. -/
theorem Exp.emit_length {l : Level} (e : Exp Literal l) (P : List BinOp) :
    (e.emit P).1.length+(e.emit P).2.length = P.length+e.size := by
  induction e generalizing P with
  | lit a => exact Nat.add_comm _ _
  | paren e ih =>
    have h := ih []
    simp only [emit,size,List.length_append,List.length_map,List.length_nil] at h ⊢
    omega
  | factor a ih => exact ih P
  | term t ih => exact ih P
  | mul t o a iht iha => exact Emit.binary_length _ iht iha P
  | add e o t ihe iht => exact Emit.binary_length _ ihe iht P

/-- A value of the output queue of `ToSuffix`. -/
def Any.IsToken : Any → Prop
  | .byte _ => True
  | .str _ => True
  | _ => False

theorem BinOp.isToken (o : BinOp) : o.any.IsToken := trivial

theorem isToken_map_any (P : List BinOp) : ∀ v ∈ P.map BinOp.any, v.IsToken := by
  simp [BinOp.isToken]

theorem isToken_append {a b : List Any} (ha : ∀ v ∈ a, v.IsToken) (hb : ∀ v ∈ b, v.IsToken) :
    ∀ v ∈ a++b, v.IsToken := fun v hv => (List.mem_append.mp hv).elim (ha v) (hb v)

theorem pushOp_isToken (o : BinOp) (P : List BinOp) : ∀ v ∈ (pushOp o P).1, v.IsToken := by
  rcases P with _ | ⟨p,P⟩
  · simp [pushOp]
  · rw [pushOp]
    split_ifs <;> simp [BinOp.isToken]

theorem Exp.emit_isToken {l : Level} (e : Exp Literal l) (P : List BinOp) :
    ∀ v ∈ (e.emit P).1, v.IsToken := by
  induction e generalizing P with
  | lit a => simp [emit,Any.IsToken]
  | paren e ih => exact isToken_append (ih []) (isToken_map_any _)
  | factor a ih => exact ih P
  | term t ih => exact ih P
  | mul t o a iht iha => exact isToken_append (iht P) (isToken_append (pushOp_isToken _ _) (iha _))
  | add e o t ihe iht => exact isToken_append (ihe P) (isToken_append (pushOp_isToken _ _) (iht _))

/-! ### `ToSuffix` -/

/-- The output queue after `out` was put: what does not fit is lost. -/
def Outputs (q : Queue Any) (out : List Any) : Prop := Rep 100 q (out.take 100)

theorem outputs_new : Outputs exprNew.output [] := GurlQueue.rep_queueNew 100

theorem Outputs.put {q : Queue Any} {out : List Any} (h : Outputs q out) (v : Any) :
    ∃ r, GurlQueue.put q v = .ok r ∧ Outputs r.2 (out++[v]) := by
  by_cases hl : out.length < 100
  · have ht : out.take 100 = out := List.take_of_length_le (by omega)
    obtain ⟨q',hq,hr⟩ := Rep.put h v (by rw [ht]; exact hl)
    refine ⟨_,hq,?_⟩
    rw [ht] at hr
    rwa [Outputs,List.take_of_length_le (by simp; omega)]
  · have ht : (out.take 100).length = 100 := by
      rw [List.length_take]
      omega
    refine ⟨_,by rw [GurlQueue.put,if_pos (h.full_iff.mpr ht)],?_⟩
    change Rep 100 q ((out++[v]).take 100)
    rw [List.take_append_of_le_length (by omega)]
    exact h

/-- The bottom of the operator stack below the waiting operators of the current
parenthesis. -/
def Bottom (st : List Any) : Prop := st = [] ∨ ∃ st', st = .byte 40::st'

/-- The state of `ToSuffix` behind the waiting operators `P` above `st`. -/
structure Suffix (e : Expr) (P : List BinOp) (st : List Any) (out : List Any) : Prop where
  operator : e.operator = P.map BinOp.any++st
  output : Outputs e.output out

theorem Suffix.put {e : Expr} {P : List BinOp} {st out : List Any} (h : Suffix e P st out)
    (v : Any) : ∃ e', e.put v = .ok e' ∧ Suffix e' P st (out++[v]) := by
  obtain ⟨r,hr,ho⟩ := h.output.put v
  refine ⟨{ e with output := r.2 },by rw [Expr.put,hr]; rfl,?_⟩
  exact ⟨h.operator,ho⟩

theorem isOperator_of_isDigit {c : UInt8} (h : isDigit c = true) : isOperator c = false := by
  simp only [isDigit,Bool.and_eq_true,decide_eq_true_eq] at h
  simp only [isOperator,decide_eq_false_iff_not,List.mem_cons,List.not_mem_nil,or_false]
  rintro (rfl | rfl | rfl | rfl | rfl | rfl | rfl) <;> revert h <;> decide

/-- A literal goes to the output queue. -/
theorem suffixStep_literal (a : Literal) {e : Expr} {P : List BinOp} {st out : List Any}
    (h : Suffix e P st out) :
    ∃ e', suffixStep e a.digits = .ok e' ∧ Suffix e' P st (out++[.str a.digits]) := by
  obtain ⟨e',he,hs⟩ := h.put (.str a.digits)
  refine ⟨e',?_,hs⟩
  rw [← he]
  unfold suffixStep
  split
  · rename_i c hc
    have hd : isDigit c = true := a.isDigit c (by rw [hc]; exact List.mem_singleton_self c)
    rw [isOperator_of_isDigit hd,hc]
    rfl
  · rfl

/-- An opening parenthesis is pushed whatever waits. -/
theorem suffixStep_open {e : Expr} {P : List BinOp} {st out : List Any} (hst : Bottom st)
    (h : Suffix e P st out) :
    ∃ e', suffixStep e [40] = .ok e' ∧ Suffix e' [] (.byte 40::(P.map BinOp.any++st)) out := by
  refine ⟨e.push (.byte 40),?_,by rw [← h.operator]; rfl,h.output⟩
  unfold suffixStep
  rw [h.operator]
  rcases P with _ | ⟨p,P⟩
  · rcases hst with rfl | ⟨st',rfl⟩ <;> rfl
  · simp [isOperator,BinOp.any,Any.toByte,priority]

/-- The waiting operators of a pair of parentheses leave at its end. -/
theorem closeParen_eq {q : Queue Any} {out : List Any} (P : List BinOp) (st : List Any)
    (h : Outputs q out) :
    ∃ e', closeParen (P.map BinOp.any++.byte 40::st) q = .ok e' ∧ e'.operator = st ∧
      Outputs e'.output (out++P.map BinOp.any) := by
  induction P generalizing q out with
  | nil => exact ⟨⟨st,q⟩,rfl,rfl,by simpa using h⟩
  | cons p P ih =>
    obtain ⟨r,hr,ho⟩ := h.put p.any
    obtain ⟨e',he,hst,hout⟩ := ih ho
    refine ⟨e',?_,hst,by simpa using hout⟩
    simp only [List.map_cons,List.cons_append,closeParen,BinOp.any,Any.toByte,ok_bind,
      if_neg p.byte_ne.1]
    rw [show Any.byte p.byte = p.any from rfl,hr,ok_bind,he]

theorem suffixStep_close {e : Expr} {P Q : List BinOp} {st out : List Any}
    (h : Suffix e Q (.byte 40::(P.map BinOp.any++st)) out) :
    ∃ e', suffixStep e [41] = .ok e' ∧ Suffix e' P st (out++Q.map BinOp.any) := by
  obtain ⟨e',he,hst,hout⟩ := closeParen_eq Q (P.map BinOp.any++st) h.output
  refine ⟨e',?_,hst,hout⟩
  unfold suffixStep
  rw [← he,h.operator]
  rcases Q <;> rfl

/-- An operator takes the waiting one off if it has the same priority. -/
theorem suffixStep_binOp (o : BinOp) {e : Expr} {P : List BinOp} {st out : List Any}
    (hst : Bottom st) (h : Suffix e P st out) :
    ∃ e', suffixStep e [o.byte] = .ok e' ∧
      Suffix e' (pushOp o P).2 st (out++(pushOp o P).1) := by
  have hpush : suffixStep e [o.byte] = .ok (e.push o.any) → (pushOp o P) = ([],o::P) →
      ∃ e', suffixStep e [o.byte] = .ok e' ∧ Suffix e' (pushOp o P).2 st (out++(pushOp o P).1) := by
    intro hs hp
    refine ⟨_,hs,?_,?_⟩
    · rw [hp,Expr.push,h.operator]
      rfl
    · rw [hp,List.append_nil]
      exact h.output
  have hlt : priority o.byte < 3 := by
    rw [o.priority]
    split_ifs <;> decide
  rcases P with _ | ⟨p,P⟩
  · -- Below the operators of this level there is nothing or a parenthesis.
    refine hpush ?_ rfl
    unfold suffixStep
    rw [h.operator]
    rcases hst with rfl | ⟨st',rfl⟩
    · simp [o.isOperator,BinOp.any]
    · have h3 : priority 40 = 3 := rfl
      simp [o.isOperator,o.byte_ne.2,Any.toByte,h3,BinOp.any]
      omega
  · by_cases heq : p.isHigh = o.isHigh
    · obtain ⟨r,hr,ho⟩ := h.output.put p.any
      refine ⟨⟨o.any::(P.map BinOp.any++st),r.2⟩,?_,?_,?_⟩
      · unfold suffixStep
        rw [h.operator]
        simp [o.isOperator,o.byte_ne.1,o.byte_ne.2,Any.toByte,BinOp.priority,heq,Expr.put,
          Expr.push,BinOp.any] at hr ⊢
        rw [hr]
        rfl
      · rw [pushOp,if_pos heq]
        rfl
      · rw [pushOp,if_pos heq]
        exact ho
    · refine hpush ?_ (by rw [pushOp,if_neg heq])
      have hne : priority o.byte ≠ priority p.byte := by
        rw [o.priority,p.priority]
        split_ifs <;> simp_all
      unfold suffixStep
      rw [h.operator]
      simp [o.isOperator,o.byte_ne.2,Any.toByte,hne,BinOp.any]

theorem suffixLoop_append (ts us : List Bytes) (e : Expr) :
    suffixLoop (ts++us) e = suffixLoop ts e >>= suffixLoop us := by
  induction ts generalizing e with
  | nil => rfl
  | cons t ts ih =>
    rw [List.cons_append,suffixLoop,suffixLoop,bind_assoc]
    exact bind_congr fun e' => ih e'

theorem suffixLoop_cons_ok {t : Bytes} {e e' : Expr} (h : suffixStep e t = .ok e')
    (ts : List Bytes) : suffixLoop (t::ts) e = suffixLoop ts e' := by
  rw [suffixLoop,h,ok_bind]

/-- The loop over the tokens of a binary operation, from the loops over its operands. -/
theorem Emit.suffixLoop_binary (o : BinOp) {f g : Emit} {ts us : List Bytes} {st : List Any}
    (hst : Bottom st)
    (hf : ∀ e P out, Suffix e P st out →
      ∃ e', suffixLoop ts e = .ok e' ∧ Suffix e' (f P).2 st (out++(f P).1))
    (hg : ∀ e P out, Suffix e P st out →
      ∃ e', suffixLoop us e = .ok e' ∧ Suffix e' (g P).2 st (out++(g P).1))
    (e : Expr) (P : List BinOp) (out : List Any) (h : Suffix e P st out) :
    ∃ e', suffixLoop (ts++[o.byte]::us) e = .ok e' ∧
      Suffix e' (binary o f g P).2 st (out++(binary o f g P).1) := by
  obtain ⟨e₁,he₁,h₁⟩ := hf e P out h
  obtain ⟨e₂,he₂,h₂⟩ := suffixStep_binOp o hst h₁
  obtain ⟨e₃,he₃,h₃⟩ := hg e₂ _ _ h₂
  refine ⟨e₃,?_,by simpa [binary] using h₃⟩
  rw [suffixLoop_append,he₁,ok_bind,suffixLoop_cons_ok he₂,he₃]

/-- `ToSuffix` emits the postfix code of an expression. -/
theorem suffixLoop_tokens {l : Level} (x : Exp Literal l) {st : List Any} (hst : Bottom st)
    (e : Expr) (P : List BinOp) (out : List Any) (h : Suffix e P st out) :
    ∃ e', suffixLoop x.tokens e = .ok e' ∧ Suffix e' (x.emit P).2 st (out++(x.emit P).1) := by
  induction x generalizing st e P out with
  | lit a =>
    obtain ⟨e',he,hs⟩ := suffixStep_literal a h
    exact ⟨e',by rw [Exp.tokens,suffixLoop_cons_ok he]; rfl,hs⟩
  | paren x ih =>
    obtain ⟨e₁,he₁,h₁⟩ := suffixStep_open hst h
    obtain ⟨e₂,he₂,h₂⟩ := ih (.inr ⟨_,rfl⟩) e₁ [] out h₁
    obtain ⟨e₃,he₃,h₃⟩ := suffixStep_close h₂
    refine ⟨e₃,?_,by simpa [Exp.emit] using h₃⟩
    rw [Exp.tokens,List.cons_append,suffixLoop_cons_ok he₁,suffixLoop_append,he₂,ok_bind,
      suffixLoop_cons_ok he₃]
    rfl
  | factor a ih => exact ih hst e P out h
  | term t ih => exact ih hst e P out h
  | mul t o a iht iha => exact Emit.suffixLoop_binary _ hst (iht hst) (iha hst) e P out h
  | add x o t ihx iht => exact Emit.suffixLoop_binary _ hst (ihx hst) (iht hst) e P out h

theorem drain_eq {q : Queue Any} {out : List Any} (P : List BinOp) (h : Outputs q out) :
    ∃ q', drain (P.map BinOp.any) q = .ok ⟨[],q'⟩ ∧ Outputs q' (out++P.map BinOp.any) := by
  induction P generalizing q out with
  | nil => exact ⟨q,rfl,by simpa using h⟩
  | cons p P ih =>
    obtain ⟨r,hr,ho⟩ := h.put p.any
    obtain ⟨q',hq,hout⟩ := ih ho
    refine ⟨q',?_,by simpa using hout⟩
    rw [List.map_cons,drain,hr,ok_bind,hq]

/-- The whole postfix code of a text. -/
def Exp.code (x : Exp Literal .sum) : List Any := (x.emit []).1++(x.emit []).2.map BinOp.any

theorem toSuffix_tokens (x : Exp Literal .sum) :
    ∃ q, toSuffix exprNew x.tokens = .ok ⟨[],q⟩ ∧ Outputs q x.code := by
  have h₀ : Suffix exprNew [] [] [] := ⟨rfl,outputs_new⟩
  obtain ⟨e',he,hs⟩ := suffixLoop_tokens x (.inl rfl) _ _ _ h₀
  obtain ⟨q,hq,ho⟩ := drain_eq (x.emit []).2 hs.output
  refine ⟨q,?_,ho⟩
  rw [toSuffix,he,ok_bind,hs.operator,List.append_nil,hq]

/-! ### `CalVal` -/

/-- The postfix machine on a list. -/
def calList : List Any → List Any → Except Fault (List Any)
  | [], operator => .ok operator
  | v::out, operator => do
    let operator ← calStep v operator
    calList out operator

theorem calList_append (a b st : List Any) :
    calList (a++b) st = calList a st >>= calList b := by
  induction a generalizing st with
  | nil => rfl
  | cons v a ih =>
    rw [List.cons_append,calList,calList,bind_assoc]
    exact bind_congr fun st' => ih st'

/-- `CalVal` runs the values of the queue. -/
theorem calLoop_eq {n fuel : ℕ} {out : List Any} {e : Expr} (h : Rep n e.output out)
    (hf : out.length < fuel) :
    (calLoop fuel e).map Expr.operator = calList out e.operator := by
  induction fuel generalizing out e with
  | zero => omega
  | succ fuel ih =>
    rcases out with _ | ⟨v,out⟩
    · rw [calLoop,GurlQueue.get,if_pos (h.empty_iff.mpr rfl),ok_bind]
      rfl
    · obtain ⟨q',hq,hr⟩ := h.get
      rw [calLoop,hq,ok_bind,if_neg (by simp),calList]
      rcases calStep v e.operator with f | st
      · rfl
      · exact ih (e:=⟨st,q'⟩) hr (by simpa using hf)

/-- `num` runs the first hundred values of the postfix code. -/
theorem num_render (x : Exp Literal .sum) :
    num x.render = calList (x.code.take 100) [] >>= fun st =>
      if st.length > 1 then .error .panic else .ok (st.headD .nil) := by
  obtain ⟨q,hq,ho⟩ := toSuffix_tokens x
  have hlen := ho.length_le
  have hfuel : (x.code.take 100).length < GurlQueue.cap q+1 := by
    rw [GurlQueue.cap,ho.size]
    omega
  have hc := calLoop_eq (e:=⟨[],q⟩) ho hfuel
  rw [num,parseExpr_render,process,hq,ok_bind,calVal,← hc]
  rcases calLoop (GurlQueue.cap q+1) ⟨[],q⟩ with f | e
  · rfl
  · change (if _ then _ else _ : Except Fault Expr) >>= _ = if _ then _ else _
    split_ifs <;> rfl

end GurlCal
end RecycleBin
