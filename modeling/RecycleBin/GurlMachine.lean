import RecycleBin.GurlOrder

/-! The postfix machine `CalVal` on the listing of any expression tree: a subtree leaves
its value above whatever the stack held before, and the queue gives the listing back as
long as it fits. -/
namespace RecycleBin
namespace GurlCal
open GurlQueue (Rep)

/-! ### Expression trees -/

inductive Sign
  | none | plus | minus
  deriving DecidableEq

def Sign.text : Sign → Bytes
  | none => []
  | plus => [43]
  | minus => [45]

def Sign.apply : Sign → ℕ → ℤ
  | minus, n => -n
  | _, n => n

/-- A decimal literal of type `int`. -/
structure IntLit where
  sign : Sign
  abs : Literal
  min_le : -2^63 ≤ sign.apply (decimal abs.digits)
  lt_max : sign.apply (decimal abs.digits) < 2^63

def IntLit.text (a : IntLit) : Bytes := a.sign.text++a.abs.digits

def IntLit.val (a : IntLit) : ℤ := a.sign.apply (decimal a.abs.digits)

inductive Tree
  | lit (a : IntLit)
  | node (o : BinOp) (l r : Tree)

/-- Go's operators on `int`: 64 bits that wrap around, and division towards zero. -/
def BinOp.value : BinOp → ℤ → ℤ → Option ℤ
  | low .add, x, y => some (wrap (x+y))
  | low .sub, x, y => some (wrap (x-y))
  | high .mul, x, y => some (wrap (x*y))
  | high .div, x, y => if y = 0 then none else some (wrap (x.tdiv y))
  | high .mod, x, y => if y = 0 then none else some (wrap (x.tmod y))

namespace Tree

/-- The postfix listing. -/
def postfixed : Tree → List Any
  | lit a => [.str a.text]
  | node o l r => l.postfixed++(r.postfixed++[o.any])

def value : Tree → Option ℤ
  | lit a => some a.val
  | node o l r => do
    let x ← l.value
    let y ← r.value
    o.value x y

/-- The right operand of some `/` or `%` is zero. -/
def ZeroDivisor : Tree → Prop
  | lit _ => False
  | node o l r => l.ZeroDivisor ∨ r.ZeroDivisor ∨ o ∈ [.high .div,.high .mod] ∧ r.value = some 0

end Tree

theorem BinOp.value_eq_none_iff (o : BinOp) (x y : ℤ) :
    o.value x y = none ↔ o ∈ [.high .div,.high .mod] ∧ y = 0 := by
  rcases o with (_ | _) | (_ | _ | _) <;> simp [value]

/-- A tree has no value exactly when a divisor in it is zero. -/
theorem Tree.value_eq_none_iff (t : Tree) : t.value = none ↔ t.ZeroDivisor := by
  induction t with
  | lit a => simp [value,ZeroDivisor]
  | node o l r ihl ihr =>
    rw [ZeroDivisor,← ihl,← ihr,value]
    rcases l.value with _ | x
    · simp
    · rcases r.value with _ | y
      · simp
      · simp [o.value_eq_none_iff]

/-! ### The machine -/

/-- `Atoi` reads what the literal denotes. -/
theorem IntLit.atoi_text (a : IntLit) : atoi a.text = some a.val := by
  obtain ⟨sign,abs,hmin,hmax⟩ := a
  cases sign with
  | none =>
    have hlt : abs.val < 2^63 := hmax
    exact abs.atoi_digits.trans (if_pos hlt)
  | plus =>
    have hlt : decimal abs.digits < 2^63 := by
      simp only [Sign.apply] at hmax
      exact_mod_cast hmax
    simp [text,Sign.text,atoi,abs.ne_nil]
    exact ⟨abs.isDigit,hlt,rfl⟩
  | minus =>
    have hle : decimal abs.digits ≤ 2^63 := by
      simp only [Sign.apply] at hmin
      omega
    simp [text,Sign.text,atoi,abs.ne_nil]
    exact ⟨abs.isDigit,hle,rfl⟩

/-- A value, or the panic of a division by zero. -/
def outcome : Option ℤ → Except Fault ℤ
  | some v => .ok v
  | none => .error .panic

theorem BinOp.apply_byte (o : BinOp) (x y : ℤ) : apply o.byte x y = outcome (o.value x y) := by
  rcases o with (_ | _) | (_ | _ | _)
  · rfl
  · rfl
  · rfl
  · by_cases hy : y = 0
    · simp [apply,byte,value,outcome,hy]
    · simp [apply,byte,value,outcome,hy]
  · by_cases hy : y = 0
    · simp [apply,byte,value,outcome,hy]
    · simp [apply,byte,value,outcome,hy]

/-- An operator takes the right operand from the top of the stack and the left one from
below it. -/
theorem calStep_operator (o : BinOp) (x y : ℤ) (st : List Any) :
    calStep o.any (.int y::.int x::st) = (outcome (o.value x y)).map fun v => .int v::st := by
  have hmem : o.byte ∈ ([43,45,42,47,37] : List UInt8) := by
    rcases o with (_ | _) | (_ | _ | _) <;> decide
  rw [← o.apply_byte,BinOp.any,calStep,if_pos hmem]
  rcases h : apply o.byte x y <;> simp only [Any.toInt,ok_bind,h] <;> rfl

/-- The listing of a tree leaves its value above the stack it started on. -/
theorem Tree.calList_postfixed (t : Tree) (st : List Any) :
    calList t.postfixed st = (outcome t.value).map fun v => .int v::st := by
  induction t generalizing st with
  | lit a =>
    simp only [postfixed,calList,calStep,a.atoi_text]
    rfl
  | node o l r ihl ihr =>
    rw [postfixed,calList_append,ihl,value]
    rcases l.value with _ | x
    · rfl
    · change calList (r.postfixed++[o.any]) (.int x::st) = _
      rw [calList_append,ihr]
      rcases r.value with _ | y
      · rfl
      · change calStep o.any (.int y::.int x::st) >>= calList [] = _
        rw [calStep_operator]
        change _ = (outcome (o.value x y)).map _
        rcases o.value x y <;> rfl

/-- The values put into the output queue one after the other. -/
def load : List Any → Expr → Except Fault Expr
  | [], e => .ok e
  | v::out, e => do
    let e ← e.put v
    load out e

/-- A listing that fits is held by the queue as it stands. -/
theorem load_eq {n : ℕ} (out : List Any) {e : Expr} {held : List Any} (h : Rep n e.output held)
    (hlen : held.length+out.length ≤ n) :
    ∃ e', load out e = .ok e' ∧ e'.operator = e.operator ∧ Rep n e'.output (held++out) := by
  induction out generalizing e held with
  | nil => exact ⟨e,rfl,rfl,by simpa using h⟩
  | cons v out ih =>
    rw [List.length_cons] at hlen
    obtain ⟨q,hq,hr⟩ := h.put v (by omega)
    obtain ⟨e',he,hop,hr'⟩ := ih (e:={ e with output := q }) hr (by simp; omega)
    refine ⟨e',?_,hop,by simpa using hr'⟩
    rw [load,Expr.put,hq,ok_bind,ok_bind]
    exact he

/-- A listing of at most a hundred tokens, loaded into a fresh calculator: `CalVal` leaves
the value of the tree alone on the stack, and panics exactly when a divisor is zero. -/
theorem calVal_postfixed (t : Tree) (h : t.postfixed.length ≤ 100) :
    ∃ e, load t.postfixed exprNew = .ok e ∧ e.operator = [] ∧
      (¬t.ZeroDivisor → ∃ v e', t.value = some v ∧ calVal e = .ok e' ∧ e'.operator = [.int v]) ∧
      (calVal e = .error .panic ↔ t.ZeroDivisor) := by
  obtain ⟨e,he,hop,hrep⟩ := load_eq t.postfixed (e:=exprNew) (GurlQueue.rep_queueNew 100) (by simpa using h)
  rw [List.nil_append] at hrep
  have hop : e.operator = [] := hop
  have hfuel : t.postfixed.length < GurlQueue.cap e.output+1 := by
    have hsize : GurlQueue.cap e.output = 100 := hrep.size
    omega
  have hrun := calLoop_eq hrep hfuel
  rw [hop,t.calList_postfixed] at hrun
  refine ⟨e,he,hop,?_,?_⟩
  · intro hz
    obtain ⟨v,hv⟩ := Option.ne_none_iff_exists'.mp fun hn => hz (t.value_eq_none_iff.mp hn)
    rw [hv] at hrun
    rcases hl : calLoop (GurlQueue.cap e.output+1) e with f | e'
    · rw [hl] at hrun
      cases hrun
    · rw [hl] at hrun
      have hst : e'.operator = [.int v] := Except.ok.inj hrun
      refine ⟨v,e',hv,?_,hst⟩
      rw [calVal,hl,ok_bind,hst]
      rfl
  · rw [← t.value_eq_none_iff]
    rcases hl : calLoop (GurlQueue.cap e.output+1) e with f | e'
    · rw [hl] at hrun
      rcases hv : t.value with _ | v
      · rw [hv] at hrun
        cases hrun
        rw [calVal,hl]
        exact iff_of_true rfl rfl
      · rw [hv] at hrun
        cases hrun
    · rw [hl] at hrun
      rcases hv : t.value with _ | v
      · rw [hv] at hrun
        cases hrun
      · rw [hv] at hrun
        have hst : e'.operator = [.int v] := Except.ok.inj hrun
        rw [calVal,hl,ok_bind,hst]
        exact iff_of_false (fun hc => by cases hc) (fun hc => by cases hc)

theorem decimal_byte_lt (b : UInt8) : ((decimal [b] : ℕ) : ℤ) < 256 := by
  have hb := b.toNat_lt
  have hd : decimal [b] = b.toNat-48 := Nat.zero_add _
  omega

/-- A literal of one digit. -/
def IntLit.ofDigit (b : UInt8) (h : isDigit b = true) : IntLit where
  sign := .none
  abs := ⟨[b],List.cons_ne_nil _ _,isDigit_single h⟩
  min_le := le_trans (by norm_num) (Int.natCast_nonneg _)
  lt_max := lt_trans (decimal_byte_lt b) (by norm_num)

theorem isDigit_two : isDigit 50 = true := rfl

/-- `7-2`. -/
def sevenMinusTwo : Tree :=
  .node (.low .sub) (.lit (.ofDigit 55 rfl)) (.lit (.ofDigit 50 isDigit_two))

theorem calVal_sevenMinusTwo :
    ∃ e, load sevenMinusTwo.postfixed exprNew = .ok e ∧ e.operator = [] ∧
      (¬sevenMinusTwo.ZeroDivisor →
        ∃ v e', sevenMinusTwo.value = some v ∧ calVal e = .ok e' ∧ e'.operator = [.int v]) ∧
      (calVal e = .error .panic ↔ sevenMinusTwo.ZeroDivisor) :=
  calVal_postfixed sevenMinusTwo (by simp [sevenMinusTwo,Tree.postfixed])

end GurlCal
end RecycleBin
