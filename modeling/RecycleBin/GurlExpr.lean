import RecycleBin.GurlCal

/-! Arithmetic expressions under the usual grammar, and what the calculator makes of
their text. Within a pair of parentheses the calculator keeps the operators that wait
for their right operand on its stack; an operator takes the waiting one off only if
both have the same priority. -/
namespace RecycleBin
namespace GurlCal

/-! ### The grammar -/

inductive Low
  | add | sub
  deriving DecidableEq

inductive High
  | mul | div | mod
  deriving DecidableEq

/-- A binary operator, by its priority. -/
inductive BinOp
  | low (o : Low)
  | high (o : High)
  deriving DecidableEq

namespace BinOp

def byte : BinOp → UInt8
  | low .add => 43
  | low .sub => 45
  | high .mul => 42
  | high .div => 47
  | high .mod => 37

def isHigh : BinOp → Bool
  | low _ => false
  | high _ => true

/-- Go's operators on `int`; a division by zero panics. -/
def eval (o : BinOp) (x y : ℤ) : Except Fault ℤ := apply o.byte x y

end BinOp

inductive Level
  | atom | prod | sum

/-- Expressions over literals of type `α`; chains of operators associate to the left. -/
inductive Exp (α : Type) : Level → Type
  | lit (a : α) : Exp α .atom
  | paren (e : Exp α .sum) : Exp α .atom
  | factor (a : Exp α .atom) : Exp α .prod
  | mul (t : Exp α .prod) (o : High) (a : Exp α .atom) : Exp α .prod
  | term (t : Exp α .prod) : Exp α .sum
  | add (e : Exp α .sum) (o : Low) (t : Exp α .prod) : Exp α .sum

/-- A non-negative decimal integer. -/
structure Literal where
  digits : Bytes
  ne_nil : digits ≠ []
  isDigit : ∀ b ∈ digits, isDigit b = true

theorem isDigit_single {b : UInt8} (h : isDigit b = true) :
    ∀ c ∈ [b], isDigit c = true := by
  simpa using h

/-- The integer a literal denotes. -/
def Literal.val (a : Literal) : ℤ := decimal a.digits

namespace Exp
variable {α : Type}

/-- The same expression over other literals. -/
def map {β : Type} (f : α → β) : {l : Level} → Exp α l → Exp β l
  | _, lit a => lit (f a)
  | _, paren e => paren (e.map f)
  | _, factor a => factor (a.map f)
  | _, mul t o a => mul (t.map f) o (a.map f)
  | _, term t => term (t.map f)
  | _, add e o t => add (e.map f) o (t.map f)

/-- The literals in order. -/
def lits : {l : Level} → Exp α l → List α
  | _, lit a => [a]
  | _, paren e => e.lits
  | _, factor a => a.lits
  | _, mul t _ a => t.lits++a.lits
  | _, term t => t.lits
  | _, add e _ t => e.lits++t.lits

/-- The number of literals and binary operators. -/
def size : {l : Level} → Exp α l → ℕ
  | _, lit _ => 1
  | _, paren e => e.size
  | _, factor a => a.size
  | _, mul t _ a => t.size+1+a.size
  | _, term t => t.size
  | _, add e _ t => e.size+1+t.size

/-- The value under the usual grammar with Go's operators. -/
def value : {l : Level} → Exp Literal l → Except Fault ℤ
  | _, lit a => .ok a.val
  | _, paren e => e.value
  | _, factor a => a.value
  | _, mul t o a => do
    let x ← t.value
    let y ← a.value
    (BinOp.high o).eval x y
  | _, term t => t.value
  | _, add e o t => do
    let x ← e.value
    let y ← t.value
    (BinOp.low o).eval x y

/-- The text. -/
def render : {l : Level} → Exp Literal l → Bytes
  | _, lit a => a.digits
  | _, paren e => 40::e.render++[41]
  | _, factor a => a.render
  | _, mul t o a => t.render++(BinOp.high o).byte::a.render
  | _, term t => t.render
  | _, add e o t => e.render++(BinOp.low o).byte::t.render

/-- The tokens. -/
def tokens : {l : Level} → Exp Literal l → List Bytes
  | _, lit a => [a.digits]
  | _, paren e => [40]::e.tokens++[[41]]
  | _, factor a => a.tokens
  | _, mul t o a => t.tokens++[(BinOp.high o).byte]::a.tokens
  | _, term t => t.tokens
  | _, add e o t => e.tokens++[(BinOp.low o).byte]::t.tokens

end Exp

/-! ### Reading the text -/

theorem parseFrom_digits (digits ds s : Bytes) (h : ∀ b ∈ ds, isDigit b = true) :
    parseFrom digits (ds++s) = parseFrom (digits++ds) s := by
  induction ds generalizing digits with
  | nil => simp
  | cons d ds ih =>
    have hd := h d List.mem_cons_self
    rw [List.cons_append,parseFrom,if_pos hd,
      ih (digits++[d]) fun b hb => h b (List.mem_cons_of_mem _ hb),List.append_assoc,
      List.singleton_append]

/-- A text that does not go on with a digit ends the number before it. -/
theorem parseFrom_flush (digits s : Bytes) (h : ∀ c ∈ s.head?, isDigit c = false) :
    parseFrom digits s = flush digits++parseFrom [] s := by
  rcases s with _ | ⟨c,s⟩
  · simp [parseFrom,flush]
  · have hc : isDigit c = false := h c rfl
    simp [parseFrom,hc,flush]

theorem BinOp.not_isDigit (o : BinOp) : isDigit o.byte = false := by
  rcases o with (_ | _) | (_ | _ | _) <;> rfl

theorem BinOp.isOperator (o : BinOp) : isOperator o.byte = true := by
  rcases o with (_ | _) | (_ | _ | _) <;> rfl

/-- `ParseExpr` finds the tokens of an expression. -/
theorem parseFrom_render {l : Level} (e : Exp Literal l) (s : Bytes)
    (h : ∀ c ∈ s.head?, isDigit c = false) :
    parseFrom [] (e.render++s) = e.tokens++parseFrom [] s := by
  induction e generalizing s with
  | lit a =>
    rw [Exp.render,parseFrom_digits _ _ _ a.isDigit,List.nil_append,parseFrom_flush _ _ h,flush,
      if_neg a.ne_nil,Exp.tokens]
  | paren e ih =>
    have h41 : ∀ c ∈ ([41]++s : Bytes).head?, isDigit c = false := by simp; decide
    have hclose : parseFrom [] (41::s) = [41]::parseFrom [] s := rfl
    have hopen : ∀ t, parseFrom [] (40::t) = [40]::parseFrom [] t := fun t => rfl
    rw [Exp.render,List.cons_append,List.cons_append,hopen,List.append_assoc,ih _ h41,List.singleton_append,hclose]
    simp [Exp.tokens]
  | factor a ih => exact ih s h
  | term t ih => exact ih s h
  | mul t o a iht iha =>
    have hop : ∀ c ∈ ((BinOp.high o).byte::(a.render++s)).head?, isDigit c = false := by
      simp [BinOp.not_isDigit]
    rw [Exp.render,List.append_assoc,List.cons_append,iht _ hop,parseFrom,BinOp.not_isDigit,
      BinOp.isOperator,iha s h]
    simp [flush,Exp.tokens]
  | add e o t ihe iht =>
    have hop : ∀ c ∈ ((BinOp.low o).byte::(t.render++s)).head?, isDigit c = false := by
      simp [BinOp.not_isDigit]
    rw [Exp.render,List.append_assoc,List.cons_append,ihe _ hop,parseFrom,BinOp.not_isDigit,
      BinOp.isOperator,iht s h]
    simp [flush,Exp.tokens]

theorem parseExpr_render (e : Exp Literal .sum) : parseExpr e.render = e.tokens := by
  have hp := parseFrom_render e [] (by simp)
  simpa [parseExpr,parseFrom,flush] using hp

end GurlCal
end RecycleBin
