import RecycleBin.GurlQueue

/-! The gurl calculator: `ParseExpr` cuts the text into tokens, `ToSuffix` moves them
to a bounded output queue in postfix order, and `CalVal` runs the postfix code on the
operator stack. Stacks are lists with the top first. -/
namespace RecycleBin
namespace GurlCal
open GurlQueue (Queue)

abbrev Bytes := List UInt8

/-- What an `interface{}` of the calculator holds. -/
inductive Any
  | nil
  | byte (b : UInt8)
  | str (s : Bytes)
  | int (n : ℤ)
  deriving DecidableEq

instance : Inhabited Any := ⟨.nil⟩

/-- Go's `int` wraps around at 64 bits. -/
def wrap (n : ℤ) : ℤ := n.bmod (2^64)

structure Expr where
  operator : List Any
  output : Queue Any

def exprNew : Expr := ⟨[],GurlQueue.queueNew 100⟩

/-- The bytes of `+-*/%()`. -/
def isOperator (b : UInt8) : Bool := b ∈ [43,45,42,47,37,40,41]

def priority (b : UInt8) : ℕ :=
  if b ∈ [43,45] then 1
  else if b ∈ [42,47,37] then 2
  else if b = 40 then 3
  else 0

/-- The type assertion `v.(byte)`. -/
def Any.toByte : Any → Except Fault UInt8
  | .byte b => .ok b
  | _ => .error .panic

/-- The type assertion `v.(int)`. -/
def Any.toInt : Any → Except Fault ℤ
  | .int n => .ok n
  | _ => .error .panic

/-- `e.Output.Put(v)`; the error is ignored. -/
def Expr.put (e : Expr) (v : Any) : Except Fault Expr := do
  let r ← GurlQueue.put e.output v
  .ok { e with output := r.2 }

def Expr.push (e : Expr) (v : Any) : Expr := { e with operator := v::e.operator }

/-- The loop of the branch `exp[0] == ')'`. -/
def closeParen : List Any → Queue Any → Except Fault Expr
  | [], _ => .error .panic
  | v::operator, output => do
    let vv ← v.toByte
    if vv = 40 then .ok ⟨operator,output⟩
    else
      let r ← GurlQueue.put output (.byte vv)
      closeParen operator r.2

/-- The loop body of `ToSuffix`. -/
def suffixStep (e : Expr) (exp : Bytes) : Except Fault Expr :=
  match exp with
  | [c] =>
    if isOperator c then
      match e.operator with
      | [] => .ok (e.push (.byte c))
      | v::operator =>
        if c = 41 then closeParen e.operator e.output
        else do
          let vv ← v.toByte
          let stackVal := priority vv
          let expVal := priority c
          if expVal > stackVal then .ok (e.push (.byte c))
          else if expVal = stackVal then
            if c ≠ 40 then do
              let e ← ({ e with operator := operator } : Expr).put v
              .ok (e.push (.byte c))
            else .ok (e.push (.byte c))
          else .ok (e.push (.byte c))
    else e.put (.str exp)
  | _ => e.put (.str exp)

/-- The loop over the tokens. -/
def suffixLoop : List Bytes → Expr → Except Fault Expr
  | [], e => .ok e
  | exp::expr, e => do
    let e ← suffixStep e exp
    suffixLoop expr e

/-- The last loop of `ToSuffix`. -/
def drain : List Any → Queue Any → Except Fault Expr
  | [], output => .ok ⟨[],output⟩
  | v::operator, output => do
    let r ← GurlQueue.put output v
    drain operator r.2

/-- `ToSuffix`. -/
def toSuffix (e : Expr) (expr : List Bytes) : Except Fault Expr := do
  let e ← suffixLoop expr e
  drain e.operator e.output

/-- The decimal value of a digit string behind the digits read so far. -/
def decimalFrom : ℕ → Bytes → ℕ
  | a, [] => a
  | a, b::bs => decimalFrom (a*10+(b.toNat-48)) bs

def decimal (s : Bytes) : ℕ := decimalFrom 0 s

def isDigit (b : UInt8) : Bool := 48 ≤ b && b ≤ 57

/-- `strconv.Atoi`: an optional sign and digits, within the range of `int`. -/
def atoi (s : Bytes) : Option ℤ :=
  let (neg,digits) := match s with
    | 45::t => (true,t)
    | 43::t => (false,t)
    | _ => (false,s)
  if digits ≠ [] ∧ digits.all isDigit then
    if neg then (if decimal digits ≤ 2^63 then some (-decimal digits) else none)
    else if decimal digits < 2^63 then some (decimal digits) else none
  else none

/-- The inner switch of `CalVal`. -/
def apply (b : UInt8) (n2 n1 : ℤ) : Except Fault ℤ :=
  if b = 43 then .ok (wrap (n2+n1))
  else if b = 45 then .ok (wrap (n2-n1))
  else if b = 42 then .ok (wrap (n2*n1))
  else if b = 47 then (if n1 = 0 then .error .panic else .ok (wrap (n2.tdiv n1)))
  else if n1 = 0 then .error .panic else .ok (wrap (n2.tmod n1))

/-- The loop body of `CalVal` on a value of the output queue. -/
def calStep (v : Any) (operator : List Any) : Except Fault (List Any) :=
  match v with
  | .byte b =>
    if b ∈ [43,45,42,47,37] then
      match operator with
      | v1::v2::operator => do
        let n1 ← v1.toInt
        let n2 ← v2.toInt
        let n ← apply b n2 n1
        .ok (.int n::operator)
      | _ => .error .panic
    else .error .panic
  | .str s =>
    match atoi s with
    | some n => .ok (.int n::operator)
    | none => .error .panic
  | _ => .ok operator

/-- The loop of `CalVal`; a queue holds at most as many values as it has slots. -/
def calLoop : ℕ → Expr → Except Fault Expr
  | 0, _ => .error .exhausted
  | fuel+1, e => do
    let r ← GurlQueue.get e.output
    if r.1.2 ≠ none then .ok e
    else
      let operator ← calStep r.1.1 e.operator
      calLoop fuel ⟨operator,r.2⟩

/-- `CalVal`. -/
def calVal (e : Expr) : Except Fault Expr := do
  let e ← calLoop (GurlQueue.cap e.output+1) e
  if e.operator.length > 1 then .error .panic else .ok e

/-- `Process`. -/
def process (e : Expr) (exp : List Bytes) : Except Fault Expr := do
  let e ← toSuffix e exp
  calVal e

/-- `if n != i { rv = append(rv, s[n:i]) }`. -/
def flush (digits : Bytes) : List Bytes := if digits = [] then [] else [digits]

/-- `ParseExpr`, with the digits `s[n:i]` read so far. -/
def parseFrom : Bytes → Bytes → List Bytes
  | digits, [] => flush digits
  | digits, c::s =>
    if isDigit c then parseFrom (digits++[c]) s
    else flush digits++(if isOperator c then [[c]] else [])++parseFrom [] s

def parseExpr (s : Bytes) : List Bytes := parseFrom [] s

/-- `Num` on its first argument: the value popped at the end, nil if there is none. -/
def num (s : Bytes) : Except Fault Any := do
  let e ← process exprNew (parseExpr s)
  .ok (e.operator.headD .nil)

end GurlCal
end RecycleBin
