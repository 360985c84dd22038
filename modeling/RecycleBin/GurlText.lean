import Mathlib.Tactic

/-! The parts of Go's `strings` and `strconv` the templates of `gurlib` rest on. A Go string
is the list of its bytes. -/
namespace RecycleBin
namespace GurlText

abbrev Bytes := List UInt8

/-- The bytes of an ASCII text. -/
def ascii (s : String) : Bytes := s.toList.map fun c => UInt8.ofNat c.toNat

def isDigit (b : UInt8) : Bool := 48 ≤ b ∧ b ≤ 57

def lower (b : UInt8) : UInt8 := if 65 ≤ b ∧ b ≤ 90 then b+32 else b

/-- The UTF-8 forms of the white space characters of Unicode. -/
def spaces : List Bytes :=
  [[9],[10],[11],[12],[13],[32],[0xc2,0x85],[0xc2,0xa0],[0xe1,0x9a,0x80],[0xe2,0x80,0xa8],
    [0xe2,0x80,0xa9],[0xe2,0x80,0xaf],[0xe2,0x81,0x9f],[0xe3,0x80,0x80]]++
      (List.range 11).map fun k => [0xe2,0x80,UInt8.ofNat (0x80+k)]

/-- Drop the words of `ws` from the front, at most `n` of them. -/
def trimWords (ws : List Bytes) : ℕ → Bytes → Bytes
  | 0, s => s
  | n+1, s =>
    match ws.find? fun w => w.isPrefixOf s with
    | some w => trimWords ws n (s.drop w.length)
    | none => s

/-- `strings.TrimSpace`. -/
def trimSpace (s : Bytes) : Bytes :=
  let s := trimWords spaces s.length s
  (trimWords (spaces.map List.reverse) s.length s.reverse).reverse

/-- `strconv.Itoa`. -/
def itoa (n : ℤ) : Bytes :=
  let digits := (Nat.toDigits 10 n.natAbs).map fun c => UInt8.ofNat c.toNat
  if n < 0 then 45::digits else digits

/-! ### Integers with a base prefix -/

inductive NumError
  | malformed
  | range
  deriving DecidableEq

/-- The value of a digit or letter. -/
def digitValue (b : UInt8) : Option ℕ :=
  if isDigit b then some (b.toNat-48)
  else if 97 ≤ lower b ∧ lower b ≤ 122 then some ((lower b).toNat-97+10)
  else none

/-- The digits of `ParseUint`; an underscore is passed over. -/
def parseDigits (base : ℕ) : ℕ → Bytes → Except NumError ℕ
  | n, [] => .ok n
  | n, b::s =>
    if b = 95 then parseDigits base n s
    else
      match digitValue b with
      | some d =>
        if base ≤ d then .error .malformed
        else if 2^64 ≤ n*base+d then .error .range
        else parseDigits base (n*base+d) s
      | none => .error .malformed

/-- The last class of character `underscoreOK` saw. -/
inductive Saw
  | start | digit | underscore | other
  deriving DecidableEq

def underscoreFrom (hex : Bool) : Saw → Bytes → Bool
  | saw, [] => saw ≠ .underscore
  | saw, b::s =>
    if isDigit b ∨ (hex ∧ 97 ≤ lower b ∧ lower b ≤ 102) then underscoreFrom hex .digit s
    else if b = 95 then (if saw = .digit then underscoreFrom hex .underscore s else false)
    else if saw = .underscore then false
    else underscoreFrom hex .other s

/-- A base prefix: the base and what follows it. -/
def basePrefix : Bytes → Option (ℕ × Bytes)
  | 48::b::s =>
    if lower b = 98 then some (2,s)
    else if lower b = 111 then some (8,s)
    else if lower b = 120 then some (16,s)
    else none
  | _ => none

/-- `underscoreOK`, behind the sign. -/
def underscoreOK (s : Bytes) : Bool :=
  match basePrefix s with
  | some (base,s) => underscoreFrom (base = 16) .digit s
  | none => underscoreFrom false .start s

/-- `strconv.ParseUint(s, 0, 0)`. -/
def parseUint (s : Bytes) : Except NumError ℕ := do
  if s = [] then .error .malformed
  else
    let n ← match basePrefix s with
      | some (base,c::t) => parseDigits base 0 (c::t)
      | _ => if s.head? = some 48 then parseDigits 8 0 s.tail else parseDigits 10 0 s
    if 95 ∈ s ∧ !underscoreOK s then .error .malformed else .ok n

/-- `strconv.ParseInt(s, 0, 0)`. -/
def parseInt (s : Bytes) : Except NumError ℤ := do
  if s = [] then .error .malformed
  else
    let neg := s.head? = some 45
    let n ← parseUint (if neg ∨ s.head? = some 43 then s.tail else s)
    if !neg ∧ 2^63 ≤ n then .error .range
    else if neg ∧ 2^63 < n then .error .range
    else .ok (if neg then -(n : ℤ) else n)

end GurlText
end RecycleBin
