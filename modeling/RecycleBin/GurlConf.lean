import RecycleBin.GurlText

/-! The template expander of `gurlib/conf.go`. Its functions call each other through the
values of variables, so they are defined over the depth of that recursion. A registered
function is any function on the interpreter's state that may expand further templates. -/
namespace RecycleBin
namespace GurlConf
open GurlText

/-- A `[]string`: its array, length and capacity. -/
structure Slice where
  base : ℕ
  len : ℕ
  cap : ℕ
  deriving DecidableEq

/-- An `interface{}`; `other` are values the expander only passes on, `other 0` is nil. -/
inductive Any
  | str (s : Bytes)
  | int (n : ℤ)
  | slice (s : Slice)
  | bool (b : Bool)
  | other (id : ℕ)
  deriving DecidableEq

/-- What a call panics with. -/
inductive Panic
  | index
  | nilPointer
  | typeAssertion
  | notFound (word : Bytes)
  | notFoundSlice (token : Bytes)
  | notFindFunction (name : Bytes)
  | funcError (name : Bytes) (args : List Bytes) (err : Bytes)
  | parseInt (text : Bytes) (err : NumError)
  deriving DecidableEq

/-- Why a call did not return: a panic, or a recursion beyond the depth it was given. -/
inductive Stop
  | panic (p : Panic)
  | exhausted
  deriving DecidableEq

/-- The state behind a `Conf`: its variables, the arrays of slices, and whatever else
registered functions act on. -/
structure Store (ω : Type) where
  rootMap : Bytes → Option Any
  heap : ℕ → List Bytes
  fresh : ℕ
  world : ω

abbrev M (ω : Type) := StateT (Store ω) (Except Stop)

abbrev Parent := Bytes → Option Any

structure FuncVal where
  funcName : Bytes
  callArgs : List Bytes
  rvArgs : Any
  parent : Parent

variable {ω : Type}

abbrev ParseString (ω : Type) := Bytes → Parent → Bool → M ω Bytes

/-- A registered function, over `c.ParseString`: the call as it leaves it, with its result,
and its error. -/
abbrev Func (ω : Type) := ParseString ω → FuncVal → M ω (FuncVal × Option Bytes)

/-- A `Conf`, with the capacity `append` gives to an array of a needed length. -/
structure Conf (ω : Type) where
  funcMap : Bytes → Option (Func ω)
  grow : ℕ → ℕ

def panic {α : Type} (p : Panic) : M ω α := fun _ => .error (.panic p)

def ofExcept {α : Type} : Except Panic α → M ω α
  | .ok a => pure a
  | .error p => panic p

/-- `s[a:b]`. -/
def sub (s : Bytes) (a b : ℕ) : Except Panic Bytes :=
  if a ≤ b ∧ b ≤ s.length then .ok ((s.take b).drop a) else .error .index

def Conf.findFunc (c : Conf ω) (name : Bytes) : Bool := (c.funcMap name).isSome

def findVal (s : Bytes) (parent : Parent) : M ω (Option Any) := fun st =>
  .ok ((st.rootMap s).or (parent s),st)

/-! ### Slices of strings -/

/-- `slice[n]`. -/
def readSlice (slice : Slice) (n : ℤ) : M ω Bytes := fun st =>
  if 0 ≤ n ∧ n < slice.len then
    match (st.heap slice.base)[n.toNat]? with
    | some s => .ok (s,st)
    | none => .error (.panic .index)
  else .error (.panic .index)

/-- `slice[n] = v`. -/
def writeSlice (slice : Slice) (n : ℕ) (v : Bytes) : M ω Unit := fun st =>
  if n < slice.len then
    .ok ((),{ st with heap := Function.update st.heap slice.base ((st.heap slice.base).set n v) })
  else .error (.panic .index)

/-- `append(slice, vs...)`: into the array while its capacity allows, else into a new one. -/
def appendSlice (c : Conf ω) (slice : Slice) (vs : List Bytes) : M ω Slice := fun st =>
  let len := slice.len+vs.length
  let old := (st.heap slice.base).take slice.len
  if len ≤ slice.cap then
    let array := old++vs++(st.heap slice.base).drop len
    .ok ({ slice with len := len },{ st with heap := Function.update st.heap slice.base array })
  else
    let cap := max len (c.grow len)
    .ok (⟨st.fresh,len,cap⟩,{ st with
      heap := Function.update st.heap st.fresh (old++vs++List.replicate (cap-len) [])
      fresh := st.fresh+1 })

/-! ### Words and calls -/

structure Status where
  wordStart : ℕ
  isVariable : Bool
  isSlice : Bool
  left : ℕ
  curlyBracesLeft : Bool
  deriving DecidableEq

/-- The variables of `ParseCore` at the head of its loop. -/
structure Scan where
  i : ℕ
  token : Bytes
  vals : List Any
  status : Status
  deriving DecidableEq

/-- `getWord`: the word, whether it stood behind a `$`, and the status. -/
def getWord (token : Bytes) (status : Status) : Except Panic (Bytes × Bool × Status) := do
  let r ← match token with
    | [] => .error .index
    | b::word => .ok (if b = 36 then (word,true) else (token,false))
  let word ← if status.curlyBracesLeft then
      match r.1 with
      | [] => .error .index
      | _::word => .ok word
    else .ok r.1
  if word = [] then .error .index
  else .ok (word,r.2,{ status with curlyBracesLeft := false })

/-- The variables of the loop of `parseFuncArgs`. -/
structure Args where
  j : ℕ
  start : ℕ
  brackets : ℤ
  first : Bool
  args : List Bytes

/-- A comma hands its argument on, and the byte behind it is taken in its place. -/
def argsComma (s : Bytes) (a : Args) (b : UInt8) : Except Panic Args :=
  if b = 44 ∧ a.brackets = 1 then do
    let arg := trimSpace (← sub s a.start a.j)
    .ok { a with j := a.j+1,start := a.j+1,args := if arg = [] then a.args else a.args++[arg] }
  else .ok a

/-- The bracket that ends the call hands the last argument on. -/
def argsClose (s : Bytes) (a : Args) : Except Panic (Sum (List Bytes × ℕ) Args) :=
  match s[a.j]? with
  | none => .error .index
  | some b =>
    if b = 41 then
      if a.brackets-1 ≠ 0 then .ok (.inr { a with brackets := a.brackets-1,j := a.j+1 })
      else do
        let arg := trimSpace (← sub s a.start a.j)
        .ok (.inl (if arg = [] then a.args else a.args++[arg],a.j+1))
    else .ok (.inr { a with j := a.j+1 })

/-- One pass of that loop at `s[j]`: the arguments and the index behind the bracket that
ends the call, or the variables of the next pass. -/
def argsStep (s : Bytes) (a : Args) (b : UInt8) : Except Panic (Sum (List Bytes × ℕ) Args) :=
  if b = 32 then .ok (.inr { a with j := a.j+1 })
  else if b = 40 then
    .ok (.inr { a with
      brackets := a.brackets+1,start := if a.first then a.j+1 else a.start
      first := false,j := a.j+1 })
  else argsComma s a b >>= argsClose s

/-- `for j < len(s)`; none when the loop ends without the bracket. -/
def argsLoop (s : Bytes) : ℕ → Args → Except Panic (Option (List Bytes × ℕ))
  | 0, _ => .ok none
  | n+1, a =>
    match s[a.j]? with
    | none => .ok none
    | some b => do
      match ← argsStep s a b with
      | .inl r => .ok (some r)
      | .inr a => argsLoop s n a

/-- `parseFuncArgs`: none is the nil pointer. The index grows in every pass. -/
def Conf.parseFuncArgs (c : Conf ω) (s funcName : Bytes) (i : ℕ) :
    Except Panic (Option (List Bytes × ℕ)) :=
  if c.findFunc funcName then argsLoop s (s.length+1) ⟨i,i,0,true,[]⟩
  else .error (.notFindFunction funcName)

/-- `callFunc` of a function that is registered. -/
def callFunc (cb : Func ω) (ps : ParseString ω) (val : FuncVal) : M ω Any := do
  let r ← cb ps val
  match r.2 with
  | none => pure r.1.rvArgs
  | some err => panic (.funcError r.1.funcName r.1.callArgs err)

/-- `GetVarAndFunc`. -/
def Conf.getVarAndFunc (c : Conf ω) (ps : ParseString ω) (s word : Bytes) (parent : Parent)
    (parseAssign : Bool) (sc : Scan) : M ω Scan := do
  if c.findFunc word then
    let name ← ofExcept (sub s sc.status.wordStart sc.i)
    match ← ofExcept (c.parseFuncArgs s name sc.i) with
    | none => panic .nilPointer
    | some (args,i) =>
      let args ← args.mapM fun v => ps v parent parseAssign
      match c.funcMap name with
      | none => panic (.notFindFunction name)
      | some cb =>
        let v ← callFunc cb ps ⟨name,args,.other 0,parent⟩
        pure { i := i,token := [],vals := sc.vals++[v],status := { sc.status with isVariable := false } }
  else
    match ← findVal word parent with
    | none => panic (.notFound word)
    | some (.slice slice) =>
      if s.length ≤ sc.i+1 ∨ s[sc.i]? ≠ some 91 then
        pure { sc with vals := sc.vals++[.slice slice],status := { sc.status with isVariable := false } }
      else pure { sc with status := { sc.status with isSlice := true } }
    | some v =>
      let v := match v with
        | .int n => .str (itoa n)
        | v => v
      pure { sc with
        token := [],vals := sc.vals++[v],status := { sc.status with isVariable := false } }

/-! ### `ParseCore` -/

/-- The bytes `ParseCore` takes into a word: letters, digits, `_`, `$` and `{`. -/
def isWordByte (b : UInt8) : Bool :=
  isDigit b ∨ (97 ≤ b ∧ b ≤ 122) ∨ (65 ≤ b ∧ b ≤ 90) ∨ b = 95 ∨ b = 36 ∨ b = 123

/-- The calls one level down. -/
structure Callbacks (ω : Type) where
  parseCore : Bytes → Parent → Bool → M ω Any
  parseString : ParseString ω

/-- `slice[pos]` for the value of an index text. -/
def indexValue : Any → Except Panic ℤ
  | .int n => .ok n
  | .str s =>
    match parseInt s with
    | .ok n => .ok n
    | .error e => .error (.parseInt s e)
  | _ => .error .typeAssertion

section Core
variable (c : Conf ω) (cb : Callbacks ω) (s : Bytes) (parent : Parent) (parseAssign : Bool)

/-- The loop's branch for `status.isSlice`. -/
def sliceStep (sc : Scan) (v : UInt8) : M ω Scan := do
  if v ≠ 91 ∧ v ≠ 93 then pure { sc with i := sc.i+1 }
  else if v = 91 then pure { sc with i := sc.i+1,status := { sc.status with left := sc.i } }
  else
    let r ← ofExcept (getWord sc.token sc.status)
    match ← findVal r.1 parent with
    | none => panic (.notFoundSlice sc.token)
    | some vv =>
      let text ← ofExcept (sub s (r.2.2.left+1) sc.i)
      let pos ← cb.parseCore text parent parseAssign
      let n ← ofExcept (indexValue pos)
      match vv with
      | .slice slice =>
        let elem ← readSlice slice n
        pure { i := sc.i+1,token := [],vals := sc.vals++[.str elem],
               status := { r.2.2 with isSlice := false,isVariable := false } }
      | _ => panic .typeAssertion

/-- The start of a word: the text before it becomes a value. -/
def startWord (sc : Scan) : Scan where
  i := sc.i
  token := []
  vals := if sc.token = [] then sc.vals else sc.vals++[.str sc.token]
  status := { sc.status with wordStart := sc.i+1,isVariable := true }

/-- The branch for `status.isVariable`. -/
def wordStep (sc : Scan) (v : UInt8) : M ω Scan := do
  if isWordByte v then
    pure { sc with
      i := sc.i+1,token := sc.token++[v]
      status := { sc.status with curlyBracesLeft := sc.status.curlyBracesLeft || v = 123 } }
  else
    let r ← ofExcept (getWord sc.token sc.status)
    let sc ← c.getVarAndFunc cb.parseString s r.1 parent parseAssign { sc with status := r.2.2 }
    pure (if v = 125 then { sc with i := sc.i+1 } else sc)

/-- The body of the loop. -/
def coreStep (sc : Scan) (v : UInt8) : M ω Scan :=
  if sc.status.isSlice then sliceStep cb s parent parseAssign sc v
  else
    let sc := if sc.status.isVariable = false ∧ v = 36 then startWord sc else sc
    if sc.status.isVariable then wordStep c cb s parent parseAssign sc v
    else pure { sc with i := sc.i+1,token := sc.token++[v] }

/-- The loop, with the number of passes it may still take. -/
def coreLoop : ℕ → Scan → M ω Scan
  | 0, _ => fun _ => .error .exhausted
  | n+1, sc =>
    match s[sc.i]? with
    | none => pure sc
    | some v => coreStep c cb s parent parseAssign sc v >>= coreLoop n

/-- The values put together: the first that is not a string, or the text. -/
def joinVals (out : Bytes) : List Any → Any
  | [] => .str out
  | .str t::vals => joinVals (out++t) vals
  | v::_ => v

/-- What follows the loop. -/
def coreFinish (sc : Scan) : M ω Any := do
  if sc.token = [] then pure (joinVals [] sc.vals)
  else
    let r ← ofExcept (getWord sc.token sc.status)
    let sc := { sc with status := r.2.2 }
    let sc ← if r.2.1 then c.getVarAndFunc cb.parseString s r.1 parent parseAssign sc else pure sc
    pure (joinVals [] (sc.vals++[.str sc.token]))

def Scan.init : Scan := ⟨0,[],[],⟨0,false,false,0,false⟩⟩

/-- `ParseCore`: two passes for each byte are enough. -/
def coreBody : M ω Any :=
  if 36 ∈ s then
    coreLoop c cb s parent parseAssign (2*s.length+1) .init >>= coreFinish c cb s parent parseAssign
  else pure (.str s)

end Core

/-! ### `Parse` -/

/-- `slicePos` of `Parse`: NOT_FOUND, FOUND, IOTA or an index. -/
inductive SlicePos
  | notFound | found | iota
  | at (n : ℤ)
  deriving DecidableEq

/-- The variables of the loop of `Parse`. -/
structure Assign where
  i : ℕ
  wStart : ℕ
  wEnd : ℕ
  word : Bytes
  isVariable : Bool
  slicePos : SlicePos
  lefbrackets : ℕ
  isEqual : Bool

section Parse
variable (c : Conf ω) (cb : Callbacks ω) (s : Bytes) (parent : Parent)

/-- The branch of `Parse` for the bracket behind an index. -/
def assignIndex (a : Assign) : M ω SlicePos := do
  let text ← ofExcept (sub s a.lefbrackets a.i)
  if trimSpace text = [46,46,46] then pure .iota
  else
    -- an int value of the index leaves `slicePos` at FOUND
    match ← cb.parseCore text parent false with
    | .int _ => pure a.slicePos
    | .str t =>
      match parseInt t with
      | .ok n => pure (if n = -3 then .notFound else if n = -2 then .found else if n = -1 then .iota
          else .at n)
      | .error e => panic (.parseInt t e)
    | _ => panic .typeAssertion

/-- One pass of the loop: where the value starts, or the variables of the next pass. -/
def assignStep (a : Assign) (v : UInt8) : M ω (Sum Assign Assign) := do
  let a := if a.isVariable = false ∧ v = 36 then { a with isVariable := true,wStart := a.i+1 } else a
  if a.isVariable = false then pure (.inr { a with i := a.i+1 })
  else if a.isEqual ∧ v ≠ 32 ∧ v ≠ 61 then pure (.inl { a with wEnd := a.i })
  else
    let a := if a.slicePos = .notFound ∧ v = 91 then
        { a with lefbrackets := a.i+1,slicePos := .found,wEnd := a.i }
      else a
    let pos ← if a.slicePos = .found ∧ v = 93 then assignIndex cb s parent a else pure a.slicePos
    let a := { a with slicePos := pos }
    if v = 61 then
      let wEnd := if a.slicePos = .notFound then a.i else a.wEnd
      let word ← ofExcept (sub s a.wStart wEnd)
      pure (.inr { a with
        i := a.i+1,word := trimSpace word
        wEnd := if a.slicePos = .iota then a.i+1 else wEnd,isEqual := true })
    else pure (.inr { a with i := a.i+1 })

def assignLoop : ℕ → Assign → M ω Assign
  | 0, a => pure a
  | n+1, a =>
    match s[a.i]? with
    | none => pure (if a.word = [] then { a with wEnd := 0 } else a)
    | some v => do
      match ← assignStep cb s parent a v with
      | .inl a => pure a
      | .inr a => assignLoop n a

def str : Any → Except Panic Bytes
  | .str t => .ok t
  | _ => .error .typeAssertion

/-- The slice an assignment to an element stores, and the value it returns. -/
def updateSlice (slicePos : SlicePos) (oldSlice : Slice) (val : Any) : M ω Any := do
  match slicePos with
  | .notFound => pure val
  | .found => pure (.slice oldSlice)
  | .iota => do
    let v ← ofExcept (str val)
    let new ← appendSlice c oldSlice [v]
    pure (.slice new)
  | .at n => do
    if n < 0 then pure (.slice oldSlice)
    else
      let v ← ofExcept (str val)
      if n < (oldSlice.len : ℤ)-1 then
        writeSlice oldSlice n.toNat v
        pure (.slice oldSlice)
      else if n = (oldSlice.len : ℤ)-1 then
        -- the slice with the value appended is dropped again
        let _ ← appendSlice c oldSlice [v]
        pure (.slice oldSlice)
      else
        let new ← appendSlice c oldSlice (List.replicate (n.toNat-oldSlice.len+1) [])
        writeSlice new n.toNat v
        pure (.slice new)

/-- `Parse`. -/
def parseBody (parseAssign : Bool) : M ω Any := do
  if parseAssign = false then coreBody c cb s parent parseAssign
  else
    let a ← assignLoop cb s parent (s.length+1) ⟨0,0,0,[],false,.notFound,0,false⟩
    let text ← ofExcept (sub s a.wEnd s.length)
    let val ← coreBody c cb text parent parseAssign
    if a.word = [] then pure val
    else
      let st ← get
      let oldSlice : Slice := match st.rootMap a.word with
        | some (.slice old) => old
        | _ => ⟨0,0,0⟩
      let val ← updateSlice c a.slicePos oldSlice val
      modify fun st => { st with rootMap := Function.update st.rootMap a.word (some val) }
      pure val

end Parse

/-- The functions of a `Conf` at a recursion depth. -/
def Conf.callbacks (c : Conf ω) : ℕ → Callbacks ω
  | 0 => ⟨fun _ _ _ _ => .error .exhausted,fun _ _ _ _ => .error .exhausted⟩
  | d+1 => {
      parseCore := fun s parent parseAssign => coreBody c (c.callbacks d) s parent parseAssign
      parseString := fun s parent parseAssign => do
        match ← parseBody c (c.callbacks d) s parent parseAssign with
        | .str t => pure t
        | .int n => pure (itoa n)
        | _ => pure s }

/-- `ParseCore`. -/
def Conf.parseCore (c : Conf ω) (d : ℕ) : Bytes → Parent → Bool → M ω Any :=
  (c.callbacks (d+1)).parseCore

end GurlConf
end RecycleBin
