import RecycleBin.GurlConf
import Mathlib.Data.List.AList

/-! `BaseParse`, `BaseSend` and what calls them in `gurlib/gurl.go`: the steps of a chain, its
loops and the user functions. The steps are in memory that registered functions reach as well;
the network, the files a form names and the output are parameters. -/
namespace RecycleBin
namespace GurlSend
open GurlText GurlConf

/-- `SaveVar`. -/
abbrev SaveVar := AList fun _ : Bytes => Any

/-- The map as the expander sees it. -/
def SaveVar.parent (m : SaveVar) : Parent := fun x => m.lookup x

/-- What `BaseSend` keeps of a response: its body and its status. -/
structure Reply where
  body : Bytes
  statusCode : ℤ
  deriving DecidableEq

/-- The variables a step leaves to the next. -/
inductive Name
  | body | code
  deriving DecidableEq

def Name.key : Name → Bytes
  | .body => ascii "parent_http_body"
  | .code => ascii "parent_http_code"

def Reply.value (r : Reply) : Name → Bytes
  | .body => r.body
  | .code => itoa r.statusCode

/-- `NextMap`. -/
def Reply.nextMap (r : Reply) : SaveVar :=
  ((∅ : SaveVar).insert Name.body.key (.str r.body)).insert Name.code.key (.str (itoa r.statusCode))

/-- `curVal` before the maps are merged into it. -/
def Reply.curVal (r : Reply) : SaveVar :=
  ((∅ : SaveVar).insert (ascii "http_body") (.str r.body)).insert (ascii "http_code")
    (.str (itoa r.statusCode))

/-- The map behind a `NextMap`, which may be nil. -/
def savedVars (r : Option Reply) : SaveVar := (r.map Reply.nextMap).getD ∅

structure FormVal where
  tag : Bytes
  fname : Bytes
  body : Bytes
  deriving DecidableEq

structure If where
  cond : Bytes
  format : Bytes
  set : List Bytes
  deriving DecidableEq

/-- A `Base` without `Next`; `onIf` and `onElse` are its `If` and its `Else`. -/
structure Base where
  noSend : Bool
  set : List Bytes
  method : Bytes
  j : List Bytes
  f : List Bytes
  h : List Bytes
  url : Bytes
  o : Bytes
  jfa : List Bytes
  runF : List Bytes
  runH : List Bytes
  runUrl : Bytes
  runO : Bytes
  runJfa : List Bytes
  parent : Option ℕ
  nextMap : Option Reply
  formCache : List FormVal
  body : Bytes
  onIf : If
  onElse : If
  deriving DecidableEq

/-- A response; the body is none where it cannot be read to its end. -/
structure Response where
  statusCode : ℤ
  body : Option Bytes
  deriving DecidableEq

/-- The steps by their addresses, and whatever else there is. -/
abbrev World (ω : Type) := (ℕ → Base) × ω

/-- What is outside: `MemInit`, which reads the files of a form into a body and a form cache,
the two ways to send a request, and the output. -/
structure Client (ω : Type) where
  memInit : Base → M (World ω) (Bytes × List FormVal)
  multipart : Base → M (World ω) (Option Response)
  bodyRequest : Base → M (World ω) (Option Response)
  output : Base → Response → Bytes → M (World ω) Unit

/-! ### Runs -/

/-- Why a run does not go on. -/
inductive Halt
  | stop (s : Stop)
  | args (name : Bytes) (n : ℕ)
  deriving DecidableEq

/-- A map that is handed to the expander. `vars` are the variables of the loop and the arguments
of the function, `reply` what the step before has got in this iteration, `inherited` what
`Parent.NextMap` is, `merges` whether it has been merged into the map of the loop. -/
structure Scope where
  vars : SaveVar
  reply : Option Reply
  inherited : Option Reply
  merges : Bool
  map : SaveVar

/-- A scope, and the global variables when a template is expanded in it. -/
structure View where
  scope : Scope
  root : Parent

/-- What `findVal` finds. -/
def View.visible (v : View) (s : Bytes) : Option Any := (v.root s).or (v.scope.map.lookup s)

variable {ω : Type}

/-- The store, and what the steps have seen so far. -/
structure Sys (ω : Type) where
  store : Store (World ω)
  views : List View

/-- A run; what has been seen stays where it halts. -/
abbrev Run (ω : Type) := ExceptT Halt (StateM (Sys ω))

/-- An action on the store. -/
def act {α : Type} (m : M (World ω) α) : Run ω α := fun s =>
  match m s.store with
  | .ok (a,st) => (.ok a,{ s with store := st })
  | .error e => (.error (.stop e),s)

def note (sc : Scope) : Run ω Unit := fun s =>
  (.ok (),{ s with views := s.views++[⟨sc,s.store.rootMap⟩] })

def base (b : ℕ) : M (World ω) Base := fun st => .ok (st.world.1 b,st)

def modifyBase (b : ℕ) (f : Base → Base) : M (World ω) Unit := fun st =>
  .ok ((),{ st with world := (Function.update st.world.1 b (f (st.world.1 b)),st.world.2) })

/-- `Parent.NextMap`, where there is a parent. -/
def parentNextMap (g : Base) : M (World ω) (Option Reply) :=
  match g.parent with
  | none => pure none
  | some p => do return (← base p).nextMap

/-! ### The expander -/

section
variable (c : Conf (World ω)) (d : ℕ)

/-- `c.Parse`. -/
def parse (s : Bytes) (m : SaveVar) (parseAssign : Bool) : M (World ω) Any :=
  parseBody c (c.callbacks d) s m.parent parseAssign

/-- `c.ParseString`. -/
def parseString (s : Bytes) (m : SaveVar) (parseAssign : Bool) : M (World ω) Bytes :=
  (c.callbacks (d+1)).parseString s m.parent parseAssign

/-- `c.ParseBool`. -/
def parseBool (s : Bytes) (m : SaveVar) (parseAssign : Bool) : M (World ω) Bool :=
  if trimSpace s = ascii "yes" then pure true
  else do
    match ← parse c d s m parseAssign with
    | .bool b => pure b
    | _ => pure false

/-- `[]string{s}`. -/
def newSlice (s : Bytes) : M (World ω) Slice := fun st =>
  .ok (⟨st.fresh,1,1⟩,{ st with heap := Function.update st.heap st.fresh [s],fresh := st.fresh+1 })

/-- `c.ParseSlice`. -/
def parseSlice (s : Bytes) (m : SaveVar) (parseAssign : Bool) : M (World ω) Slice := do
  match ← parse c d s m parseAssign with
  | .slice sl => pure sl
  | _ => newSlice s

/-- The elements of a slice. -/
def elements (sl : Slice) : M (World ω) (List Bytes) := fun st =>
  .ok ((st.heap sl.base).take sl.len,st)

/-- `c.ParseName`. -/
def parseName (s : Bytes) : Bytes :=
  match s.dropWhile fun b => b ≠ 36 with
  | [] => s
  | _::s => trimSpace s

/-! ### `BaseParse` -/

def isRootHeader (hv : Bytes) : Bool := trimSpace hv = ascii "$root_header"

/-- The pass over the headers behind `isRootH`. -/
def newHeader (m : SaveVar) : List Bytes → M (World ω) (List Bytes)
  | [] => pure []
  | hv::hs => do
    let new ← if isRootHeader hv then parseSlice c d hv m true >>= elements
      else do pure [← parseString c d hv m true]
    return new++(← newHeader m hs)

/-- A form field. -/
def parseField (g : ℕ) (sc : Scope) (t : Bytes × ℕ) : Run ω Unit := do
  note sc
  act do
    let v ← parseString c d t.1 sc.map true
    modifyBase g fun b => { b with runF := b.runF.set t.2 v }

def parseFields (g : ℕ) (sc : Scope) : List (Bytes × ℕ) → Run ω Unit
  | [] => pure ()
  | t::ts => do
    parseField c d g sc t
    parseFields g sc ts

/-- The headers; none of them is expanded where `$root_header` is not among them. -/
def parseHeaders (g : ℕ) (m : SaveVar) : M (World ω) Unit := do
  let hs := (← base g).runH
  if hs.any isRootHeader then
    let new ← newHeader c d m hs
    modifyBase g fun b => { b with runH := new }

/-- The maps of `BaseParse`: that of the loop with what it takes over, and the one the templates
are expanded in. -/
def mergeMaps (rangeMap parentMap : SaveVar) : SaveVar × SaveVar :=
  if rangeMap.keys ≠ [] then (rangeMap ∪ parentMap,rangeMap ∪ parentMap) else (rangeMap,parentMap)

/-- `BaseParse`, with the map of the loop as it leaves it. -/
def baseParse (g : ℕ) (vars : SaveVar) (reply : Option Reply) (rangeMap : SaveVar) :
    Run ω SaveVar := do
  let b ← act (base g)
  let inherited ← act (parentNextMap b)
  let maps := mergeMaps rangeMap (savedVars inherited)
  let sc : Scope := ⟨vars,reply,inherited,rangeMap.keys ≠ [],maps.2⟩
  act (modifyBase g fun b => { b with
    runF := b.f,runJfa := b.jfa,runUrl := b.url,runH := b.h,runO := b.o })
  note sc
  act do
    let url ← parseString c d b.url sc.map true
    modifyBase g fun b => { b with runUrl := url }
  parseFields c d g sc b.f.zipIdx
  act (parseHeaders c d g sc.map)
  return maps.1

/-! ### `BaseSend` -/

variable (client : Client ω)

/-- `b.MemInit()`. -/
def memInit (b : ℕ) : M (World ω) Unit := do
  let r ← client.memInit (← base b)
  modifyBase b fun b => { b with body := r.1,formCache := r.2 }

/-- The method where none is given, and the request. -/
def request (b : ℕ) : M (World ω) (Option Response) := do
  modifyBase b fun b => { b with
    method := if b.method ≠ [] then b.method else if b.formCache ≠ [] then ascii "POST"
      else ascii "GET" }
  let g ← base b
  if g.formCache ≠ [] then client.multipart g else client.bodyRequest g

/-- The output, and the assignments behind it. -/
def finish (b : ℕ) (rsp : Response) (body : Bytes) (ifVal : Bool) (curVal : SaveVar) :
    M (World ω) Unit := do
  let g ← base b
  client.output g rsp body
  let set := if ifVal then g.onIf.set else g.onElse.set
  set.forM fun v => do
    let _ ← parse c d v curVal true

/-- The condition, and the text it chooses. -/
def checkCond (b : ℕ) (rsp : Response) (body : Bytes) (sc : Scope) : Run ω Unit := do
  note sc
  act do
    let g ← base b
    let ifVal ← parseBool c d g.onIf.cond sc.map false
    let body ← if ifVal then parseString c d g.onIf.format sc.map false
      else if g.onElse.format ≠ [] then parseString c d g.onElse.format sc.map false
      else pure body
    finish c d client b rsp body ifVal sc.map

/-- `BaseSend` behind a response; `hasNext` is whether a step follows. -/
def receive (b : ℕ) (hasNext : Bool) (vars : SaveVar) (reply : Option Reply) (valMap : SaveVar)
    (rsp : Response) : Run ω Unit := do
  let g ← act (base b)
  if (hasNext ∧ g.runUrl ≠ []) ∨ g.onIf.cond ≠ [] then
    match rsp.body with
    | none => pure ()
    | some body => do
      let r : Reply := ⟨body,rsp.statusCode⟩
      act (modifyBase b fun b => { b with nextMap := some r })
      let inherited ← act (parentNextMap g)
      checkCond c d client b rsp body
        ⟨vars,reply,inherited,false,valMap ∪ (savedVars inherited ∪ r.curVal)⟩
  else act (finish c d client b rsp [] false ∅)

/-- What there is of a response for the next step. -/
def Response.reply (rsp : Response) : Option Reply := rsp.body.map fun body => ⟨body,rsp.statusCode⟩

/-- `BaseSend`, with what it has got. -/
def baseSend (b : ℕ) (hasNext : Bool) (vars : SaveVar) (reply : Option Reply) (valMap : SaveVar) :
    Run ω (Option Reply) := do
  let g ← act (base b)
  if g.noSend then return none
  else
    match ← act (request client b) with
    | none => return none
    | some rsp =>
      receive c d client b hasNext vars reply valMap rsp
      return rsp.reply

/-! ### Chains -/

/-- A step: `BaseParse`, `MemInit` and `BaseSend`. -/
def step (b : ℕ) (hasNext : Bool) (vars : SaveVar) (reply : Option Reply) (valMap : SaveVar) :
    Run ω (SaveVar × Option Reply) := do
  let valMap ← baseParse c d b vars reply valMap
  act (memInit client b)
  let r ← baseSend c d client b hasNext vars reply valMap
  return (valMap,r)

/-- The loop of `ChildInitSend` behind the step `v2`, over the steps linked by `Next`. -/
def sendNext (vars : SaveVar) (v2 : ℕ) (reply : Option Reply) : List ℕ → SaveVar → Run ω SaveVar
  | [], valMap => pure valMap
  | n::next, valMap => do
    act (modifyBase n fun b => { b with parent := some v2 })
    let r ← step c d client n (next ≠ []) vars reply valMap
    sendNext vars n r.2 next r.1

/-- `ChildInitSend`, with the map of the loop as it leaves it. -/
def childInitSend (b : ℕ) (next : List ℕ) (vars valMap : SaveVar) : Run ω SaveVar := do
  let r ← step c d client b (next ≠ []) vars none valMap
  sendNext c d client vars b r.2 next r.1

/-- A `For`, with the steps of its chain. -/
structure For where
  range : Bytes
  k : Bytes
  v : Bytes
  base : ℕ
  next : List ℕ

/-- `rangeMap[key] = k` and `rangeMap[val] = v`. -/
def setRange (fr : For) (i : ℕ) (v : Bytes) (m : SaveVar) : SaveVar :=
  (m.insert (parseName fr.k) (.int i)).insert (parseName fr.v) (.str v)

/-- The iterations. -/
def forRange (fr : For) (sl : Slice) : List ℕ → SaveVar → SaveVar → Run ω (SaveVar × SaveVar)
  | [], vars, rangeMap => pure (vars,rangeMap)
  | i::is, vars, rangeMap => do
    let v ← act (readSlice sl i)
    let vars := setRange fr i v vars
    let rangeMap ← childInitSend c d client fr.base fr.next vars (setRange fr i v rangeMap)
    act do (← base fr.base).set.forM fun vv => do
      let _ ← parse c d vv rangeMap true
    forRange fr sl is vars rangeMap

/-- `RunFor`, with the maps as it leaves them. -/
def runFor (fr : For) (vars rangeMap : SaveVar) : Run ω (SaveVar × SaveVar) := do
  if fr.range = [] then return (vars,rangeMap)
  else
    let sl ← act (parseSlice c d fr.range ∅ true)
    forRange c d client fr sl (List.range sl.len) vars rangeMap

/-- A `Func`, with the steps of its chain. -/
structure Function where
  name : Bytes
  args : List Bytes
  loop : For
  base : ℕ
  next : List ℕ

/-- The arguments under the names of the parameters. -/
def setArgs : List Bytes → List Bytes → SaveVar → Except Panic SaveVar
  | _, [], m => .ok m
  | [], _::_, _ => .error .index
  | a::args, v::vals, m => setArgs args vals (m.insert (parseName a) (.str v))

/-- `GurlFunc`. -/
def gurlFunc (f : Function) (callArgs : List Bytes) : Run ω Unit := do
  if callArgs.length < f.args.length then throw (.args f.name f.args.length)
  else
    let rangeMap ← act (ofExcept (setArgs f.args callArgs ∅))
    let r ← runFor c d client f.loop rangeMap rangeMap
    let _ ← childInitSend c d client f.base f.next r.1 r.2

/-- What runs chains over one map: a `for` loop of a child, or the call of a user function. -/
inductive Caller
  | loop (fr : For)
  | call (f : Function) (callArgs : List Bytes)

def Caller.run : Caller → Run ω Unit
  | .loop fr => do let _ ← runFor c d client fr ∅ ∅
  | .call f callArgs => gurlFunc c d client f callArgs

/-- What the steps see in a run. -/
def Caller.views (caller : Caller) (st : Store (World ω)) : List View :=
  (caller.run c d client ⟨st,[]⟩).2.views

end

end GurlSend
end RecycleBin
