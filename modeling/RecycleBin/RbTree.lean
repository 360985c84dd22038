import RecycleBin.Refinement

/-! The red-black tree of `rbtree.go`, on a heap of nodes. Pointers are addresses or
nil; using nil panics. The statements of the Go functions are kept in their order,
the setters that colour the parent included. -/
namespace RecycleBin
namespace RbTree

/-- `parentColor`. -/
structure ParentColor where
  parent : Option ℕ
  red : Bool
  black : Bool
  deriving DecidableEq

structure Node (K V : Type) where
  left : Option ℕ
  right : Option ℕ
  val : V
  key : K
  pc : ParentColor

/-- `RBTree` with the nodes it can reach; `fresh` is the next address allocated. -/
structure RBTree (K V : Type) where
  length : ℤ
  root : Option ℕ
  nodes : ℕ → Option (Node K V)
  fresh : ℕ

inductive Color
  | red | black

inductive Err
  | notFound
  deriving DecidableEq

/-- `New`. -/
def new (K V : Type) : RBTree K V := ⟨0,none,fun _ => none,0⟩

abbrev Prog (K V : Type) := StateT (RBTree K V) (Except Fault)

section Heap
variable {K V : Type}

def load (p : Option ℕ) : Prog K V (Node K V) := fun s =>
  match p with
  | none => .error .panic
  | some a =>
    match s.nodes a with
    | some n => .ok (n,s)
    | none => .error .undefined

def store (p : Option ℕ) (f : Node K V → Node K V) : Prog K V Unit := fun s =>
  match p with
  | none => .error .panic
  | some a =>
    match s.nodes a with
    | some n => .ok ((),{ s with nodes := Function.update s.nodes a (some (f n)) })
    | none => .error .undefined

def alloc (n : Node K V) : Prog K V (Option ℕ) := fun s =>
  .ok (some s.fresh,{ s with nodes := Function.update s.nodes s.fresh (some n), fresh := s.fresh+1 })

def loadRoot : Prog K V (Option ℕ) := fun s => .ok (s.root,s)

def storeRoot (p : Option ℕ) : Prog K V Unit := fun s => .ok ((),{ s with root := p })

def incLength : Prog K V Unit := fun s => .ok ((),{ s with length := s.length+1 })

def setLeft (p x : Option ℕ) : Prog K V Unit := store p fun n => { n with left := x }

def setRight (p x : Option ℕ) : Prog K V Unit := store p fun n => { n with right := x }

def setParentColor (p : Option ℕ) (pc : ParentColor) : Prog K V Unit :=
  store p fun n => { n with pc := pc }

def setColor (p : Option ℕ) (red black : Bool) : Prog K V Unit :=
  store p fun n => { n with pc := { n.pc with red := red, black := black } }

def setParent (n parent : Option ℕ) : Prog K V Unit :=
  store n fun x => { x with pc := { x.pc with parent := parent } }

def setBlack (n : Option ℕ) : Prog K V Unit := setColor n false true

def setParentRed (n parent : Option ℕ) : Prog K V Unit := do
  setColor parent true false
  setParent n parent

def setParentBlack (n parent : Option ℕ) : Prog K V Unit := do
  setColor parent false true
  setParent n parent

section Run
variable {s : RBTree K V} {a : ℕ} {n : Node K V}

theorem run_load (h : s.nodes a = some n) : (load (some a) : Prog K V _).run s = .ok (n,s) := by
  simp [load,StateT.run,h]

theorem run_store (h : s.nodes a = some n) (f : Node K V → Node K V) :
    (store (some a) f).run s =
      .ok ((),{ s with nodes := Function.update s.nodes a (some (f n)) }) := by
  simp [store,StateT.run,h]

theorem run_alloc : (alloc n).run s = .ok (some s.fresh,
    { s with nodes := Function.update s.nodes s.fresh (some n), fresh := s.fresh+1 }) := rfl

theorem run_loadRoot : (loadRoot : Prog K V _).run s = .ok (s.root,s) := rfl

theorem run_storeRoot (p : Option ℕ) :
    (storeRoot p : Prog K V _).run s = .ok ((),{ s with root := p }) := rfl

theorem run_incLength : (incLength : Prog K V _).run s = .ok ((),{ s with length := s.length+1 }) :=
  rfl

end Run

/-- `tmp != nil && tmp.red`. -/
def isRed (tmp : Option ℕ) : Prog K V Bool := do
  if tmp = none then pure false
  else
    let t ← load tmp
    pure t.pc.red

/-- `tmp == nil || tmp.black`. -/
def isBlack (tmp : Option ℕ) : Prog K V Bool := do
  if tmp = none then pure true
  else
    let t ← load tmp
    pure t.pc.black

/-- `link`; its second argument is `&r.root.node` at every call. -/
def link (n parent : Option ℕ) : Prog K V Unit := do
  setParentColor n ⟨parent,true,false⟩
  storeRoot n

def changeChild (old new parent : Option ℕ) : Prog K V Unit := do
  if parent ≠ none then
    let p ← load parent
    if p.left = old then setLeft parent new else setRight parent new
  else storeRoot new

def rotateSetParents (old new : Option ℕ) (color : Color) : Prog K V Unit := do
  let o ← load old
  let parent := o.pc.parent
  setParent new parent
  match color with
  | .red => setParentRed old parent
  | .black => setParentBlack old parent
  changeChild old new parent

/-- `if tmp != nil { tmp.setParentBlack(parent) }`. -/
def adopt (tmp parent : Option ℕ) : Prog K V Unit := do
  if tmp ≠ none then setParentBlack tmp parent else pure ()

/-- The loop of `root.insert`. -/
def insertLoop : ℕ → Option ℕ → Option ℕ → Prog K V Unit
  | 0, _, _ => throw .exhausted
  | fuel+1, n, parent => do
    if parent = none then pure ()
    else
      let p ← load parent
      if p.pc.black then pure ()
      else
        let gparent := p.pc.parent
        let g ← load gparent
        let tmp := g.right
        if parent ≠ tmp then
          if ← isRed tmp then
            setParentBlack tmp gparent
            setParentRed parent gparent
            let n := gparent
            let x ← load n
            let parent := x.pc.parent
            setParentRed n parent
            insertLoop fuel n parent
          else
            let p ← load parent
            let tmp := p.right
            let (parent,tmp) ←
              if n = tmp then do
                let x ← load n
                let tmp := x.left
                setRight parent tmp
                setLeft n parent
                adopt tmp parent
                setParentRed parent n
                let parent := n
                let x ← load n
                pure (parent,x.right)
              else pure (parent,tmp)
            setLeft gparent tmp
            setRight parent gparent
            adopt tmp gparent
        else
          let tmp := g.left
          if ← isRed tmp then
            setParentBlack tmp gparent
            setParentRed parent gparent
            let n := gparent
            let x ← load n
            let parent := x.pc.parent
            setParentRed n parent
            insertLoop fuel n parent
          else
            let p ← load parent
            let tmp := p.left
            let (parent,tmp) ←
              if n = tmp then do
                let x ← load n
                let tmp := x.right
                setLeft parent tmp
                setRight parent parent
                adopt tmp parent
                setParentRed parent n
                let parent := n
                let x ← load n
                pure (parent,x.left)
              else pure (parent,tmp)
            setRight gparent tmp
            setLeft parent gparent
            adopt tmp gparent
            rotateSetParents gparent parent .red

/-- `root.insert`. -/
def insert (fuel : ℕ) (n : Option ℕ) : Prog K V Unit := do
  let x ← load n
  insertLoop fuel n x.pc.parent

/-- The inner loop of `eraseAugmented`: the successor and its parent. -/
def successorLoop : ℕ → Option ℕ → Option ℕ → Prog K V (Option ℕ × Option ℕ)
  | 0, _, _ => throw .exhausted
  | fuel+1, successor, tmp => do
    let parent := successor
    let successor := tmp
    let t ← load tmp
    let tmp := t.right
    if tmp = none then pure (successor,parent)
    else successorLoop fuel successor tmp

/-- `root.eraseAugmented`: the node to rebalance at. -/
def eraseAugmented (fuel : ℕ) (n : Option ℕ) : Prog K V (Option ℕ) := do
  let x ← load n
  let child := x.right
  let tmp := x.left
  if tmp = none then
    let pc := x.pc
    let parent := pc.parent
    changeChild n child parent
    if child ≠ none then
      setParentColor child pc
      pure none
    else if pc.black then pure parent
    else pure none
  else if child = none then
    setParentColor tmp x.pc
    let x ← load n
    let parent := x.pc.parent
    changeChild n tmp parent
    pure none
  else
    let c ← load child
    let tmp := c.left
    let (successor,parent,child2) ←
      if tmp = none then pure (child,child,c.right)
      else do
        let (successor,parent) ← successorLoop fuel child tmp
        let s ← load successor
        let child2 := s.right
        setLeft parent child2
        setRight successor child
        setParent child successor
        pure (successor,parent,child2)
    let x ← load n
    let tmp := x.left
    setLeft successor tmp
    setParent tmp successor
    let x ← load n
    let pc := x.pc
    let tmp := pc.parent
    changeChild n successor tmp
    if child2 ≠ none then
      setParentColor successor pc
      setParentBlack child2 parent
      pure none
    else
      let s ← load successor
      setParentColor successor pc
      if s.pc.black then pure parent else pure none

/-- The loop of `root.eraseColor`. -/
def eraseColorLoop : ℕ → Option ℕ → Option ℕ → Prog K V Unit
  | 0, _, _ => throw .exhausted
  | fuel+1, n, parent => do
    let p ← load parent
    let sibling := p.right
    if n ≠ sibling then
      let s ← load sibling
      let sibling ←
        if s.pc.red then do
          let tmp1 := s.left
          setRight parent tmp1
          setLeft sibling parent
          setParentBlack tmp1 parent
          rotateSetParents parent sibling .red
          pure tmp1
        else pure sibling
      let s ← load sibling
      let tmp1 := s.right
      let tmp2 := s.left
      let flip ←
        if ← isBlack tmp1 then isBlack tmp2 else pure false
      if flip then
        setParentRed sibling parent
        let p ← load parent
        if p.pc.red then setBlack parent
        else
          let n := parent
          let parent := p.pc.parent
          if parent ≠ none then eraseColorLoop fuel n parent else pure ()
      else
        let (sibling,tmp1) ←
          if ← isBlack tmp1 then do
            let t ← load tmp2
            let tmp1 := t.right
            setLeft sibling tmp1
            setRight tmp2 sibling
            setRight parent tmp2
            adopt tmp1 sibling
            pure (tmp2,sibling)
          else pure (sibling,tmp1)
        let s ← load sibling
        let tmp2 := s.left
        setRight parent tmp2
        setLeft sibling parent
        setParentRed tmp1 sibling
        if tmp2 ≠ none then setParent tmp2 parent else pure ()
        rotateSetParents parent sibling .red
    else
      let sibling := p.left
      let s ← load sibling
      let sibling ←
        if s.pc.red then do
          let tmp1 := s.right
          setLeft parent tmp1
          setRight sibling parent
          setParentBlack tmp1 parent
          rotateSetParents parent sibling .red
          pure tmp1
        else pure sibling
      let s ← load sibling
      let tmp1 := s.left
      let tmp2 := s.right
      let flip ←
        if ← isBlack tmp1 then isBlack tmp2 else pure false
      if flip then
        setParentRed sibling parent
        let p ← load parent
        if p.pc.red then setBlack parent
        else
          let n := parent
          let parent := p.pc.parent
          if parent ≠ none then eraseColorLoop fuel n parent else pure ()
      else
        let (sibling,tmp1) ←
          if ← isBlack tmp1 then do
            let t ← load tmp2
            let tmp1 := t.left
            setRight sibling tmp1
            setLeft tmp2 sibling
            setLeft parent tmp2
            adopt tmp1 sibling
            pure (tmp2,sibling)
          else pure (sibling,tmp1)
        let s ← load sibling
        let tmp2 := s.right
        setLeft parent tmp2
        setRight sibling parent
        setParentBlack tmp1 sibling
        if tmp2 ≠ none then setParent tmp2 parent else pure ()
        rotateSetParents parent sibling .black

/-- `root.eraseColor`. -/
def eraseColor (fuel : ℕ) (parent : Option ℕ) : Prog K V Unit := eraseColorLoop fuel none parent

/-- The loop `for n.left != nil`. -/
def leftmost : ℕ → Option ℕ → Prog K V (Node K V)
  | 0, _ => throw .exhausted
  | fuel+1, n => do
    let x ← load n
    if x.left ≠ none then leftmost fuel x.left else pure x

/-- The loop `for n.right != nil`. -/
def rightmost : ℕ → Option ℕ → Prog K V (Node K V)
  | 0, _ => throw .exhausted
  | fuel+1, n => do
    let x ← load n
    if x.right ≠ none then rightmost fuel x.right else pure x

end Heap

section Tree
variable {K V : Type} [LinearOrder K] [Inhabited V]

/-- `First`; the zero value goes with the error. -/
def first (fuel : ℕ) : Prog K V (V × Option Err) := do
  let n ← loadRoot
  if n = none then pure (default,some .notFound)
  else
    let x ← leftmost fuel n
    pure (x.val,none)

/-- `Last`. -/
def last (fuel : ℕ) : Prog K V (V × Option Err) := do
  let n ← loadRoot
  if n = none then pure (default,some .notFound)
  else
    let x ← rightmost fuel n
    pure (x.val,none)

/-- The loop of `SetWithPrev`. `link` stays `&r.root.node`, so the descent writes the
root; it ends at a key that is present, or at nil below `parent`. -/
def descend (k : K) (v : V) : ℕ → Option ℕ → Prog K V (V ⊕ Option ℕ)
  | 0, _ => throw .exhausted
  | fuel+1, parent => do
    let l ← loadRoot
    if l = none then pure (.inr parent)
    else
      let parent := l
      let p ← load parent
      if p.key = k then
        store parent fun x => { x with val := v }
        pure (.inl p.val)
      else
        if p.key < k then storeRoot p.right else storeRoot p.left
        descend k v fuel parent

/-- `SetWithPrev`. -/
def setWithPrev (fuel : ℕ) (k : K) (v : V) : Prog K V (V × Bool) := do
  let node ← alloc ⟨none,none,v,k,⟨none,false,false⟩⟩
  match ← descend k v fuel none with
  | .inl prev => pure (prev,true)
  | .inr parent =>
    link node parent
    insert fuel node
    incLength
    pure (default,false)

/-- The search loop of `GetWithErr` and `Delete`. -/
def find (k : K) : ℕ → Option ℕ → Prog K V (Option ℕ)
  | 0, _ => throw .exhausted
  | fuel+1, n => do
    if n = none then pure none
    else
      let x ← load n
      if x.key = k then pure n
      else if k > x.key then find k fuel x.right
      else find k fuel x.left

/-- `GetWithErr`. -/
def getWithErr (fuel : ℕ) (k : K) : Prog K V (V × Option Err) := do
  let n ← find k fuel (← loadRoot)
  if n = none then pure (default,some .notFound)
  else
    let x ← load n
    pure (x.val,none)

/-- `Delete`; it rebalances at the node it removed and leaves `length` alone. -/
def delete (fuel : ℕ) (k : K) : Prog K V Unit := do
  let n ← find k fuel (← loadRoot)
  if n = none then pure ()
  else
    let rebalance ← eraseAugmented fuel n
    if rebalance ≠ none then eraseColor fuel n else pure ()

end Tree
end RbTree
end RecycleBin
