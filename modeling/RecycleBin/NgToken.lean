import RecycleBin.Refinement

/-! The tokenizer of the configuration files: `readToken` on a file and a buffer. The
control flow of one round of its loop is kept apart from what the round does to the buffer,
so that it can also be run on bytes alone. -/
namespace RecycleBin.NgToken

/-- The results of `readToken`. -/
inductive Rc
  | ok | error | blockStart | blockDone | fileDone
  deriving DecidableEq,Repr

/-- `' '`, `'\t'`, `'\r'` and `'\n'`. -/
def blank (ch : UInt8) : Bool := ch = 32 ∨ ch = 9 ∨ ch = 13 ∨ ch = 10

/-- The flags of the loop. -/
structure Flags where
  needSpace : Bool := false
  lastSpace : Bool := true
  sharpComment : Bool := false
  isVariable : Bool := false
  quoted : Bool := false
  sQuoted : Bool := false
  dQuoted : Bool := false
  deriving DecidableEq,Repr

/-- What a round does to `start`: nothing, set it to the byte just read, or behind it. -/
inductive Move
  | keep | here | behind
  deriving DecidableEq,Repr

/-- How a round ends: the loop goes on, a word ends at this byte and the function may return, or
the function returns. -/
inductive Act
  | go (v : Flags) (move : Move)
  | word (v : Flags) (rc : Option Rc)
  | ret (rc : Rc)
  deriving DecidableEq,Repr

/-- A byte between words. The case of `';'` is empty, and a case does not fall through. -/
def Flags.space (v : Flags) (ch : UInt8) (empty : Bool) : Act :=
  if blank ch then .go v .keep
  else if ch = 59 then .go v .here
  else if ch = 123 then if empty then .ret .error else .ret .blockStart
  else if ch = 125 then if empty then .ret .blockDone else .ret .error
  else if ch = 35 then .go { v with sharpComment := true } .here
  else if ch = 92 then .go { v with quoted := true, lastSpace := false } .here
  else if ch = 34 then .go { v with dQuoted := true, lastSpace := false } .behind
  else if ch = 39 then .go { v with sQuoted := true, lastSpace := false } .behind
  else .go { v with lastSpace := false } .here

/-- A byte in a word. -/
def Flags.inWord (v : Flags) (ch : UInt8) : Act :=
  if ch = 123 ∧ v.isVariable then .go v .keep
  else
    let v := { v with isVariable := false }
    if ch = 92 then .go { v with quoted := true } .keep
    else if ch = 36 then .go { v with isVariable := true } .keep
    else if v.dQuoted then
      if ch = 34 then .word { v with dQuoted := false, needSpace := true } none else .go v .keep
    else if v.sQuoted then
      if ch = 39 then .word { v with sQuoted := false, needSpace := true } none else .go v .keep
    else if blank ch ∨ ch = 59 ∨ ch = 123 then
      .word { v with lastSpace := true }
        (if ch = 59 then some .ok else if ch = 123 then some .blockStart else none)
    else .go v .keep

/-- One round of the loop on the byte `ch`; `empty` tells that there are no arguments yet. -/
def Flags.step (v : Flags) (ch : UInt8) (empty : Bool) : Act :=
  let v := if ch = 10 then { v with sharpComment := false } else v
  if v.sharpComment then .go v .keep
  else if v.quoted then .go { v with quoted := false } .keep
  else if v.needSpace then
    if blank ch then .go { v with lastSpace := true, needSpace := false } .keep
    else if ch = 59 then .ret .ok
    else if ch = 123 then .ret .blockStart
    else if ch = 41 then { v with lastSpace := true, needSpace := false }.space ch empty
    else .ret .error
  else if v.lastSpace then v.space ch empty
  else v.inWord ch

/-- The copy of a word of `n` bytes that starts at the front of the buffer. Of the escapes only
the backslash loses the backslash before it: the cases of the quotes are empty. -/
def decode : ℕ → List UInt8 → List UInt8
  | 0, _ => []
  | _+1, [] => []
  | n+1, b::s =>
    if b = 92 then
      match s with
      | [] => [b]
      | c::s' =>
        if c = 92 then 92::decode (n-1) s'
        else if c = 116 then 9::decode (n-1) s'
        else if c = 114 then 13::decode (n-1) s'
        else if c = 110 then 10::decode (n-1) s'
        else b::decode n (c::s')
    else b::decode n s

structure File where
  content : List UInt8
  /-- The offset of the descriptor. -/
  offset : ℕ := 0
  deriving DecidableEq,Repr

/-- The capacity of a buffer is the length of its slice. -/
structure Buffer where
  pos : ℕ := 0
  buf : List UInt8
  deriving DecidableEq,Repr

/-- What `readToken` works on. -/
structure Reader where
  file : File
  line : ℕ := 0
  offset : ℕ := 0
  buffer : Buffer
  args : List (List UInt8) := []
  deriving DecidableEq,Repr

/-- `b.Shrink(start, l)` copies the bytes from `start` up to `l` to the front. -/
def Buffer.shrink (b : Buffer) (start l : ℕ) : Except Fault Buffer :=
  if start ≤ l ∧ l ≤ b.buf.length then
    .ok { b with buf := (b.buf.take l).drop start++b.buf.drop (l-start) }
  else .error .panic

/-- `File.Read` into the part of the buffer from `b.Pos` to `size`: the number of bytes read,
`none` at the end of the file. -/
def read (f : File) (b : Buffer) (size : ℕ) : Except Fault (Option ℕ × File × Buffer) :=
  if b.pos ≤ size ∧ size ≤ b.buf.length then
    let bytes := (f.content.drop f.offset).take (size-b.pos)
    if bytes = [] ∧ b.pos < size then .ok (none,f,b)
    else
      .ok (some bytes.length,{ f with offset := f.offset+bytes.length },
        { b with buf := b.buf.take b.pos++bytes++b.buf.drop (b.pos+bytes.length) })
  else .error .panic

/-- At the end of the buffer and at its beginning bytes are read: the result the function returns
with, or the new `start`. -/
def refill (s : Reader) (start : ℕ) : Except Fault ((Rc ⊕ ℕ) × Reader) := do
  let size := s.file.content.length-s.offset
  if size = 0 then .ok (.inl .fileDone,s)
  else
    let l := s.buffer.pos-start
    let b ← if l > 0 then s.buffer.shrink start l else .ok s.buffer
    let size := min size (b.buf.length-l)
    match ← read s.file b size with
    | (none,file,b) => .ok (.inl .ok,{ s with file := file, buffer := b })
    | (some n,file,b) =>
      if n ≠ size then .ok (.inl .error,{ s with file := file, buffer := b })
      else
        .ok (.inr 0,{ s with
          file := file, buffer := { b with pos := l }, offset := s.offset+n })

/-- The next byte: behind what was read the last byte is seen again. -/
def next (s : Reader) (ch : UInt8) : Except Fault (UInt8 × Reader) := do
  let ch ← if s.buffer.pos < s.offset then
      match s.buffer.buf[s.buffer.pos]? with
      | some b => .ok b
      | none => .error .panic
    else .ok ch
  .ok (ch,{ s with
    buffer := { s.buffer with pos := s.buffer.pos+1 }
    line := if ch = 10 then s.line+1 else s.line })

/-- The word from `start` up to the byte before the last one read. -/
def Reader.wordAt (s : Reader) (start : ℕ) : List UInt8 :=
  decode (s.buffer.pos-1-start) (s.buffer.buf.drop start)

def Move.start (start pos : ℕ) : Move → ℕ
  | keep => start
  | here => pos-1
  | behind => pos

/-- A round on the next byte; `again` is what the loop does next. -/
def tokenRound (again : UInt8 → Flags → ℕ → Reader → Except Fault (Rc × Reader)) (ch : UInt8)
    (v : Flags) (start : ℕ) (s : Reader) : Except Fault (Rc × Reader) := do
  let (ch,s) ← next s ch
  match v.step ch (s.args = []) with
  | .ret rc => .ok (rc,s)
  | .go v move => again ch v (move.start start s.buffer.pos) s
  | .word v rc =>
    let s := { s with args := s.args++[s.wordAt start] }
    match rc with
    | some rc => .ok (rc,s)
    | none => again ch v start s

/-- The loop of `readToken`, with the last byte read, the flags and the start of the word. -/
def tokenLoop : ℕ → UInt8 → Flags → ℕ → Reader → Except Fault (Rc × Reader)
  | 0, _, _, _, _ => .error .exhausted
  | fuel+1, ch, v, start, s => do
    let (r,s) ← if s.buffer.pos ≥ s.buffer.buf.length ∨ s.buffer.pos = 0 then refill s start
      else .ok (.inr start,s)
    match r with
    | .inl rc => .ok (rc,s)
    | .inr start => tokenRound (tokenLoop fuel) ch v start s

/-- The rounds are at most one for each byte of the buffer and one behind it. -/
def readToken (s : Reader) : Except Fault (Rc × Reader) :=
  tokenLoop (s.buffer.buf.length+2) 0 { } s.buffer.pos { s with args := [] }

/-- A result, the arguments with it, and the position in the buffer where it was returned. -/
structure Event where
  rc : Rc
  args : List (List UInt8)
  pos : ℕ
  deriving DecidableEq,Repr

/-- The result of a call, and those of the calls behind it unless this was the last one. -/
def record (again : Reader → Except Fault (List Event)) (r : Rc × Reader) :
    Except Fault (List Event) :=
  if r.1 = .error ∨ r.1 = .fileDone then .ok [⟨r.1,r.2.args,r.2.buffer.pos⟩]
  else do
    let es ← again r.2
    .ok (⟨r.1,r.2.args,r.2.buffer.pos⟩::es)

/-- Repeated calls, up to an error or the end of the file. -/
def calls : ℕ → Reader → Except Fault (List Event)
  | 0, _ => .error .exhausted
  | fuel+1, s => do
    let r ← readToken s
    record (calls fuel) r

/-- A file just opened, with an empty buffer of capacity `cap`. -/
def opened (cap : ℕ) (content : List UInt8) : Reader where
  file := { content := content }
  buffer := { buf := List.replicate cap 0 }

def stream (cap : ℕ) (content : List UInt8) : Except Fault (List Event) :=
  calls (cap+2) (opened cap content)

end RecycleBin.NgToken
