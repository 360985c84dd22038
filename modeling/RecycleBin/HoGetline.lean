import RecycleBin.TorString

/-! `ho_getline.c`. A `char` is signed, so that the byte 255 is `EOF`; the pointer of the caller
is set where a line is complete, and in front of every `realloc`. -/
namespace RecycleBin
namespace HoGetline
open AntBuf (Memory Cell plenty)
open TorString (Ptr realloc)
open CString (toInt toSize)

abbrev Bytes := List UInt8

/-- The caller's buffer, the rest of the file, and the number of blocks without a pointer. -/
structure State where
  buf : Ptr
  n : ℕ
  file : Bytes
  lost : ℕ

/-- The blocks that are lost where the pointer is overwritten. -/
def blocks : Ptr → ℕ
  | .live _ => 1
  | .null | .freed => 0

/-- The local variables, and `*buf`: none where it is `buf_ptr`. -/
structure Frame where
  bufPtr : List Cell
  needed : ℕ
  maxlen : ℤ
  buf : Option Ptr
  n : ℕ
  lost : ℕ

/-- `*buf = buf_ptr`, and the return. -/
def Frame.store (v : Frame) (file : Bytes) : State :=
  ⟨.live v.bufPtr,v.n,file,v.lost+v.buf.elim 0 blocks⟩

/-- A return that leaves `*buf` as it is. -/
def Frame.leave (v : Frame) (file : Bytes) : State :=
  match v.buf with
  | none => v.store file
  | some p => ⟨p,v.n,file,v.lost+1⟩

/-- `buf_ptr[needed++] = c` -/
def Frame.put (v : Frame) (c : UInt8) : Except Fault Frame := do
  let bufPtr ← Bytes.writeAt v.bufPtr v.needed [some c]
  .ok { v with bufPtr := bufPtr,needed := v.needed+1 }

/-- The growth, or none where `realloc` fails. -/
def Frame.grow (mem : Memory) (v : Frame) : Except Fault (Option Frame) :=
  if v.needed < v.maxlen then .ok (some v)
  else
    let maxlen := 2*v.maxlen
    if -2^31 ≤ maxlen ∧ maxlen < 2^31 then
      if mem.grants (toSize maxlen) then
        .ok (some ⟨realloc v.bufPtr (toSize maxlen),v.needed,maxlen,some .freed,v.n,
          v.lost+v.buf.elim 0 blocks⟩)
      else .ok none
    else .error .undefined

/-- A turn of the loop: the variables for the next one, or the result. -/
def turn (mem : Memory) (v : Frame) (c : UInt8) (file : Bytes) :
    Except Fault (Frame ⊕ Option ℕ × State) := do
  let v ← v.put c
  match ← v.grow mem with
  | none => do
    let bufPtr ← Bytes.writeAt v.bufPtr (v.needed-1) [some 0]
    .ok (.inr (none,{ v with bufPtr := bufPtr }.store file))
  | some v =>
    if c = 255 then .ok (.inr (none,v.leave file))
    else if c = 10 then do
      let bufPtr ← Bytes.writeAt v.bufPtr v.needed [some 0]
      .ok (.inr (some v.needed,{ v with bufPtr := bufPtr,n := toSize v.maxlen }.store file))
    else .ok (.inl v)

/-- The loop. At the end of the file `fgetc` returns -1. -/
def readLoop (mem : Memory) : Frame → Bytes → Except Fault (Option ℕ × State)
  | v, [] => do
    match ← turn mem v 255 [] with
    | .inr r => .ok r
    | .inl _ => .error .exhausted
  | v, c::file => do
    match ← turn mem v c file with
    | .inr r => .ok r
    | .inl v => readLoop mem v file

/-- `ho_getline`: the length, or none for -1. -/
def hoGetline (mem : Memory) (s : State) : Except Fault (Option ℕ × State) :=
  let maxlen := toInt s.n
  if s.buf = .null ∨ maxlen = 0 then
    if mem.grants 128 then
      readLoop mem ⟨List.replicate 128 none,0,128,some s.buf,s.n,s.lost⟩ s.file
    else .ok (none,s)
  else do
    let bufPtr ← s.buf.block
    readLoop mem ⟨bufPtr,0,maxlen,none,s.n,s.lost⟩ s.file

/-! ### Lines -/

/-- The lines of a file with their newlines; the last one may have none. -/
def lines : Bytes → List Bytes
  | [] => []
  | c::file =>
    if c = 10 then [10]::lines file
    else
      match lines file with
      | [] => [[c]]
      | l::ls => (c::l)::ls

/-- `*buf` is the only block, and has `*n` bytes; or there is none. -/
structure Describes (s : State) : Prop where
  lost : s.lost = 0
  buf : s.buf = .null ∨ ∃ m,s.buf = .live m ∧ m.length = s.n

/-- The buffer begins with the line and a terminator. -/
def Shows (s : State) (l : Bytes) : Prop :=
  ∃ m,s.buf = .live m ∧ m.take (l.length+1) = l.map some++[some 0]

/-- The calls return the lines, one after the other, and -1 behind the last one; after each one the
buffer is described. -/
def Delivers (mem : Memory) : List Bytes → State → Prop
  | [], s => ∃ s',hoGetline mem s = .ok (none,s') ∧ Describes s'
  | l::ls, s => ∃ s',hoGetline mem s = .ok (some l.length,s') ∧ Shows s' l ∧ Describes s' ∧
      Delivers mem ls s'

/-- A length that can be doubled. -/
def Doubles (mem : Memory) (m : ℕ) : Prop := 2*m < 2^31 ∧ mem.grants (2*m) = true

/-- A buffer of `m` bytes grows until it holds a line of `len` bytes and its terminator. -/
def Grows (mem : Memory) (m len : ℕ) : Prop := ∀ i,2^i*m ≤ len → Doubles mem (2^i*m)

/-- The length a call starts with. -/
def startLength (s : State) : ℤ := if s.buf = .null then 128 else toInt s.n

/-- On an empty file: a first block is refused, or the length is one that is neither zero nor has
to be doubled, or the doubling fails. -/
def Idle (mem : Memory) (s : State) : Prop :=
  if s.buf = .null ∨ toInt s.n = 0 then mem.grants 128 = false
  else 2 ≤ toInt s.n ∨ toInt s.n = 1 ∧ mem.grants 2 = false ∨ -2^30 ≤ toInt s.n ∧ toInt s.n < 0

/-- On a file with bytes: each line has its newline, none has the byte 255, and the buffer is
there, grows to the longest line, and is as long as an `int` can say, if the first line does not
make it grow. -/
structure Reads (mem : Memory) (s : State) : Prop where
  closed : s.file.getLast? = some 10
  noEof : 255 ∉ s.file
  pos : 0 < startLength s
  first : s.buf = .null → mem.grants 128 = true
  grows : ∀ l ∈ lines s.file,Grows mem (startLength s).toNat l.length
  exact : s.buf = .null ∨ startLength s = s.n ∨
    ∀ l ∈ (lines s.file).head?,startLength s ≤ l.length

def Served (mem : Memory) (s : State) : Prop := if s.file = [] then Idle mem s else Reads mem s

/-! ### A turn -/

/-- The variables of a call that starts with `m` of a block's `size` bytes and with `buf`, behind
the bytes `pre` and `j` doublings. -/
structure At (mem : Memory) (m size : ℕ) (buf : Option Ptr) (v : Frame) (pre : Bytes) (j : ℕ) :
    Prop where
  needed_eq : v.needed = pre.length
  text : v.bufPtr.take v.needed = pre.map some
  maxlen_eq : v.maxlen = (2^j*m : ℕ)
  room : v.needed < 2^j*m
  doubled : ∀ i,i < j → Doubles mem (2^i*m)
  first : j = 0 → v.bufPtr.length = size ∧ v.buf = buf ∧ v.lost = 0
  grown : 0 < j → v.bufPtr.length = 2^j*m ∧ v.buf = some .freed ∧ v.lost = buf.elim 0 blocks ∧
    m ≤ pre.length

section Turn
variable {mem : Memory} {m size j : ℕ} {buf : Option Ptr} {v : Frame} {pre : Bytes}

theorem At.length_le (h : At mem m size buf v pre j) (hsize : m ≤ size) :
    2^j*m ≤ v.bufPtr.length := by
  rcases Nat.eq_zero_or_pos j with rfl | hj
  · rw [(h.first rfl).1]
    simpa using hsize
  · rw [(h.grown hj).1]

/-- What the doublings lead to is an `int`. -/
theorem doubled_lt (hd : ∀ i,i < j → Doubles mem (2^i*m)) (hm : m < 2^31) : 2^j*m < 2^31 := by
  cases j with
  | zero => simpa using hm
  | succ j =>
    have hlt := (hd j (Nat.lt_succ_self j)).1
    rwa [pow_succ',mul_assoc]

/-- What is lost when the caller's pointer is set: the block it had at first. -/
theorem At.lost_eq (h : At mem m size buf v pre j) :
    v.lost+v.buf.elim 0 blocks = buf.elim 0 blocks := by
  rcases Nat.eq_zero_or_pos j with hj | hj
  · obtain ⟨-,hbuf,hlost⟩ := h.first hj
    rw [hbuf,hlost,Nat.zero_add]
  · obtain ⟨-,hbuf,hlost,-⟩ := h.grown hj
    rw [hbuf,hlost]
    rfl

/-- A byte is stored. -/
theorem At.put (h : At mem m size buf v pre j) (hsize : m ≤ size) (c : UInt8) :
    ∃ bufPtr,v.put c = .ok { v with bufPtr := bufPtr,needed := v.needed+1 } ∧
      bufPtr.length = v.bufPtr.length ∧ bufPtr.take (v.needed+1) = (pre++[c]).map some := by
  have hroom := h.room
  have hlen := h.length_le hsize
  have hfit : v.needed+([some c] : List Cell).length ≤ v.bufPtr.length := by
    rw [List.length_singleton]
    omega
  obtain ⟨m',hw,hlen',htake⟩ := TorString.exists_write hfit
  refine ⟨m',?_,hlen',?_⟩
  · rw [Frame.put,hw]
    rfl
  · rw [List.length_singleton] at htake
    rw [htake,h.text,List.map_append]
    rfl

theorem realloc_length (b : List Cell) (k : ℕ) : (realloc b k).length = k := by
  rw [realloc,List.length_append,List.length_take,List.length_replicate]
  omega

theorem realloc_take {b : List Cell} {k i : ℕ} (hk : i ≤ k) (hb : i ≤ b.length) :
    (realloc b k).take i = b.take i := by
  rw [realloc,List.take_append_of_le_length (by rw [List.length_take]; omega),List.take_take,
    Nat.min_eq_left hk]

theorem toSize_natCast {k : ℕ} (h : k < 2^64) : toSize (k : ℤ) = k := by
  unfold toSize
  omega

/-- Where the byte fills the buffer, this is doubled. -/
theorem At.doubles (h : At mem m size buf v pre j) (hd : Doubles mem (2^j*m)) {bufPtr : List Cell}
    {c : UInt8} (hfull : v.needed+1 = 2^j*m) (hlen : 2^j*m ≤ bufPtr.length)
    (htext : bufPtr.take (v.needed+1) = (pre++[c]).map some) :
    At mem m size buf ⟨realloc bufPtr (2*(2^j*m)),v.needed+1,(2*(2^j*m) : ℕ),some .freed,v.n,
      v.lost+v.buf.elim 0 blocks⟩ (pre++[c]) (j+1) where
  needed_eq := by
    rw [List.length_append,List.length_singleton,← h.needed_eq]
  text := by
    dsimp only
    rw [realloc_take (by omega) (by omega)]
    exact htext
  maxlen_eq := by rw [pow_succ',mul_assoc]
  room := by
    rw [pow_succ',mul_assoc]
    dsimp only
    omega
  doubled i hi := by
    rcases Nat.lt_succ_iff_lt_or_eq.mp hi with hi | rfl
    · exact h.doubled i hi
    · exact hd
  first hj := absurd hj (Nat.succ_ne_zero j)
  grown _ := by
    refine ⟨by rw [realloc_length,pow_succ',mul_assoc],rfl,?_,?_⟩
    · exact h.lost_eq
    · rw [List.length_append,List.length_singleton,← h.needed_eq,hfull]
      exact Nat.le_mul_of_pos_left m (by positivity)

/-- The room behind it: it is there, or the buffer is doubled, or it cannot be. -/
theorem At.putGrow (h : At mem m size buf v pre j) (hsize : m ≤ size) (hm : m < 2^31) (c : UInt8) :
    ∃ v₁,v.put c = .ok v₁ ∧
      ((∃ v' j',v₁.grow mem = .ok (some v') ∧ At mem m size buf v' (pre++[c]) j') ∨
        ¬ Grows mem m (pre.length+1) ∧ ∀ o,v₁.grow mem = .ok o → o = none) := by
  obtain ⟨bufPtr,hput,hlen,htext⟩ := h.put hsize c
  have hroom := h.room
  have hneeded := h.needed_eq
  have hlt := doubled_lt h.doubled hm
  have hmax := h.maxlen_eq
  have hlength : (pre++[c]).length = pre.length+1 := by
    rw [List.length_append,List.length_singleton]
  refine ⟨_,hput,?_⟩
  rcases Nat.lt_or_ge (v.needed+1) (2^j*m) with hfits | hfull
  · refine Or.inl ⟨{ v with bufPtr := bufPtr,needed := v.needed+1 },j,?_,?_⟩
    · rw [Frame.grow,if_pos (by dsimp only; omega)]
    · refine ⟨by rw [hlength,hneeded],htext,hmax,hfits,h.doubled,fun hj => ?_,fun hj => ?_⟩
      · rw [hlen]
        exact h.first hj
      · obtain ⟨h₁,h₂,h₃,h₄⟩ := h.grown hj
        exact ⟨hlen.trans h₁,h₂,h₃,by rw [hlength]; omega⟩
  · have heq : v.needed+1 = 2^j*m := by omega
    have hdouble : 2*v.maxlen = (2*(2^j*m) : ℕ) := by omega
    by_cases hd : Doubles mem (2^j*m)
    · refine Or.inl ⟨_,j+1,?_,h.doubles hd heq (by rw [hlen]; exact h.length_le hsize) htext⟩
      rw [Frame.grow,if_neg (by dsimp only; omega)]
      dsimp only
      have hint := hd.1
      rw [hdouble,if_pos ⟨by omega,by exact_mod_cast hint⟩,toSize_natCast (by omega),if_pos hd.2]
    · refine Or.inr ⟨fun hgrows => hd (hgrows j (by omega)),fun o ho => ?_⟩
      rw [Frame.grow,if_neg (by dsimp only; omega)] at ho
      dsimp only at ho
      rw [hdouble] at ho
      split_ifs at ho with hint hgrants
      · refine absurd ⟨by omega,?_⟩ hd
        rwa [toSize_natCast (by omega)] at hgrants
      · exact (Except.ok.inj ho).symm

/-- A turn ends the call, or goes on behind the byte; or the buffer cannot grow. -/
theorem At.turn (h : At mem m size buf v pre j) (hsize : m ≤ size) (hm : m < 2^31) (c : UInt8) :
    (∃ v' j',At mem m size buf v' (pre++[c]) j' ∧ ∀ file,turn mem v c file =
      if c = 255 then .ok (.inr (none,v'.leave file))
      else if c = 10 then do
        let bufPtr ← Bytes.writeAt v'.bufPtr v'.needed [some 0]
        .ok (.inr (some v'.needed,{ v' with bufPtr := bufPtr,n := toSize v'.maxlen }.store file))
      else .ok (.inl v')) ∨
    ¬ Grows mem m (pre.length+1) ∧
      ∀ file r,HoGetline.turn mem v c file = .ok r → ∃ s,r = .inr (none,s) := by
  obtain ⟨v₁,hput,⟨v',j',hgrow,hv'⟩ | ⟨hno,hgrow⟩⟩ := h.putGrow hsize hm c
  · refine Or.inl ⟨v',j',hv',fun file => ?_⟩
    rw [HoGetline.turn,hput,ok_bind,hgrow,ok_bind]
  · refine Or.inr ⟨hno,fun file r hr => ?_⟩
    rw [HoGetline.turn,hput,ok_bind] at hr
    obtain ⟨o,ho,hr⟩ := bind_eq_ok.mp hr
    rw [hgrow o ho] at hr
    obtain ⟨bufPtr,-,hr⟩ := bind_eq_ok.mp hr
    exact ⟨_,(Except.ok.inj hr).symm⟩

/-- Every result of the loop is -1. -/
def Gives (mem : Memory) (v : Frame) (file : Bytes) : Prop :=
  ∀ r,readLoop mem v file = .ok r → r.1 = none

theorem gives_of_turn {c : UInt8} {file : Bytes}
    (hturn : ∀ r,HoGetline.turn mem v c file = .ok r → ∃ s,r = .inr (none,s)) :
    Gives mem v (c::file) := by
  intro r hr
  rw [readLoop] at hr
  obtain ⟨o,ho,hr⟩ := bind_eq_ok.mp hr
  obtain ⟨s,rfl⟩ := hturn o ho
  cases hr
  rfl

/-- The bytes in front of the newline are stored, or the buffer cannot grow. -/
theorem At.body (h : At mem m size buf v pre j) (hsize : m ≤ size) (hm : m < 2^31) {t : Bytes}
    (hnl : 10 ∉ t) (heof : 255 ∉ t) :
    (∃ v' j',At mem m size buf v' (pre++t) j' ∧
      ∀ file,readLoop mem v (t++file) = readLoop mem v' file) ∨
    ¬ Grows mem m (pre.length+t.length) ∧ ∀ file,Gives mem v (t++file) := by
  induction t generalizing v pre j with
  | nil => exact Or.inl ⟨v,j,by rwa [List.append_nil],fun file => rfl⟩
  | cons c t ih =>
    have hc10 : c ≠ 10 := fun hc => hnl (hc ▸ List.mem_cons_self)
    have hc255 : c ≠ 255 := fun hc => heof (hc ▸ List.mem_cons_self)
    have hlen : (pre++[c]).length+t.length = pre.length+(c::t).length := by
      simp only [List.length_append,List.length_cons,List.length_nil]
      omega
    rcases h.turn hsize hm c with ⟨v₁,j₁,hv₁,hturn⟩ | ⟨hno,hturn⟩
    · have hstep (file : Bytes) : readLoop mem v (c::t++file) = readLoop mem v₁ (t++file) := by
        rw [List.cons_append,readLoop,hturn,if_neg hc255,if_neg hc10,ok_bind]
      rcases ih hv₁ (fun h => hnl (List.mem_cons_of_mem c h))
        (fun h => heof (List.mem_cons_of_mem c h)) with ⟨v',j',hv',hrun⟩ | ⟨hno,hrun⟩
      · refine Or.inl ⟨v',j',by rwa [List.append_assoc] at hv',fun file => ?_⟩
        rw [hstep,hrun]
      · rw [hlen] at hno
        refine Or.inr ⟨hno,fun file r hr => hrun file r ?_⟩
        rwa [hstep] at hr
    · refine Or.inr ⟨fun hgrows => hno fun i hi => hgrows i ?_,fun file => ?_⟩
      · rw [List.length_cons]
        omega
      · exact gives_of_turn (hturn _)

/-- What a line leaves: the caller's buffer. -/
structure Line (mem : Memory) (m size : ℕ) (buf : Option Ptr) (l file : Bytes) (s : State)
    (j : ℕ) : Prop where
  file_eq : s.file = file
  n_eq : s.n = 2^j*m
  lost_eq : s.lost = buf.elim 0 blocks
  doubled : ∀ i,i < j → Doubles mem (2^i*m)
  room : l.length < 2^j*m
  shows : Shows s l
  first : j = 0 → ∀ b,s.buf = .live b → b.length = size
  grown : 0 < j → (∀ b,s.buf = .live b → b.length = s.n) ∧ m ≤ l.length

/-- The newline ends the line. -/
theorem At.newline (h : At mem m size buf v pre j) (hsize : m ≤ size) (hm : m < 2^31)
    (file : Bytes) :
    (∃ s j',readLoop mem v (10::file) = .ok (some (pre.length+1),s) ∧
      Line mem m size buf (pre++[10]) file s j') ∨
    ¬ Grows mem m (pre.length+1) ∧ Gives mem v (10::file) := by
  rcases h.turn hsize hm 10 with ⟨v',j',hv',hturn⟩ | ⟨hno,hturn⟩
  · have hroom := hv'.room
    have hle := hv'.length_le hsize
    have hlt := doubled_lt hv'.doubled hm
    have hlen : (pre++[10]).length = pre.length+1 := by
      rw [List.length_append,List.length_singleton]
    have hneeded := hv'.needed_eq
    rw [hlen] at hneeded
    have hfit : v'.needed+([some 0] : List Cell).length ≤ v'.bufPtr.length := by
      rw [List.length_singleton]
      omega
    obtain ⟨b,hw,hblen,htake⟩ := TorString.exists_write hfit
    refine Or.inl ⟨{ v' with bufPtr := b,n := toSize v'.maxlen }.store file,j',?_,?_⟩
    · rw [readLoop,hturn,if_neg (by decide),if_pos rfl,hw,ok_bind,ok_bind,hneeded]
    · refine ⟨rfl,?_,?_,hv'.doubled,by rw [hlen,← hneeded]; exact hroom,⟨b,rfl,?_⟩,?_,?_⟩
      · exact (congrArg toSize hv'.maxlen_eq).trans (toSize_natCast (by omega))
      · exact hv'.lost_eq
      · rw [hlen,← hneeded]
        rw [List.length_singleton] at htake
        rw [htake,hv'.text]
      · rintro hj b' hb'
        cases hb'
        rw [hblen,(hv'.first hj).1]
      · intro hj
        obtain ⟨hlength,-,-,hm'⟩ := hv'.grown hj
        refine ⟨?_,hm'⟩
        rintro b' hb'
        cases hb'
        rw [hblen,hlength]
        exact ((congrArg toSize hv'.maxlen_eq).trans (toSize_natCast (by omega))).symm
  · exact Or.inr ⟨hno,gives_of_turn (hturn file)⟩

/-- The byte 255 ends the call. -/
theorem At.eof (h : At mem m size buf v pre j) (hsize : m ≤ size) (hm : m < 2^31) :
    ∀ file r,HoGetline.turn mem v 255 file = .ok r → ∃ s,r = .inr (none,s) := by
  intro file r hr
  rcases h.turn hsize hm 255 with ⟨v',-,-,hturn⟩ | ⟨-,hturn⟩
  · rw [hturn,if_pos rfl] at hr
    exact ⟨_,(Except.ok.inj hr).symm⟩
  · exact hturn file r hr

/-- The end of the file ends it. -/
theorem At.gives_nil (h : At mem m size buf v pre j) (hsize : m ≤ size) (hm : m < 2^31) :
    Gives mem v [] := by
  intro r hr
  rw [readLoop] at hr
  obtain ⟨o,ho,hr⟩ := bind_eq_ok.mp hr
  obtain ⟨s,rfl⟩ := h.eof hsize hm [] o ho
  cases hr
  rfl

/-- A line with its newline is returned, or the buffer cannot grow. -/
theorem At.line (h : At mem m size buf v [] 0) (hsize : m ≤ size) (hm : m < 2^31) {t : Bytes}
    (hnl : 10 ∉ t) (heof : 255 ∉ t) (file : Bytes) :
    (∃ s j',readLoop mem v (t++10::file) = .ok (some (t.length+1),s) ∧
      Line mem m size buf (t++[10]) file s j') ∨
    ¬ Grows mem m (t.length+1) ∧ Gives mem v (t++10::file) := by
  rcases h.body hsize hm hnl heof with ⟨v',j',hv',hrun⟩ | ⟨hno,hrun⟩
  · rw [List.nil_append] at hv'
    rcases hv'.newline hsize hm file with ⟨s,j'',hs,hline⟩ | ⟨hno,hgives⟩
    · exact Or.inl ⟨s,j'',by rw [hrun,hs],hline⟩
    · exact Or.inr ⟨hno,fun r hr => hgives r (by rwa [hrun] at hr)⟩
  · rw [List.length_nil,Nat.zero_add] at hno
    exact Or.inr ⟨fun hgrows => hno fun i hi => hgrows i (by omega),hrun _⟩

/-- A byte 255 in front of the newline, or none of the two. -/
theorem At.gives (h : At mem m size buf v [] 0) (hsize : m ≤ size) (hm : m < 2^31) {t : Bytes}
    (hnl : 10 ∉ t) (heof : 255 ∉ t) :
    (∀ file,Gives mem v (t++255::file)) ∧ Gives mem v t := by
  rcases h.body hsize hm hnl heof with ⟨v',j',hv',hrun⟩ | ⟨-,hrun⟩
  · refine ⟨fun file r hr => ?_,fun r hr => ?_⟩
    · rw [hrun] at hr
      exact gives_of_turn (hv'.eof hsize hm file) r hr
    · have hnil := hrun []
      rw [List.append_nil] at hnil
      rw [hnil] at hr
      exact hv'.gives_nil hsize hm r hr
  · have hnil := hrun []
    rw [List.append_nil] at hnil
    exact ⟨fun file => hrun _,hnil⟩

/-- So it is with every byte 255 in front of a newline, or without one behind it. -/
theorem At.gives_eof (h : At mem m size buf v [] 0) (hsize : m ≤ size) (hm : m < 2^31) {t : Bytes}
    (hnl : 10 ∉ t) (heof : 255 ∈ t) (file : Bytes) : Gives mem v (t++file) := by
  obtain ⟨t₁,t₂,rfl,ht₁⟩ := List.eq_append_cons_of_mem heof
  rw [List.append_assoc,List.cons_append]
  exact (h.gives hsize hm (fun h => hnl (List.mem_append_left _ h)) ht₁).1 _

/-- And with every file that has no newline. -/
theorem At.gives_open (h : At mem m size buf v [] 0) (hsize : m ≤ size) (hm : m < 2^31)
    {file : Bytes} (hopen : 10 ∉ file) : Gives mem v file := by
  by_cases heof : 255 ∈ file
  · have hgives := h.gives_eof hsize hm hopen heof []
    rwa [List.append_nil] at hgives
  · exact (h.gives hsize hm hopen heof).2

end Turn

/-! ### The calls -/

section Lines
variable {t file : Bytes}

theorem lines_line (h : 10 ∉ t) : lines (t++10::file) = (t++[10])::lines file := by
  induction t with
  | nil => rw [List.nil_append,lines,if_pos rfl,List.nil_append]
  | cons c t ih =>
    have hc : c ≠ 10 := fun hc => h (hc ▸ List.mem_cons_self)
    rw [List.cons_append,lines,if_neg hc,ih fun ht => h (List.mem_cons_of_mem c ht)]
    rfl

theorem lines_open (h : 10 ∉ t) (hne : t ≠ []) : lines t = [t] := by
  induction t with
  | nil => exact absurd rfl hne
  | cons c t ih =>
    have hc : c ≠ 10 := fun hc => h (hc ▸ List.mem_cons_self)
    have ht : 10 ∉ t := fun ht => h (List.mem_cons_of_mem c ht)
    rw [lines,if_neg hc]
    by_cases hnil : t = []
    · rw [hnil]
      rfl
    · rw [ih ht hnil]

/-- The lines are the file. -/
theorem lines_flatten (file : Bytes) : (lines file).flatten = file := by
  induction file with
  | nil => rfl
  | cons c file ih =>
    rw [lines]
    split_ifs with hc
    · rw [List.flatten_cons,ih,hc]
      rfl
    · cases hlines : lines file with
      | nil =>
        rw [hlines] at ih
        rw [← ih]
        rfl
      | cons l ls =>
        rw [hlines] at ih
        rw [← ih]
        rfl

theorem closed_line : (t++10::file).getLast? = some 10 ↔ file = [] ∨ file.getLast? = some 10 := by
  cases file with
  | nil => simp
  | cons c file => simp [List.getLast?_append,List.getLast?_cons_cons]

end Lines

section Calls
variable {mem : Memory} {s : State} {m size j : ℕ} {buf : Option Ptr}

theorem toInt_bounds (n : ℕ) : toInt n ≤ n ∧ toInt n < 2^31 := by
  rw [toInt,Int.bmod]
  split_ifs <;> omega

/-- The doublings that were possible do not matter for the others. -/
theorem grows_iff (hd : ∀ i,i < j → Doubles mem (2^i*m)) (len : ℕ) :
    Grows mem (2^j*m) len ↔ Grows mem m len := by
  constructor
  · intro h i hi
    rcases Nat.lt_or_ge i j with hij | hij
    · exact hd i hij
    · have hpow : 2^(i-j)*(2^j*m) = 2^i*m := by
        rw [← mul_assoc,← pow_add,Nat.sub_add_cancel hij]
      rw [← hpow]
      exact h (i-j) (by rwa [hpow])
  · intro h i hi
    have hpow : 2^i*(2^j*m) = 2^(i+j)*m := by rw [← mul_assoc,← pow_add]
    rw [hpow] at hi ⊢
    exact h (i+j) hi

/-- A call on a buffer that is there. -/
theorem start_live (mem : Memory) {b : List Cell} (hb : s.buf = .live b) (hlen : b.length = s.n)
    (hlost : s.lost = 0) (hn : toInt s.n = m) (hm : 0 < m) :
    ∃ v,hoGetline mem s = readLoop mem v s.file ∧ At mem m s.n none v [] 0 := by
  have hnot : ¬ (s.buf = .null ∨ toInt s.n = 0) := by
    rintro (hnull | hzero)
    · rw [hb] at hnull
      exact nomatch hnull
    · omega
  refine ⟨⟨b,0,m,none,s.n,s.lost⟩,?_,?_⟩
  · rw [hoGetline,if_neg hnot,hb,hn]
    rfl
  · refine ⟨rfl,rfl,by simp,by simpa using hm,fun i hi => absurd hi (Nat.not_lt_zero i),
      fun _ => ⟨hlen,rfl,hlost⟩,fun h => absurd h (Nat.lt_irrefl 0)⟩

/-- A call that allocates its first block. -/
theorem start_fresh (hfirst : s.buf = .null ∨ toInt s.n = 0) (hgrants : mem.grants 128 = true)
    (hlost : s.lost = 0) :
    ∃ v,hoGetline mem s = readLoop mem v s.file ∧ At mem 128 128 (some s.buf) v [] 0 := by
  refine ⟨⟨List.replicate 128 none,0,128,some s.buf,s.n,s.lost⟩,?_,?_⟩
  · rw [hoGetline,if_pos hfirst,if_pos hgrants]
  · exact ⟨rfl,rfl,rfl,show 0 < 2^0*128 by decide,fun i hi => absurd hi (Nat.not_lt_zero i),
      fun _ => ⟨List.length_replicate,rfl,hlost⟩,fun h => absurd h (Nat.lt_irrefl 0)⟩

theorem Describes.length_eq (h : Describes s) {b : List Cell} (hb : s.buf = .live b) :
    b.length = s.n := by
  rcases h.buf with hnull | ⟨b',hb',hlen⟩
  · rw [hb] at hnull
    exact nomatch hnull
  · rw [hb] at hb'
    cases hb'
    exact hlen

/-- The end of the file: the -1 is stored like a byte. -/
theorem readLoop_nil {v v₁ : Frame} (hput : v.put 255 = .ok v₁) :
    readLoop mem v [] = (v₁.grow mem >>= fun o =>
      match o with
      | none => do
        let bufPtr ← Bytes.writeAt v₁.bufPtr (v₁.needed-1) [some 0]
        .ok (none,{ v₁ with bufPtr := bufPtr }.store [])
      | some v => .ok (none,v.leave [])) := by
  rw [readLoop,turn,hput,ok_bind]
  rcases v₁.grow mem with e | _ | v
  · rfl
  · rw [ok_bind,ok_bind]
    dsimp only
    rcases Bytes.writeAt v₁.bufPtr (v₁.needed-1) [some 0] with e | bufPtr <;> rfl
  · rw [ok_bind,ok_bind]
    dsimp only
    rw [if_pos rfl]
    rfl

/-- In a block of `n` bytes. -/
theorem hoGetline_nil (mem : Memory) {b : List Cell} (hb : s.buf = .live b)
    (hlen : b.length = s.n) (hn : toInt s.n ≠ 0) (hfile : s.file = []) :
    ∃ b',b'.length = s.n ∧ hoGetline mem s =
      (Frame.grow mem ⟨b',1,toInt s.n,none,s.n,s.lost⟩ >>= fun o =>
        match o with
        | none => do
          let bufPtr ← Bytes.writeAt b' 0 [some 0]
          .ok (none,⟨.live bufPtr,s.n,[],s.lost⟩)
        | some v => .ok (none,v.leave [])) := by
  have hpos : 0 < s.n :=
    Nat.pos_of_ne_zero fun h0 => hn (by rw [h0]; exact CString.toInt_of_lt (by decide))
  have hnot : ¬ (s.buf = .null ∨ toInt s.n = 0) := by
    rintro (hnull | hzero)
    · rw [hb] at hnull
      exact nomatch hnull
    · exact hn hzero
  have hroom : 0 < b.length := by omega
  obtain ⟨b',hw,hlen'⟩ := Bytes.writeAt_one hroom (some 255)
  have hput : Frame.put ⟨b,0,toInt s.n,none,s.n,s.lost⟩ 255 =
      .ok ⟨b',1,toInt s.n,none,s.n,s.lost⟩ := by
    rw [Frame.put,hw]
    rfl
  refine ⟨b',hlen'.trans hlen,?_⟩
  rw [hoGetline,if_neg hnot,hb]
  dsimp only [Ptr.block]
  rw [ok_bind,hfile,readLoop_nil hput]
  rfl

/-- An empty file, in a block of the caller: what the -1 that is stored like a byte makes of it. -/
theorem empty_live (mem : Memory) {b : List Cell} (h : Describes s) (hb : s.buf = .live b)
    (hlen : b.length = s.n) (hn : toInt s.n ≠ 0) (hfile : s.file = []) :
    ∃ b' : List Cell,b'.length = s.n ∧
      match Frame.grow mem ⟨b',1,toInt s.n,none,s.n,s.lost⟩ with
      | .ok none => Delivers mem [] s
      | .ok (some v) => Delivers mem [] s ↔ Describes (v.leave [])
      | .error _ => ¬ Delivers mem [] s := by
  obtain ⟨b',hlen',hrun⟩ := hoGetline_nil mem hb hlen hn hfile
  refine ⟨b',hlen',?_⟩
  rcases hgrow : Frame.grow mem ⟨b',1,toInt s.n,none,s.n,s.lost⟩ with e | _ | v
  · rintro ⟨s',hs',-⟩
    rw [hrun,hgrow] at hs'
    exact nomatch hs'
  · -- a refusal leaves the block to the caller
    have hroom : 0 < b'.length := by
      rw [hlen']
      exact Nat.pos_of_ne_zero fun h0 => hn (by rw [h0]; exact CString.toInt_of_lt (by decide))
    obtain ⟨b'',hw,hlen''⟩ := Bytes.writeAt_one hroom (some 0)
    refine ⟨⟨.live b'',s.n,[],s.lost⟩,?_,h.lost,Or.inr ⟨b'',rfl,hlen''.trans hlen'⟩⟩
    rw [hrun,hgrow,ok_bind]
    dsimp only
    rw [hw]
    rfl
  · have hcall : hoGetline mem s = .ok (none,v.leave []) := by
      rw [hrun,hgrow]
      rfl
    constructor
    · rintro ⟨s',hs',hdesc⟩
      rw [hcall] at hs'
      cases hs'
      exact hdesc
    · exact fun hdesc => ⟨_,hcall,hdesc⟩

/-- A described buffer of two bytes stays as it is at the end of the file. -/
theorem delivers_nil {b : List Cell} (h : Describes s) (hb : s.buf = .live b)
    (hlen : b.length = s.n) (hn : 2 ≤ toInt s.n) (hfile : s.file = []) : Delivers mem [] s := by
  obtain ⟨b',hlen',hcase⟩ := empty_live mem h hb hlen (by omega) hfile
  have hroom : ((1 : ℕ) : ℤ) < toInt s.n := by omega
  rw [Frame.grow,if_pos hroom] at hcase
  exact hcase.mpr ⟨h.lost,Or.inr ⟨b',rfl,hlen'⟩⟩

/-- What is left by a line is described, if the caller's pointer was to no other block and the
length is that of the block. -/
theorem Line.describes_iff {l file : Bytes} (h : Line mem m size buf l file s j) :
    Describes s ↔ buf.elim 0 blocks = 0 ∧ (size = m ∨ m ≤ l.length) := by
  obtain ⟨b,hb,-⟩ := h.shows
  have hroom := h.room
  rw [← h.lost_eq]
  constructor
  · intro hdesc
    refine ⟨hdesc.lost,?_⟩
    rcases Nat.eq_zero_or_pos j with hj | hj
    · have hlen := hdesc.length_eq hb
      rw [h.first hj b hb,h.n_eq,hj,pow_zero,one_mul] at hlen
      exact Or.inl hlen
    · exact Or.inr (h.grown hj).2
  · rintro ⟨hlost,hsize⟩
    refine ⟨hlost,Or.inr ⟨b,hb,?_⟩⟩
    rcases Nat.eq_zero_or_pos j with hj | hj
    · rw [hj,pow_zero,one_mul] at hroom
      rw [h.first hj b hb,h.n_eq,hj,pow_zero,one_mul]
      omega
    · exact (h.grown hj).1 b hb

theorem Line.grows {l file : Bytes} (h : Line mem m size buf l file s j) :
    Grows mem m l.length := by
  intro i hi
  apply h.doubled
  have hroom := h.room
  by_contra hij
  have hpow : 2^j*m ≤ 2^i*m :=
    Nat.mul_le_mul_right m (Nat.pow_le_pow_right (by decide) (Nat.le_of_not_lt hij))
  omega

/-- A file is one line without a newline, or has a first line. -/
theorem exists_line (file : Bytes) :
    10 ∉ file ∨ ∃ t rest,10 ∉ t ∧ file = t++10::rest := by
  by_cases hmem : 10 ∈ file
  · obtain ⟨t,rest,hfile,ht⟩ := List.eq_append_cons_of_mem hmem
    exact Or.inr ⟨t,rest,ht,hfile⟩
  · exact Or.inl hmem

/-- A call that gives -1 delivers no line. -/
theorem not_delivers {v : Frame} {l : Bytes} {ls : List Bytes}
    (hcall : hoGetline mem s = readLoop mem v s.file) (hgives : Gives mem v s.file) :
    ¬ Delivers mem (l::ls) s := by
  rintro ⟨s',hs',-⟩
  rw [hcall] at hs'
  exact nomatch hgives _ hs'

theorem Line.n_lt {l file : Bytes} (h : Line mem m size buf l file s j) (hm : m < 2^31) :
    s.n < 2^31 := by
  rw [h.n_eq]
  exact doubled_lt h.doubled hm

/-- What follows a line depends on the line's buffer and on the rest of the file. -/
theorem delivers_line {l : Bytes} {ls : List Bytes} {s' : State} {file : Bytes}
    (hrun : hoGetline mem s = .ok (some l.length,s')) (hline : Line mem m size buf l file s' j) :
    Delivers mem (l::ls) s ↔ Describes s' ∧ Delivers mem ls s' := by
  constructor
  · rintro ⟨s'',hs'',-,hdesc,hrest⟩
    rw [hrun] at hs''
    cases hs''
    exact ⟨hdesc,hrest⟩
  · exact fun ⟨hdesc,hrest⟩ => ⟨s',hrun,hline.shows,hdesc,hrest⟩

/-- The rest of the file is delivered from a buffer that may have grown. -/
theorem Line.rest_iff {l file : Bytes} {s' : State} (hline : Line mem m size buf l file s' j)
    (hm : m < 2^31) (hl : 0 < l.length) (hdesc : Describes s')
    (ih : ∀ v,hoGetline mem s' = readLoop mem v s'.file → At mem s'.n s'.n none v [] 0 →
      s'.file ≠ [] → (Delivers mem (lines s'.file) s' ↔
        s'.file.getLast? = some 10 ∧ 255 ∉ s'.file ∧
          (∀ l ∈ lines s'.file,Grows mem s'.n l.length) ∧ (none : Option Ptr).elim 0 blocks = 0 ∧
            (s'.n = s'.n ∨ ∀ l ∈ (lines s'.file).head?,s'.n ≤ l.length))) :
    Delivers mem (lines file) s' ↔ (file = [] ∨ file.getLast? = some 10) ∧ 255 ∉ file ∧
      ∀ l ∈ lines file,Grows mem m l.length := by
  obtain ⟨b,hb,-⟩ := hline.shows
  have hroom := hline.room
  have hlt := hline.n_lt hm
  have hn := CString.toInt_of_lt hlt
  have hfile := hline.file_eq
  have hblen := hdesc.length_eq hb
  rw [← hline.n_eq] at hroom
  subst hfile
  by_cases hnil : s'.file = []
  · rw [hnil]
    exact iff_of_true (delivers_nil hdesc hb hblen (by rw [hn]; omega) hnil)
      ⟨Or.inl rfl,List.not_mem_nil,fun l hl => absurd hl List.not_mem_nil⟩
  · obtain ⟨v,hcall,hat⟩ := start_live mem hb hblen hdesc.lost hn (by omega)
    rw [ih v hcall hat hnil,hline.n_eq]
    simp only [grows_iff hline.doubled,hnil,false_or,Option.elim_none,true_or,and_true]

/-- A file with bytes, from a call on that starts with `m` of `size` bytes. -/
theorem delivers_iff {v : Frame} (hcall : hoGetline mem s = readLoop mem v s.file)
    (hat : At mem m size buf v [] 0) (hpos : 0 < m) (hsize : m ≤ size) (hm : m < 2^31)
    (hfile : s.file ≠ []) :
    Delivers mem (lines s.file) s ↔
      s.file.getLast? = some 10 ∧ 255 ∉ s.file ∧ (∀ l ∈ lines s.file,Grows mem m l.length) ∧
        buf.elim 0 blocks = 0 ∧ (size = m ∨ ∀ l ∈ (lines s.file).head?,m ≤ l.length) := by
  induction hk : s.file.length using Nat.strong_induction_on generalizing s m size buf v with
  | h k ih =>
    rcases exists_line s.file with hopen | ⟨t,rest,ht,hsplit⟩
    · -- no newline at all
      rw [lines_open hopen hfile]
      refine iff_of_false (not_delivers hcall (hat.gives_open hsize hm hopen)) fun h => ?_
      exact hopen (List.mem_of_getLast? h.1)
    rw [hsplit,lines_line ht]
    by_cases heof : 255 ∈ t
    · refine iff_of_false (not_delivers hcall ?_) fun h => h.2.1 (List.mem_append_left _ heof)
      rw [hsplit]
      exact hat.gives_eof hsize hm ht heof _
    have hlen : (t++[10]).length = t.length+1 := by
      rw [List.length_append,List.length_singleton]
    rcases hat.line hsize hm ht heof rest with ⟨s',j,hrun,hline⟩ | ⟨hno,hgives⟩
    · rw [hsplit] at hcall
      rw [delivers_line (by rw [hcall,hrun,hlen]) hline,hline.describes_iff,closed_line,
        List.mem_append,List.mem_cons,List.forall_mem_cons,List.head?_cons]
      have hpos' : 0 < s'.n := by
        rw [hline.n_eq]
        exact Nat.lt_of_le_of_lt (Nat.zero_le _) hline.room
      have hrest (hdesc : buf.elim 0 blocks = 0 ∧ (size = m ∨ m ≤ (t++[10]).length)) :=
        hline.rest_iff hm (by rw [hlen]; omega) (hline.describes_iff.mpr hdesc)
          fun v' hcall' hat' hne => ih s'.file.length
            (by rw [hline.file_eq,← hk,hsplit,List.length_append,List.length_cons]; omega)
            hcall' hat' hpos' le_rfl (hline.n_lt hm) hne rfl
      have hhead : (∀ l ∈ some (t++[10]),m ≤ l.length) ↔ m ≤ (t++[10]).length :=
        ⟨fun h => h _ rfl,fun h l hl => by cases hl; exact h⟩
      have hbyte : ¬ (255 ∈ t ∨ (255 : UInt8) = 10 ∨ 255 ∈ rest) ↔ 255 ∉ rest := by
        rw [or_iff_right heof,or_iff_right (by decide)]
      rw [hhead,hbyte,and_congr_right hrest,and_iff_right hline.grows]
      constructor
      · rintro ⟨⟨hlost,hexact⟩,hclosed,hnoEof,hgrows⟩
        exact ⟨hclosed,hnoEof,hgrows,hlost,hexact⟩
      · rintro ⟨hclosed,hnoEof,hgrows,hlost,hexact⟩
        exact ⟨⟨hlost,hexact⟩,hclosed,hnoEof,hgrows⟩
    · refine iff_of_false (not_delivers hcall (by rw [hsplit]; exact hgives)) fun h => hno ?_
      rw [← hlen]
      exact h.2.2.1 _ List.mem_cons_self

end Calls

/-! ### Every buffer -/

section Every
variable {mem : Memory} {s : State}

/-- With a negative length the first byte asks for a block that no memory has. -/
theorem grow_negative (mem : Memory) {v : Frame} (h : v.maxlen < 0) :
    v.grow mem = if -2^30 ≤ v.maxlen then .ok none else .error .undefined := by
  have hneeded : ¬ (v.needed : ℤ) < v.maxlen := by omega
  rw [Frame.grow,if_neg hneeded]
  dsimp only
  by_cases hlow : -2^30 ≤ v.maxlen
  · have hbig : 2^63 ≤ toSize (2*v.maxlen) := by
      unfold toSize
      omega
    rw [if_pos hlow,if_pos ⟨by omega,by omega⟩,mem.bounded _ hbig]
    rfl
  · rw [if_neg hlow,if_neg (by omega)]

/-- A length of one byte is doubled by the first one. -/
theorem grow_one (mem : Memory) {v : Frame} (hneeded : v.needed = 1) (hmax : v.maxlen = 1) :
    v.grow mem = if mem.grants 2 then
      .ok (some ⟨realloc v.bufPtr 2,1,2,some .freed,v.n,v.lost+v.buf.elim 0 blocks⟩)
    else .ok none := by
  have hsize : toSize (2*1) = 2 := toSize_natCast (k := 2) (by decide)
  rw [Frame.grow,hneeded,hmax,if_neg (by decide)]
  dsimp only
  rw [if_pos (by decide),hsize]
  rfl

theorem lines_ne_nil {file : Bytes} (h : file ≠ []) : lines file ≠ [] := fun hnil => by
  have hflat := lines_flatten file
  rw [hnil] at hflat
  exact h hflat.symm

/-- The end of the file in a block that the caller does not have. -/
theorem readLoop_lost {b : List Cell} (hlen : b.length = 128) (p : Ptr) (n lost : ℕ) :
    readLoop mem ⟨b,0,128,some p,n,lost⟩ [] = .ok (none,⟨p,n,[],lost+1⟩) := by
  have hroom : 0 < b.length := by omega
  obtain ⟨b',hw,-⟩ := Bytes.writeAt_one hroom (some 255)
  have hput : Frame.put ⟨b,0,128,some p,n,lost⟩ 255 = .ok ⟨b',1,128,some p,n,lost⟩ := by
    rw [Frame.put,hw]
    rfl
  have hgrow : Frame.grow mem ⟨b',1,128,some p,n,lost⟩ = .ok (some ⟨b',1,128,some p,n,lost⟩) :=
    if_pos (show ((1 : ℕ) : ℤ) < 128 by decide)
  rw [readLoop_nil hput,hgrow,ok_bind]
  rfl

/-- An empty file, where the call asks for a first block: that is lost. -/
theorem empty_first (h : Describes s) (hfile : s.file = [])
    (hfirst : s.buf = .null ∨ toInt s.n = 0) :
    Delivers mem [] s ↔ mem.grants 128 = false := by
  by_cases hgrants : mem.grants 128 = true
  · refine iff_of_false ?_ (by rw [hgrants]; decide)
    rintro ⟨s',hs',hdesc⟩
    rw [hoGetline,if_pos hfirst,if_pos hgrants,hfile,readLoop_lost List.length_replicate] at hs'
    cases hs'
    exact absurd hdesc.lost (Nat.succ_ne_zero _)
  · refine iff_of_true ⟨s,?_,h⟩ (Bool.eq_false_iff.mpr hgrants)
    rw [hoGetline,if_pos hfirst,if_neg hgrants]

/-- An empty file, with a negative length. -/
theorem empty_negative {b : List Cell} (h : Describes s) (hb : s.buf = .live b)
    (hlen : b.length = s.n) (hfile : s.file = []) (hneg : toInt s.n < 0) :
    Delivers mem [] s ↔ -2^30 ≤ toInt s.n := by
  obtain ⟨b',-,hcase⟩ := empty_live mem h hb hlen hneg.ne hfile
  rw [grow_negative mem (v := ⟨b',1,toInt s.n,none,s.n,s.lost⟩) hneg] at hcase
  dsimp only at hcase
  by_cases hlow : -2^30 ≤ toInt s.n
  · rw [if_pos hlow] at hcase
    exact iff_of_true hcase hlow
  · rw [if_neg hlow] at hcase
    exact iff_of_false hcase hlow

/-- An empty file, with a length of one byte: the block of two bytes is lost. -/
theorem empty_one {b : List Cell} (h : Describes s) (hb : s.buf = .live b)
    (hlen : b.length = s.n) (hfile : s.file = []) (hone : toInt s.n = 1) :
    Delivers mem [] s ↔ mem.grants 2 = false := by
  obtain ⟨b',-,hcase⟩ := empty_live mem h hb hlen (by omega) hfile
  rw [grow_one mem (v := ⟨b',1,toInt s.n,none,s.n,s.lost⟩) rfl hone] at hcase
  by_cases hgrants : mem.grants 2 = true
  · rw [if_pos hgrants] at hcase
    refine iff_of_false (fun hd => ?_) (by rw [hgrants]; decide)
    rcases (hcase.mp hd).buf with hnull | ⟨m,hm,-⟩
    · exact nomatch hnull
    · exact nomatch hm
  · rw [if_neg hgrants] at hcase
    exact iff_of_true hcase (Bool.eq_false_iff.mpr hgrants)

/-- An empty file. -/
theorem delivers_empty_iff (h : Describes s) (hfile : s.file = []) :
    Delivers mem [] s ↔ Idle mem s := by
  by_cases hfirst : s.buf = .null ∨ toInt s.n = 0
  · rw [Idle,if_pos hfirst,empty_first h hfile hfirst]
  rw [Idle,if_neg hfirst]
  obtain ⟨hnull,hzero⟩ := not_or.mp hfirst
  obtain ⟨b,hb,hlen⟩ := h.buf.resolve_left hnull
  rcases lt_or_ge (toInt s.n) 0 with hneg | hpos
  · rw [empty_negative h hb hlen hfile hneg]
    omega
  rcases lt_or_ge (toInt s.n) 2 with hlt | htwo
  · have hone : toInt s.n = 1 := by omega
    rw [empty_one h hb hlen hfile hone,hone]
    simp
  · exact iff_of_true (delivers_nil h hb hlen htwo hfile) (Or.inl htwo)

/-- With a negative length no line is returned. -/
theorem gives_negative {v : Frame} (hneg : v.maxlen < 0) {file : Bytes} (hfile : file ≠ []) :
    Gives mem v file := by
  obtain ⟨c,file,rfl⟩ := List.exists_cons_of_ne_nil hfile
  refine gives_of_turn fun r hr => ?_
  rw [HoGetline.turn] at hr
  obtain ⟨v₁,hput,hr⟩ := bind_eq_ok.mp hr
  obtain ⟨b,-,hput⟩ := bind_eq_ok.mp hput
  cases hput
  have hgrow := grow_negative mem (v := { v with bufPtr := b,needed := v.needed+1 }) hneg
  by_cases hlow : -2^30 ≤ v.maxlen
  · rw [if_pos hlow] at hgrow
    rw [hgrow,ok_bind] at hr
    obtain ⟨b',-,hr⟩ := bind_eq_ok.mp hr
    exact ⟨_,(Except.ok.inj hr).symm⟩
  · rw [if_neg hlow] at hgrow
    rw [hgrow] at hr
    exact nomatch hr

/-- A call that gives -1 on a file with bytes. -/
theorem not_delivers_lines {s' : State} (hfile : s.file ≠ [])
    (hcall : hoGetline mem s = .ok (none,s')) : ¬ Delivers mem (lines s.file) s := by
  obtain ⟨l,ls,hlines⟩ := List.exists_cons_of_ne_nil (lines_ne_nil hfile)
  rw [hlines]
  rintro ⟨s'',hs'',-⟩
  rw [hcall] at hs''
  exact nomatch hs''

/-- A file with bytes, from NULL. -/
theorem reads_null (h : Describes s) (hfile : s.file ≠ []) (hnull : s.buf = .null) :
    Delivers mem (lines s.file) s ↔ Reads mem s := by
  have hstart : startLength s = 128 := if_pos hnull
  by_cases hgrants : mem.grants 128 = true
  · obtain ⟨v,hcall,hat⟩ := start_fresh (Or.inl hnull) hgrants h.lost
    rw [delivers_iff hcall hat (by decide) le_rfl (by decide) hfile,hnull]
    constructor
    · rintro ⟨hclosed,hnoEof,hgrows,-⟩
      refine ⟨hclosed,hnoEof,by rw [hstart]; decide,fun _ => hgrants,?_,Or.inl hnull⟩
      rw [hstart]
      exact hgrows
    · intro hreads
      have hgrows := hreads.grows
      rw [hstart] at hgrows
      exact ⟨hreads.closed,hreads.noEof,hgrows,rfl,Or.inl rfl⟩
  · refine iff_of_false ?_ fun hreads => hgrants (hreads.first hnull)
    exact not_delivers_lines hfile (by rw [hoGetline,if_pos (Or.inl hnull),if_neg hgrants])

/-- A file with bytes, from a block of whose length nothing is left in an `int`. -/
theorem reads_zero (h : Describes s) (hfile : s.file ≠ []) (hnull : s.buf ≠ .null)
    (hzero : toInt s.n = 0) : ¬ Delivers mem (lines s.file) s := by
  obtain ⟨b,hb,-⟩ := h.buf.resolve_left hnull
  by_cases hgrants : mem.grants 128 = true
  · obtain ⟨v,hcall,hat⟩ := start_fresh (Or.inr hzero) hgrants h.lost
    rw [delivers_iff hcall hat (by decide) le_rfl (by decide) hfile,hb]
    rintro ⟨-,-,-,hlost,-⟩
    exact absurd hlost Nat.one_ne_zero
  · exact not_delivers_lines hfile (by rw [hoGetline,if_pos (Or.inr hzero),if_neg hgrants])

/-- A file with bytes, from every buffer that is described. -/
theorem delivers_reads_iff (h : Describes s) (hfile : s.file ≠ []) :
    Delivers mem (lines s.file) s ↔ Reads mem s := by
  by_cases hnull : s.buf = .null
  · exact reads_null h hfile hnull
  have hstart : startLength s = toInt s.n := if_neg hnull
  obtain ⟨b,hb,hlen⟩ := h.buf.resolve_left hnull
  obtain ⟨hle,hlt⟩ := toInt_bounds s.n
  rcases lt_trichotomy (toInt s.n) 0 with hneg | hzero | hpos
  · have hnot : ¬ (s.buf = .null ∨ toInt s.n = 0) := by
      rintro (h0 | h0)
      · exact hnull h0
      · omega
    have hcall : hoGetline mem s = readLoop mem ⟨b,0,toInt s.n,none,s.n,s.lost⟩ s.file := by
      rw [hoGetline,if_neg hnot,hb]
      rfl
    refine iff_of_false ?_ fun hreads => ?_
    · obtain ⟨l,ls,hlines⟩ := List.exists_cons_of_ne_nil (lines_ne_nil hfile)
      rw [hlines]
      exact not_delivers hcall (gives_negative hneg hfile)
    · have hstartPos := hreads.pos
      omega
  · refine iff_of_false (reads_zero h hfile hnull hzero) fun hreads => ?_
    have hstartPos := hreads.pos
    omega
  · obtain ⟨m,hm⟩ : ∃ m : ℕ,toInt s.n = m := ⟨(toInt s.n).toNat,by omega⟩
    obtain ⟨v,hcall,hat⟩ := start_live mem hb hlen h.lost hm (by omega)
    rw [hm] at hstart
    rw [delivers_iff hcall hat (by omega) (by omega) (by omega) hfile]
    constructor
    · rintro ⟨hclosed,hnoEof,hgrows,-,hexact⟩
      refine ⟨hclosed,hnoEof,by omega,fun h0 => absurd h0 hnull,?_,Or.inr ?_⟩
      · rw [hstart,Int.toNat_natCast]
        exact hgrows
      · rw [hstart]
        exact hexact.imp (fun heq => by rw [heq]) fun hall l hl => by exact_mod_cast hall l hl
    · intro hreads
      have hgrows := hreads.grows
      have hexact := hreads.exact.resolve_left hnull
      rw [hstart] at hgrows hexact
      refine ⟨hreads.closed,hreads.noEof,hgrows,rfl,?_⟩
      exact hexact.imp (fun heq => by exact_mod_cast heq.symm) fun hall l hl => by
        exact_mod_cast hall l hl

end Every

/-- The calls deliver exactly these files. -/
theorem hoGetline_delivers_iff (mem : Memory) (s : State) (h : Describes s) :
    Delivers mem (lines s.file) s ↔ Served mem s := by
  rw [Served]
  split_ifs with hfile
  · rw [hfile]
    exact delivers_empty_iff h hfile
  · exact delivers_reads_iff h hfile

/-- A file of one byte that is no newline. -/
theorem not_delivers_open : ¬ Delivers plenty (lines [97]) ⟨.null,0,[97],0⟩ := by
  have h : Describes ⟨.null,0,[97],0⟩ := ⟨rfl,Or.inl rfl⟩
  rw [delivers_reads_iff h (List.cons_ne_nil _ _)]
  exact fun hreads => absurd hreads.closed (by decide)

/-- Two lines, from NULL. -/
theorem delivers_two : Delivers plenty (lines [97,10,98,10]) ⟨.null,0,[97,10,98,10],0⟩ := by
  apply (hoGetline_delivers_iff plenty ⟨.null,0,[97,10,98,10],0⟩ ⟨rfl,Or.inl rfl⟩).mpr
  rw [Served,if_neg (by decide)]
  refine ⟨by decide,by decide,by decide,fun _ => AntBuf.plenty_grants 128 (by decide),?_,Or.inl rfl⟩
  intro l hl i hi
  have hlen : ∀ l ∈ lines [97,10,98,10],l.length ≤ 2 := by decide
  have hle := hlen l hl
  have hpow : 1 ≤ 2^i := Nat.one_le_two_pow
  have hstart : (startLength ⟨.null,0,[97,10,98,10],0⟩).toNat = 128 := by decide
  rw [hstart] at hi
  omega

end HoGetline
end RecycleBin
