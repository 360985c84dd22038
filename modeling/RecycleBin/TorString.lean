import RecycleBin.AntBuf
import RecycleBin.Bytes
import RecycleBin.CString

/-! The formatted append of `tor_string.c`. Where the larger block is refused the old one is
freed, and the caller still holds its address. -/
namespace RecycleBin
namespace TorString

open AntBuf (Memory Cell int plenty)

/-- `*strp`: NULL, a block, or a block that has been freed. -/
inductive Ptr
  | null | live (m : List Cell) | freed
  deriving DecidableEq

def Ptr.block : Ptr → Except Fault (List Cell)
  | .live m => .ok m
  | .null | .freed => .error .undefined

def free : Ptr → Except Fault Unit
  | .null | .live _ => .ok ()
  | .freed => .error .undefined

/-- The three variables of the caller. -/
structure Str where
  strp : Ptr
  use : ℕ
  size : ℕ
  deriving DecidableEq

/-- What `vsnprintf` returns for a text: its length, or none where it is negative. A length that
is no `int` cannot be returned. -/
def returned (piece : Option (List UInt8)) : Option (List UInt8) :=
  piece.filter fun p => decide (p.length < 2^31)

/-- The text, cut to the room and terminated. -/
def printed (space : ℕ) (p : List UInt8) : List Cell :=
  if space = 0 then [] else (p.take (space-1)).map some++[some 0]

/-- `vsnprintf` of `piece` at `use`, into a room of `space` bytes. A failure leaves anything
there. -/
def vsnprintf (m : List Cell) (use space : ℕ) (piece : Option (List UInt8)) :
    Except Fault (Option ℕ × List Cell) :=
  match returned piece with
  | some p => do
    let m ← Bytes.writeAt m use (printed space p)
    pure (some p.length,m)
  | none => do
    let m ← Bytes.writeAt m use (List.replicate space none)
    pure (none,m)

/-- `*size` for the next turn. -/
def enlarged (use size : ℕ) : Option ℕ → Except Fault ℕ
  | some n => do
    let needed ← int (use+n+1)
    if size < needed then
      let double ← int (2*size)
      pure (if needed < double then double else needed)
    else pure size
  | none => int (2*size)

/-- A larger block: the bytes behind the old ones are not written yet. -/
def realloc (m : List Cell) (size : ℕ) : List Cell :=
  m.take size++List.replicate (size-m.length) none

/-- The `while (1)` of `sprintfcat`, for so many turns: whether 0 is returned, and the string. -/
def appendLoop (mem : Memory) (piece : Option (List UInt8)) :
    ℕ → Str → Except Fault (Bool × Str)
  | 0, _ => .error .exhausted
  | turns+1, s => do
    let m ← s.strp.block
    let (n,m) ← vsnprintf m s.use (CString.toSize (s.size-s.use)) piece
    if ∃ k ∈ n,k < s.size-s.use then
      pure (true,⟨.live m,s.use+n.getD 0,s.size⟩)
    else do
      let size ← enlarged s.use s.size n
      if mem.grants size then appendLoop mem piece turns ⟨.live (realloc m size),s.use,size⟩
      else pure (false,⟨.freed,s.use,size⟩)

/-- The string of a first call. -/
def fresh : Str := ⟨.live (List.replicate 500 (some 0)),0,500⟩

/-- `sprintfcat`, whose loop may take so many turns. -/
def sprintfcat (mem : Memory) (turns : ℕ) (s : Str) (piece : Option (List UInt8)) :
    Except Fault (Bool × Str) :=
  if s.strp = .null ∨ s.size = 0 then
    if mem.grants 500 then appendLoop mem piece turns fresh
    else .ok (false,⟨.null,0,500⟩)
  else appendLoop mem piece turns s

/-! ### The block -/

/-- The block has `size` bytes and begins with `text`, behind which there is room. -/
structure Begins (s : Str) (text : List UInt8) : Prop where
  use_eq : s.use = text.length
  use_lt : s.use < s.size
  size_lt : s.size < 2^31
  block : ∃ m, s.strp = .live m ∧ m.length = s.size ∧ m.take s.use = text.map some

/-- The string is allocated, and its content is `text` and a terminator. -/
structure Holds (s : Str) (text : List UInt8) : Prop where
  use_eq : s.use = text.length
  use_lt : s.use < s.size
  size_lt : s.size < 2^31
  block : ∃ m, s.strp = .live m ∧ m.length = s.size ∧ m.take (s.use+1) = text.map some++[some 0]

theorem Holds.begins {s : Str} {text : List UInt8} (h : Holds s text) : Begins s text where
  use_eq := h.use_eq
  use_lt := h.use_lt
  size_lt := h.size_lt
  block := by
    obtain ⟨m,hm,hlen,htext⟩ := h.block
    refine ⟨m,hm,hlen,?_⟩
    have hcut : m.take s.use = (m.take (s.use+1)).take s.use := by
      rw [List.take_take,Nat.min_eq_left (Nat.le_succ _)]
    rw [hcut,htext,List.take_left' (by rw [List.length_map,h.use_eq])]

theorem fresh_holds : Holds fresh [] where
  use_eq := rfl
  use_lt := by decide
  size_lt := by decide
  block := ⟨_,rfl,List.length_replicate,rfl⟩

theorem Holds.live {s : Str} {text : List UInt8} (h : Holds s text) :
    ¬ (s.strp = .null ∨ s.size = 0) := by
  obtain ⟨m,hm,-⟩ := h.block
  rintro (hnull | hzero)
  · rw [hm] at hnull
    exact nomatch hnull
  · have huse := h.use_lt
    omega

/-- The piece has no room behind the text. -/
def Unfit (s : Str) (piece : Option (List UInt8)) : Prop :=
  ∀ p ∈ returned piece,s.size ≤ s.use+p.length

section Print
variable {m : List Cell} {use space : ℕ}

/-- A write behind `use` keeps what is before. -/
theorem exists_write {cells : List Cell} (h : use+cells.length ≤ m.length) :
    ∃ m',Bytes.writeAt m use cells = .ok m' ∧ m'.length = m.length ∧
      m'.take (use+cells.length) = m.take use++cells := by
  have hw : Bytes.writeAt m use cells = .ok (m.take use++cells++m.drop (use+cells.length)) :=
    if_pos h
  have huse : (m.take use++cells).length = use+cells.length := by
    rw [List.length_append,List.length_take_of_le (by omega)]
  exact ⟨_,hw,Bytes.writeAt_length hw,List.take_left' huse⟩

theorem take_of_write {m' cells : List Cell} {k : ℕ}
    (h : m'.take (use+k) = m.take use++cells) (hle : use ≤ m.length) :
    m'.take use = m.take use := by
  have hcut : m'.take use = (m'.take (use+k)).take use := by
    rw [List.take_take,Nat.min_eq_left (Nat.le_add_right _ _)]
  rw [hcut,h,List.take_left' (List.length_take_of_le hle)]

theorem printed_length {p : List UInt8} : (printed space p).length = min space (p.length+1) := by
  unfold printed
  split_ifs with hs
  · simp [hs]
  · rw [List.length_append,List.length_map,List.length_take,List.length_singleton]
    omega

theorem printed_of_lt {p : List UInt8} (h : p.length < space) :
    printed space p = p.map some++[some 0] := by
  rw [printed,if_neg (by omega),List.take_of_length_le (by omega)]

/-- The call stays inside the block, and keeps what is before `use`. -/
theorem vsnprintf_keeps (h : use+space ≤ m.length) (piece : Option (List UInt8)) :
    ∃ m',vsnprintf m use space piece = .ok ((returned piece).map List.length,m') ∧
      m'.length = m.length ∧ m'.take use = m.take use := by
  unfold vsnprintf
  cases returned piece with
  | none =>
    have hfit : use+(List.replicate space (none : Cell)).length ≤ m.length := by
      rwa [List.length_replicate]
    obtain ⟨m',hw,hlen,htake⟩ := exists_write hfit
    exact ⟨m',by dsimp only; rw [hw]; rfl,hlen,take_of_write htake (by omega)⟩
  | some p =>
    have hfit : use+(printed space p).length ≤ m.length := by
      rw [printed_length]
      omega
    obtain ⟨m',hw,hlen,htake⟩ := exists_write hfit
    exact ⟨m',by dsimp only; rw [hw]; rfl,hlen,take_of_write htake (by omega)⟩

/-- A text that fits is there, terminated. -/
theorem vsnprintf_fits (h : use+space ≤ m.length) {piece : Option (List UInt8)} {p : List UInt8}
    (hp : returned piece = some p) (hfits : p.length < space) :
    ∃ m',vsnprintf m use space piece = .ok (some p.length,m') ∧ m'.length = m.length ∧
      m'.take (use+p.length+1) = m.take use++p.map some++[some 0] := by
  have hcells := printed_of_lt hfits
  have hlen : (printed space p).length = p.length+1 := by
    rw [printed_length]
    omega
  have hfit : use+(printed space p).length ≤ m.length := by omega
  obtain ⟨m',hw,hkeep,htake⟩ := exists_write hfit
  refine ⟨m',?_,hkeep,?_⟩
  · unfold vsnprintf
    rw [hp]
    dsimp only
    rw [hw]
    rfl
  · rw [hlen,hcells,← List.append_assoc] at htake
    exact htake

end Print

/-! ### A turn of the loop -/

section Turn
variable {mem : Memory} {piece : Option (List UInt8)} {s : Str} {text : List UInt8} {turns : ℕ}

theorem Begins.space (h : Begins s text) :
    CString.toSize ((s.size : ℤ)-s.use) = s.size-s.use := by
  have hlt := h.use_lt
  have hsize := h.size_lt
  unfold CString.toSize
  omega

/-- A piece that fits is appended. -/
theorem appendLoop_fits (mem : Memory) (turns : ℕ) (h : Begins s text) {p : List UInt8}
    (hp : returned piece = some p) (hfits : s.use+p.length < s.size) :
    ∃ s',appendLoop mem piece (turns+1) s = .ok (true,s') ∧ Holds s' (text++p) ∧
      s'.size = s.size := by
  obtain ⟨m,hm,hlen,htext⟩ := h.block
  have hroom : p.length < s.size-s.use := by omega
  have hinside : s.use+(s.size-s.use) ≤ m.length := by omega
  obtain ⟨m',hprint,hlen',htake⟩ := vsnprintf_fits hinside hp hroom
  refine ⟨⟨.live m',s.use+p.length,s.size⟩,?_,?_,rfl⟩
  · rw [appendLoop,hm]
    dsimp only [Ptr.block]
    rw [ok_bind,h.space,hprint,ok_bind]
    dsimp only
    rw [if_pos ⟨p.length,rfl,hroom⟩]
    rfl
  · refine ⟨?_,hfits,h.size_lt,m',rfl,hlen'.trans hlen,?_⟩
    · rw [List.length_append,h.use_eq]
    · rw [htake,htext,List.map_append]

/-- Where a piece has no room, the turn ends with a larger block or with none. -/
theorem appendLoop_unfit (mem : Memory) (h : Begins s text) (hp : Unfit s piece) :
    ∃ m : List Cell,m.length = s.size ∧ m.take s.use = text.map some ∧
      ∀ turns,appendLoop mem piece (turns+1) s =
        (enlarged s.use s.size ((returned piece).map List.length) >>= fun size =>
          if mem.grants size then appendLoop mem piece turns ⟨.live (realloc m size),s.use,size⟩
          else .ok (false,⟨.freed,s.use,size⟩)) := by
  obtain ⟨m,hm,hlen,htext⟩ := h.block
  have hlt := h.use_lt
  have hinside : s.use+(s.size-s.use) ≤ m.length := by omega
  obtain ⟨m',hprint,hlen',htake⟩ := vsnprintf_keeps hinside piece
  refine ⟨m',hlen'.trans hlen,htake.trans htext,fun turns => ?_⟩
  have hno : ¬ ∃ k ∈ (returned piece).map List.length,k < s.size-s.use := by
    rintro ⟨k,hk,hroom⟩
    obtain ⟨p,hret,rfl⟩ := Option.map_eq_some_iff.mp hk
    have hfull := hp p hret
    omega
  rw [appendLoop,hm]
  dsimp only [Ptr.block]
  rw [ok_bind,h.space,hprint,ok_bind]
  dsimp only
  rw [if_neg hno]
  rfl

/-- The larger block begins with the same text. -/
theorem Begins.realloc {m : List Cell} {size : ℕ} (h : Begins s text) (hlen : m.length = s.size)
    (htext : m.take s.use = text.map some) (hle : s.size ≤ size) (hlt : size < 2^31) :
    Begins ⟨.live (realloc m size),s.use,size⟩ text where
  use_eq := h.use_eq
  use_lt := Nat.lt_of_lt_of_le h.use_lt hle
  size_lt := hlt
  block := by
    have huse := h.use_lt
    refine ⟨_,rfl,?_,?_⟩
    · rw [TorString.realloc,List.length_append,List.length_take,List.length_replicate]
      dsimp only
      omega
    · have hcut : m.take size = m := List.take_of_length_le (by omega)
      rw [TorString.realloc,hcut,List.take_append_of_le_length (by dsimp only; omega)]
      exact htext

/-- The new size, where it is an `int`. -/
theorem enlarged_full {use size n : ℕ} (h : size ≤ use+n) :
    enlarged use size (some n) =
      if use+n+1 < 2^31 ∧ 2*size < 2^31 then .ok (max (use+n+1) (2*size))
      else .error .undefined := by
  unfold enlarged
  dsimp only
  by_cases hneed : use+n+1 < 2^31
  · rw [AntBuf.int_of_lt hneed,ok_bind,if_pos (by omega)]
    by_cases hdouble : 2*size < 2^31
    · have hboth : use+n+1 < 2^31 ∧ 2*size < 2^31 := ⟨hneed,hdouble⟩
      rw [AntBuf.int_of_lt hdouble,ok_bind,if_pos hboth]
      split_ifs with hlt
      · rw [max_eq_right hlt.le]
        rfl
      · rw [max_eq_left (by omega)]
        rfl
    · rw [int,if_neg hdouble,if_neg (fun h => hdouble h.2)]
      rfl
  · rw [int,if_neg hneed,if_neg (fun h => hneed h.1)]
    rfl

/-- A turn in which `vsnprintf` fails doubles the size. -/
theorem appendLoop_error (mem : Memory) (h : Begins s text) (hret : returned piece = none) :
    ∃ s',s'.size = 2*s.size ∧ (2*s.size < 2^31 → Begins s' text) ∧
      ∀ turns,appendLoop mem piece (turns+1) s =
        if 2*s.size < 2^31 then
          if mem.grants (2*s.size) then appendLoop mem piece turns s'
          else .ok (false,⟨.freed,s.use,2*s.size⟩)
        else .error .undefined := by
  have hunfit : Unfit s piece := fun q hq => by
    rw [hret] at hq
    exact nomatch hq
  obtain ⟨m,hlen,htext,hturn⟩ := appendLoop_unfit mem h hunfit
  refine ⟨⟨.live (realloc m (2*s.size)),s.use,2*s.size⟩,rfl,
    h.realloc hlen htext (by omega),fun turns => ?_⟩
  rw [hturn,hret,Option.map_none,enlarged,int]
  by_cases hlt : 2*s.size < 2^31
  · rw [if_pos hlt,if_pos hlt,ok_bind]
  · rw [if_neg hlt,if_neg hlt,error_bind]

/-- Where `vsnprintf` fails the size is doubled until a block is refused. -/
theorem appendLoop_error_iff (h : Begins s text) (hret : returned piece = none) :
    (∃ turns r,appendLoop mem piece turns s = .ok r) ↔
      ∃ k,2^(k+1)*s.size < 2^31 ∧ mem.grants (2^(k+1)*s.size) = false := by
  constructor
  · rintro ⟨turns,r,hrun⟩
    induction turns generalizing s with
    | zero => exact nomatch hrun
    | succ turns ih =>
      obtain ⟨s',hsize,hs',hturn⟩ := appendLoop_error mem h hret
      rw [hturn] at hrun
      split_ifs at hrun with hlt hgrants
      · obtain ⟨k,hk,hrefused⟩ := ih (hs' hlt) hrun
        rw [hsize,← mul_assoc,← pow_succ] at hk hrefused
        exact ⟨k+1,hk,hrefused⟩
      · refine ⟨0,?_,?_⟩ <;> rw [Nat.zero_add,pow_one]
        · exact hlt
        · exact Bool.eq_false_iff.mpr hgrants
  · rintro ⟨k,hk,hrefused⟩
    induction k generalizing s with
    | zero =>
      obtain ⟨s',-,-,hturn⟩ := appendLoop_error mem h hret
      rw [Nat.zero_add,pow_one] at hk hrefused
      refine ⟨1,(false,⟨.freed,s.use,2*s.size⟩),?_⟩
      rw [hturn,if_pos hk,hrefused,if_neg Bool.false_ne_true]
    | succ k ih =>
      obtain ⟨s',hsize,hs',hturn⟩ := appendLoop_error mem h hret
      rw [pow_succ _ (k+1),mul_assoc] at hk hrefused
      have hlt : 2*s.size < 2^31 :=
        Nat.lt_of_le_of_lt (Nat.le_mul_of_pos_left _ (by positivity)) hk
      rw [← hsize] at hk hrefused
      by_cases hgrants : mem.grants (2*s.size) = true
      · obtain ⟨turns,r,hrun⟩ := ih (hs' hlt) hk hrefused
        refine ⟨turns+1,r,?_⟩
        rw [hturn,if_pos hlt,if_pos hgrants,hrun]
      · refine ⟨1,(false,⟨.freed,s.use,2*s.size⟩),?_⟩
        rw [hturn,if_pos hlt,if_neg hgrants]

end Turn

/-! ### Sequences of calls -/

/-- A call with a text that `vsnprintf` prints whole. -/
def append (mem : Memory) (turns : ℕ) (p : List UInt8) (s : Str) : Except Fault (Bool × Str) :=
  sprintfcat mem turns s (some p)

/-- From NULL on the calls succeed, with two turns of the loop at most, and the string is what
they have appended. -/
def Concatenates (use size : ℕ) (ps : List (List UInt8)) : Prop :=
  ∃ s,runs (append plenty 2) ps ⟨.null,use,size⟩ = .ok (List.replicate ps.length true,s) ∧
    (ps ≠ [] → Holds s ps.flatten)

/-- Wherever a piece has no room, the length it needs and twice the size are an `int`. -/
def Small : ℕ → ℕ → List (List UInt8) → Prop
  | _, _, [] => True
  | use, size, p::ps =>
    if use+p.length < size then Small (use+p.length) size ps
    else use+p.length+1 < 2^31 ∧ 2*size < 2^31 ∧
      Small (use+p.length) (max (use+p.length+1) (2*size)) ps

section Calls
variable {mem : Memory} {s : Str} {text p : List UInt8}

theorem returned_some (h : p.length < 2^31) : returned (some p) = some p := by
  rw [returned,Option.filter_some,if_pos (decide_eq_true h)]

theorem unfit_some (h : s.size ≤ s.use+p.length) : Unfit s (some p) := by
  intro q hq
  obtain ⟨hpq,-⟩ := Option.filter_eq_some_iff.mp hq
  cases hpq
  exact h

/-- A text that has room is appended in the first turn. -/
theorem append_fits (mem : Memory) (h : Holds s text) (hfits : s.use+p.length < s.size) (turns : ℕ) :
    ∃ s',append mem (turns+1) p s = .ok (true,s') ∧ Holds s' (text++p) ∧ s'.size = s.size := by
  have hsize := h.size_lt
  obtain ⟨s',hrun,hs'⟩ := appendLoop_fits mem turns h.begins
    (returned_some (p := p) (by omega)) hfits
  exact ⟨s',by rw [append,sprintfcat,if_neg h.live,hrun],hs'⟩

/-- A text without room is appended in the second turn, where the larger size is an `int`. -/
theorem append_grows (h : Holds s text) (hfull : s.size ≤ s.use+p.length)
    (hneed : s.use+p.length+1 < 2^31) (hdouble : 2*s.size < 2^31) :
    ∃ s',append plenty 2 p s = .ok (true,s') ∧ Holds s' (text++p) ∧
      s'.size = max (s.use+p.length+1) (2*s.size) := by
  obtain ⟨m,hlen,htext,hturn⟩ := appendLoop_unfit plenty h.begins (unfit_some hfull)
  have hlt : max (s.use+p.length+1) (2*s.size) < 2^31 := max_lt hneed hdouble
  have hret := returned_some (p := p) (by omega)
  have hle : s.size ≤ max (s.use+p.length+1) (2*s.size) := by omega
  have hbegins := h.begins.realloc hlen htext hle hlt
  obtain ⟨s',hrun,hs',hsize⟩ := appendLoop_fits plenty 0 hbegins hret
    (by dsimp only; omega)
  refine ⟨s',?_,hs',hsize⟩
  rw [append,sprintfcat,if_neg h.live,hturn,hret,Option.map_some,enlarged_full hfull,
    if_pos ⟨hneed,hdouble⟩,ok_bind,if_pos (AntBuf.plenty_grants _ hlt),hrun]

/-- Where it is none, the call does not return. -/
theorem append_overflows (h : Holds s text) (hfull : s.size ≤ s.use+p.length)
    (hover : ¬ (s.use+p.length+1 < 2^31 ∧ 2*s.size < 2^31)) (r : Bool × Str) :
    append plenty 2 p s ≠ .ok r := by
  intro hrun
  rw [append,sprintfcat,if_neg h.live] at hrun
  by_cases hp : p.length < 2^31
  · obtain ⟨m,-,-,hturn⟩ := appendLoop_unfit plenty h.begins (unfit_some hfull)
    rw [hturn,returned_some hp,Option.map_some,enlarged_full hfull,if_neg hover] at hrun
    exact nomatch hrun
  · have hret : returned (some p) = none := by
      rw [returned,Option.filter_some,if_neg (by simpa using hp)]
    obtain ⟨k,hk,hrefused⟩ := (appendLoop_error_iff h.begins hret).mp ⟨2,r,hrun⟩
    rw [AntBuf.plenty_grants _ hk] at hrefused
    exact nomatch hrefused

/-- The calls on a string that is allocated. -/
theorem runs_append_iff (h : Holds s text) (ps : List (List UInt8)) :
    (∃ s',runs (append plenty 2) ps s = .ok (List.replicate ps.length true,s') ∧
      Holds s' (text++ps.flatten)) ↔ Small s.use s.size ps := by
  induction ps generalizing s text with
  | nil => exact iff_of_true ⟨s,rfl,by simpa using h⟩ trivial
  | cons p ps ih =>
    -- one call that succeeds, and the others from the string it leaves
    have hcall {s₁ : Str} (hrun : append plenty 2 p s = .ok (true,s₁)) (h₁ : Holds s₁ (text++p)) :
        (∃ s',runs (append plenty 2) (p::ps) s = .ok (List.replicate (p::ps).length true,s') ∧
          Holds s' (text++(p::ps).flatten)) ↔ Small (s.use+p.length) s₁.size ps := by
      have huse : s₁.use = s.use+p.length := by
        rw [h₁.use_eq,List.length_append,h.use_eq]
      rw [← huse,← ih h₁,List.flatten_cons,← List.append_assoc]
      constructor
      · rintro ⟨s',hruns,hs'⟩
        obtain ⟨r,s₂,rs,hr,hrest,hrs⟩ := runs_cons_eq_ok.mp hruns
        rw [hrun] at hr
        cases hr
        obtain rfl : List.replicate ps.length true = rs := (List.cons.inj hrs).2
        exact ⟨s',hrest,hs'⟩
      · rintro ⟨s',hrest,hs'⟩
        exact ⟨s',runs_cons_eq_ok.mpr ⟨_,_,_,hrun,hrest,rfl⟩,hs'⟩
    rw [Small]
    by_cases hfits : s.use+p.length < s.size
    · obtain ⟨s₁,hrun,h₁,hsize⟩ := append_fits plenty h hfits 1
      rw [if_pos hfits,hcall hrun h₁,hsize]
    · rw [if_neg hfits]
      have hfull : s.size ≤ s.use+p.length := Nat.le_of_not_lt hfits
      by_cases hint : s.use+p.length+1 < 2^31 ∧ 2*s.size < 2^31
      · obtain ⟨s₁,hrun,h₁,hsize⟩ := append_grows h hfull hint.1 hint.2
        rw [hcall hrun h₁,hsize]
        exact ⟨fun hsmall => ⟨hint.1,hint.2,hsmall⟩,fun hsmall => hsmall.2.2⟩
      · refine iff_of_false ?_ fun hsmall => hint ⟨hsmall.1,hsmall.2.1⟩
        rintro ⟨s',hruns,-⟩
        obtain ⟨r,s₁,rs',hrun,-⟩ := runs_cons_eq_ok.mp hruns
        exact append_overflows h hfull hint _ hrun

end Calls

/-- The first call of a string that starts as NULL allocates it. -/
theorem concatenates_cons (use size : ℕ) (p : List UInt8) (ps : List (List UInt8)) :
    Concatenates use size (p::ps) ↔ Small 0 500 (p::ps) := by
  have hfirst : append plenty 2 p ⟨.null,use,size⟩ = append plenty 2 p fresh := by
    rw [append,sprintfcat,if_pos (Or.inl rfl),if_pos (AntBuf.plenty_grants 500 (by decide)),
      append,sprintfcat,if_neg fresh_holds.live]
  have hruns : runs (append plenty 2) (p::ps) ⟨.null,use,size⟩ =
      runs (append plenty 2) (p::ps) fresh := by
    rw [runs_cons,hfirst,← runs_cons]
  rw [Concatenates,hruns,show Small 0 500 (p::ps) = Small fresh.use fresh.size (p::ps) from rfl,
    ← runs_append_iff fresh_holds (p::ps),List.nil_append]
  exact exists_congr fun s => and_congr_right fun _ => forall_prop_of_true (List.cons_ne_nil _ _)

/-- From NULL on the calls concatenate exactly as long as the sizes are an `int`. -/
theorem concatenates_iff (use size : ℕ) (ps : List (List UInt8)) :
    Concatenates use size ps ↔ Small 0 500 ps := by
  cases ps with
  | nil => exact iff_of_true ⟨_,rfl,fun h => absurd rfl h⟩ trivial
  | cons p ps => exact concatenates_cons use size p ps

/-- A first text of the greatest length that `vsnprintf` can return. -/
theorem not_concatenates_max : ¬ Concatenates 0 0 [List.replicate (2^31-1) 65] := by
  rw [concatenates_cons,Small,List.length_replicate,if_neg (by decide)]
  rintro ⟨hneed,-⟩
  exact absurd hneed (by decide)

/-! ### A refused block -/

/-- What the caller may hold: NULL, or an allocated string. -/
def Held (s : Str) : Prop := s.strp = .null ∨ ∃ text,Holds s text

/-- What a failed call may leave: NULL, or the string from before. -/
def Kept (s s' : Str) : Prop := s'.strp = .null ∨ ∃ text,Holds s text ∧ Holds s' text

/-- Every call that returns -1 leaves the caller a string. -/
def FailsSafe (mem : Memory) (s : Str) (piece : Option (List UInt8)) : Prop :=
  ∀ turns s',sprintfcat mem turns s piece = .ok (false,s') → Kept s s'

/-- A larger block that the call asks for is refused, and its size is an `int`: the block for a
text without room, or a doubled one where `vsnprintf` fails. -/
def Refused (mem : Memory) (use size : ℕ) (piece : Option (List UInt8)) : Prop :=
  match returned piece with
  | some p => size ≤ use+p.length ∧ use+p.length+1 < 2^31 ∧ 2*size < 2^31 ∧
      mem.grants (max (use+p.length+1) (2*size)) = false
  | none => ∃ k,2^(k+1)*size < 2^31 ∧ mem.grants (2^(k+1)*size) = false

/-- The call gets every larger block it asks for; its first block may be refused. -/
def Enlarges (mem : Memory) (s : Str) (piece : Option (List UInt8)) : Prop :=
  if s.strp = .null then mem.grants 500 = true → ¬ Refused mem 0 500 piece
  else ¬ Refused mem s.use s.size piece

section Failure
variable {mem : Memory} {piece : Option (List UInt8)} {s : Str} {text : List UInt8}

/-- A loop that gives up has freed the block. -/
theorem appendLoop_freed {turns : ℕ} {s' : Str}
    (h : appendLoop mem piece turns s = .ok (false,s')) : s'.strp = .freed := by
  induction turns generalizing s with
  | zero => exact nomatch h
  | succ turns ih =>
    rw [appendLoop] at h
    obtain ⟨m,-,h⟩ := bind_eq_ok.mp h
    obtain ⟨⟨n,m'⟩,-,h⟩ := bind_eq_ok.mp h
    dsimp only at h
    split_ifs at h with hfits
    · exact nomatch h
    · obtain ⟨size,-,h⟩ := bind_eq_ok.mp h
      split_ifs at h with hgrants
      · exact ih h
      · cases h
        rfl

/-- Where `vsnprintf` fails the loop can only give up. -/
theorem appendLoop_error_ne (h : Begins s text) (hret : returned piece = none) (turns : ℕ)
    (s' : Str) : appendLoop mem piece turns s ≠ .ok (true,s') := by
  induction turns generalizing s with
  | zero => exact fun hrun => nomatch hrun
  | succ turns ih =>
    obtain ⟨s₁,-,hs₁,hturn⟩ := appendLoop_error mem h hret
    rw [hturn]
    split_ifs with hlt hgrants
    · exact ih (hs₁ hlt)
    · exact fun hrun => nomatch hrun
    · exact fun hrun => nomatch hrun

/-- A text is appended in two turns, unless its block is refused or its size is no `int`. -/
theorem appendLoop_text_iff (h : Begins s text) {p : List UInt8} (hret : returned piece = some p) :
    (∃ turns s',appendLoop mem piece turns s = .ok (false,s')) ↔
      s.size ≤ s.use+p.length ∧ s.use+p.length+1 < 2^31 ∧ 2*s.size < 2^31 ∧
        mem.grants (max (s.use+p.length+1) (2*s.size)) = false := by
  -- a turn in which the text has room
  have hroom {s : Str} (h : Begins s text) (hfits : s.use+p.length < s.size) (turns : ℕ) (s' : Str) :
      appendLoop mem piece turns s ≠ .ok (false,s') := by
    intro hrun
    cases turns with
    | zero => exact nomatch hrun
    | succ turns =>
      obtain ⟨s₁,hturn,-⟩ := appendLoop_fits mem turns h hret hfits
      rw [hturn] at hrun
      exact nomatch hrun
  by_cases hfull : s.size ≤ s.use+p.length
  · have hunfit : Unfit s piece := fun q hq => by
      obtain rfl := Option.some.inj (hret.symm.trans hq)
      exact hfull
    obtain ⟨m,hlen,htext,hturn⟩ := appendLoop_unfit mem h hunfit
    rw [hret,Option.map_some,enlarged_full hfull] at hturn
    constructor
    · rintro ⟨turns,s',hrun⟩
      cases turns with
      | zero => exact nomatch hrun
      | succ turns =>
        rw [hturn] at hrun
        split_ifs at hrun with hint
        · rw [ok_bind] at hrun
          split_ifs at hrun with hgrants
          · have hle : s.size ≤ max (s.use+p.length+1) (2*s.size) := by omega
            have hbegins := h.realloc hlen htext hle (max_lt hint.1 hint.2)
            exact absurd hrun (hroom hbegins (by dsimp only; omega) turns s')
          · exact ⟨hfull,hint.1,hint.2,Bool.eq_false_iff.mpr hgrants⟩
        · exact nomatch hrun
    · rintro ⟨-,hneed,hdouble,hrefused⟩
      refine ⟨1,⟨.freed,s.use,max (s.use+p.length+1) (2*s.size)⟩,?_⟩
      rw [hturn,if_pos ⟨hneed,hdouble⟩,ok_bind,hrefused,if_neg Bool.false_ne_true]
  · refine iff_of_false ?_ fun hr => hfull hr.1
    rintro ⟨turns,s',hrun⟩
    exact hroom h (Nat.lt_of_not_le hfull) turns s' hrun

/-- The loop gives up exactly where a larger block is refused. -/
theorem appendLoop_fails_iff (h : Begins s text) :
    (∃ turns s',appendLoop mem piece turns s = .ok (false,s')) ↔
      Refused mem s.use s.size piece := by
  unfold Refused
  cases hret : returned piece with
  | none =>
    rw [← appendLoop_error_iff h hret]
    constructor
    · rintro ⟨turns,s',hrun⟩
      exact ⟨turns,_,hrun⟩
    · rintro ⟨turns,⟨done,s'⟩,hrun⟩
      cases done with
      | false => exact ⟨turns,s',hrun⟩
      | true => exact absurd hrun (appendLoop_error_ne h hret turns s')
  | some p => exact appendLoop_text_iff h hret

/-- A string whose block was freed: neither may it be freed nor appended to. -/
theorem freed_undefined (hs : s.strp = .freed) (hsize : s.size ≠ 0) (turns : ℕ) :
    free s.strp = .error .undefined ∧ ∀ r,sprintfcat mem turns s piece ≠ .ok r := by
  refine ⟨by rw [hs]; rfl,fun r hrun => ?_⟩
  have hlive : ¬ (s.strp = .null ∨ s.size = 0) := by
    rintro (hnull | hzero)
    · rw [hs] at hnull
      exact nomatch hnull
    · exact hsize hzero
  rw [sprintfcat,if_neg hlive] at hrun
  cases turns with
  | zero => exact nomatch hrun
  | succ turns =>
    rw [appendLoop,hs] at hrun
    exact nomatch hrun

theorem Kept.not_freed {s' : Str} (h : Kept s s') : s'.strp ≠ .freed := by
  rcases h with hnull | ⟨text,-,hs'⟩
  · rw [hnull]
    exact Ptr.noConfusion
  · obtain ⟨m,hm,-⟩ := hs'.block
    rw [hm]
    exact Ptr.noConfusion

/-- The calls of a loop keep the string exactly where it does not give up. -/
theorem loop_safe_iff (h : Begins s text) :
    (∀ turns s',appendLoop mem piece turns s = .ok (false,s') → Kept s s') ↔
      ¬ Refused mem s.use s.size piece := by
  rw [← appendLoop_fails_iff h]
  constructor
  · rintro hsafe ⟨turns,s',hrun⟩
    exact (hsafe turns s' hrun).not_freed (appendLoop_freed hrun)
  · intro hno turns s' hrun
    exact absurd ⟨turns,s',hrun⟩ hno

/-- A first block that is refused leaves NULL. -/
theorem failsSafe_null (hs : s.strp = .null) : FailsSafe mem s piece ↔ Enlarges mem s piece := by
  rw [FailsSafe,Enlarges,if_pos hs]
  simp only [sprintfcat,if_pos (Or.inl hs : s.strp = .null ∨ s.size = 0)]
  by_cases hgrants : mem.grants 500 = true
  · have hfresh : ∀ s',Kept s s' ↔ s'.strp = .null := fun s' => by
      refine or_iff_left ?_
      rintro ⟨text,hheld,-⟩
      exact hheld.live (Or.inl hs)
    simp only [hgrants,if_true,forall_true_left,hfresh]
    rw [show Refused mem 0 500 piece = Refused mem fresh.use fresh.size piece from rfl,
      ← appendLoop_fails_iff fresh_holds.begins]
    constructor
    · rintro hsafe ⟨turns,s',hrun⟩
      exact absurd (hsafe turns s' hrun) (by rw [appendLoop_freed hrun]; exact Ptr.noConfusion)
    · intro hno turns s' hrun
      exact absurd ⟨turns,s',hrun⟩ hno
  · refine iff_of_true ?_ fun h => absurd h hgrants
    intro turns s' hrun
    rw [if_neg hgrants] at hrun
    cases hrun
    exact Or.inl rfl

/-- An allocated string is lost with any block that is refused. -/
theorem failsSafe_holds (h : Holds s text) : FailsSafe mem s piece ↔ Enlarges mem s piece := by
  have hnull : s.strp ≠ .null := fun hs => h.live (Or.inl hs)
  rw [FailsSafe,Enlarges,if_neg hnull,← loop_safe_iff h.begins]
  simp only [sprintfcat,if_neg h.live]

end Failure

/-- A failed call keeps the string exactly where no larger block is refused. -/
theorem failsSafe_iff (mem : Memory) (s : Str) (piece : Option (List UInt8)) (h : Held s) :
    FailsSafe mem s piece ↔ Enlarges mem s piece := by
  rcases h with hs | ⟨text,hs⟩
  · exact failsSafe_null hs
  · exact failsSafe_holds hs

/-- A memory in which one block of 500 bytes can be had, and no larger one. -/
def scarce : Memory := ⟨fun n => n ≤ 500,fun n h => decide_eq_false (by omega)⟩

/-- A text that leaves no byte for its terminator is lost with the string. -/
theorem not_failsSafe_full : ¬ FailsSafe scarce fresh (some (List.replicate 500 97)) := by
  rw [failsSafe_holds fresh_holds,Enlarges,if_neg (by decide),not_not,Refused,
    returned_some (by rw [List.length_replicate]; decide)]
  dsimp only
  rw [List.length_replicate]
  decide

theorem failsSafe_short : FailsSafe scarce fresh (some [97]) := by
  apply (failsSafe_iff scarce fresh (some [97]) (Or.inr ⟨[],fresh_holds⟩)).mpr
  rw [Enlarges,if_neg (by decide),Refused,returned_some (by decide)]
  decide

end TorString
end RecycleBin
