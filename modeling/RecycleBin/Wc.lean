import Mathlib.Tactic

/-!
# Counting lines, words and characters

`countComplicated` of `coreutils/wc.go`: it reads line by line, decodes each line rune by
rune and keeps a column and whether it is in a word. The classes of `unicode` are parameters.
-/

namespace RecycleBin
namespace Wc

abbrev Bytes := List UInt8

/-! ## `utf8.DecodeRune` -/

def RuneError : ℕ := 0xFFFD

/-- The length of a sequence by its first byte, and the range of its second byte; none for a
byte that stands alone, in ASCII or invalid. -/
def first (b : UInt8) : Option (ℕ × ℕ × ℕ) :=
  let n := b.toNat
  if n < 0xC2 then none
  else if n < 0xE0 then some (2,0x80,0xBF)
  else if n = 0xE0 then some (3,0xA0,0xBF)
  else if n = 0xED then some (3,0x80,0x9F)
  else if n < 0xF0 then some (3,0x80,0xBF)
  else if n = 0xF0 then some (4,0x90,0xBF)
  else if n < 0xF4 then some (4,0x80,0xBF)
  else if n = 0xF4 then some (4,0x80,0x8F)
  else none

def within (lo hi : ℕ) (b : UInt8) : Bool := decide (lo ≤ b.toNat ∧ b.toNat ≤ hi)

/-- The value of the bytes behind the first. -/
def tailBits (n : ℕ) (bs : Bytes) : ℕ := bs.foldl (fun n b => n*64+b.toNat%64) n

/-- `utf8.DecodeRune` on a non-empty slice: the rune and its size. -/
def decodeRune (b : UInt8) (bs : Bytes) : ℕ × ℕ :=
  if b.toNat < 0x80 then (b.toNat,1)
  else
    (first b).elim (RuneError,1) fun x =>
      let rest := bs.take (x.1-1)
      if rest.length = x.1-1 ∧ rest.head?.any (within x.2.1 x.2.2) ∧
          rest.tail.all (within 0x80 0xBF) then
        (tailBits (b.toNat%2^(7-x.1)) rest,x.1)
      else (RuneError,1)

/-! ## The counter -/

structure Results where
  Lines : ℕ
  Words : ℕ
  Chars : ℕ
  Bytes : ℕ
  MaxLength : ℕ
  deriving DecidableEq

/-- `Counter`, with the predicates of `unicode`. -/
structure Counter where
  TabWidth : ℕ
  tab_pos : 0 < TabWidth
  isPrint : ℕ → Bool
  isSpace : ℕ → Bool

/-- The variables of `countComplicated`. -/
structure State where
  res : Results
  pos : ℕ
  inWord : Bool

namespace State

/-- `if inWord { res.Words++ }; inWord = false` -/
def endWord (s : State) : State :=
  { s with
    res := { s.res with Words := if s.inWord then s.res.Words+1 else s.res.Words }
    inWord := false }

/-- `if pos > res.MaxLength { res.MaxLength = pos }; pos = 0` -/
def endLine (s : State) : State :=
  { s with
    res := { s.res with MaxLength := if s.pos > s.res.MaxLength then s.pos else s.res.MaxLength }
    pos := 0 }

end State

/-- The `switch` on a rune. -/
def count (c : Counter) (s : State) (r : ℕ) : State :=
  if r = 10 then
    State.endWord (State.endLine { s with res := { s.res with Lines := s.res.Lines+1 } })
  else if r = 13 ∨ r = 12 then s.endLine.endWord
  else if r = 9 then State.endWord { s with pos := s.pos+(c.TabWidth-s.pos%c.TabWidth) }
  else if r = 32 then State.endWord { s with pos := s.pos+1 }
  else if r = 11 then s.endWord
  else if c.isPrint r then
    if c.isSpace r then State.endWord { s with pos := s.pos+1 }
    else { s with pos := s.pos+1, inWord := true }
  else s

/-- The loop over one line. -/
def countLine (c : Counter) (s : State) : Bytes → State
  | [] => s
  | b::bs =>
    let d := decodeRune b bs
    let s := count c s d.1
    countLine c { s with res := { s.res with Chars := s.res.Chars+1 } } (bs.drop (d.2-1))
termination_by l => l.length
decreasing_by simp

/-- `br.ReadBytes('\n')` until the end of the input: the lines with their delimiter. -/
def readLines : Bytes → List Bytes
  | [] => []
  | b::bs =>
    if b = 10 then [10]::readLines bs
    else
      match readLines bs with
      | [] => [[b]]
      | l::ls => (b::l)::ls

def countComplicated (c : Counter) (input : Bytes) : Results :=
  let s := (readLines input).foldl (countLine c) ⟨⟨0,0,0,0,0⟩,0,false⟩
  (s.endLine.endWord).res

/-! ## What is to be counted -/

/-- The runes of a text. -/
def runes : Bytes → List ℕ
  | [] => []
  | b::bs =>
    let d := decodeRune b bs
    d.1::runes (bs.drop (d.2-1))
termination_by l => l.length
decreasing_by simp

namespace Counter
variable (c : Counter)

/-- White space, and what else is printed as a space. -/
def separates (r : ℕ) : Bool :=
  r = 9 ∨ r = 10 ∨ r = 11 ∨ r = 12 ∨ r = 13 ∨ r = 32 ∨ (c.isPrint r ∧ c.isSpace r)

def isLetter (r : ℕ) : Bool := ¬c.separates r ∧ c.isPrint r

/-- A word is a stretch without separators in which something is printed. -/
def words (rs : List ℕ) : ℕ := ((rs.splitOnP c.separates).filter fun w => w.any c.isLetter).length

def endsLine (r : ℕ) : Bool := r = 10 ∨ r = 12 ∨ r = 13

/-- The column behind a rune. -/
def advance (pos r : ℕ) : ℕ :=
  if r = 9 then pos+(c.TabWidth-pos%c.TabWidth)
  else if r = 32 ∨ (r ≠ 11 ∧ c.isPrint r) then pos+1
  else pos

def width (pos : ℕ) (line : List ℕ) : ℕ := line.foldl c.advance pos

def maxLength (rs : List ℕ) : ℕ := ((rs.splitOnP endsLine).map (c.width 0)).foldr max 0

end Counter

variable {c : Counter}

/-! ## Lines and runes -/

theorem not_within {lo hi : ℕ} (h : 0x80 ≤ lo) : within lo hi 10 = false := by
  have hten : (10 : UInt8).toNat = 10 := rfl
  simp only [within,hten,decide_eq_false_iff_not]
  omega

theorem first_low {b : UInt8} {x : ℕ × ℕ × ℕ} (h : first b = some x) : 0x80 ≤ x.2.1 := by
  simp only [first] at h
  split_ifs at h <;> cases h <;> decide

/-- No sequence of several bytes holds a line feed. -/
theorem not_sequence {lo hi : ℕ} (hlo : 0x80 ≤ lo) {rest : Bytes} (h : 10 ∈ rest) :
    ¬(rest.head?.any (within lo hi) = true ∧ rest.tail.all (within 0x80 0xBF) = true) := by
  rintro ⟨hhead,htail⟩
  cases rest with
  | nil => cases h
  | cons a rest =>
    rcases List.mem_cons.mp h with rfl | h
    · simp [not_within hlo] at hhead
    · have hten := List.all_eq_true.mp htail 10 h
      rw [not_within le_rfl] at hten
      cases hten

/-- What follows a line feed does not change how the line is decoded, and the rest of the line
ends in it too. -/
theorem decodeRune_line (b : UInt8) (t m : Bytes) :
    decodeRune b (t++[10]++m) = decodeRune b (t++[10]) ∧
      ∃ t',(t++[10]).drop ((decodeRune b (t++[10])).2-1) = t'++[10] := by
  rw [decodeRune,decodeRune]
  split
  · exact ⟨rfl,t,rfl⟩
  cases hx : first b with
  | none => exact ⟨rfl,t,rfl⟩
  | some x =>
    simp only [Option.elim]
    by_cases hk : x.1-1 ≤ t.length
    · have htake : ∀ m',(t++m').take (x.1-1) = t.take (x.1-1) := fun m' =>
        List.take_append_of_le_length hk
      rw [List.append_assoc,htake,htake]
      refine ⟨rfl,?_⟩
      split
      · exact ⟨t.drop (x.1-1),List.drop_append_of_le_length hk⟩
      · exact ⟨t,rfl⟩
    · have hmem : ∀ m',10 ∈ (t++[10]++m').take (x.1-1) := by
        intro m'
        obtain ⟨j,hj⟩ : ∃ j,x.1-1-t.length = j+1 := ⟨x.1-1-t.length-1,by omega⟩
        rw [List.append_assoc,List.take_append,hj]
        simp
      have hbad : ∀ m',¬(((t++[10]++m').take (x.1-1)).length = x.1-1 ∧
          ((t++[10]++m').take (x.1-1)).head?.any (within x.2.1 x.2.2) = true ∧
          ((t++[10]++m').take (x.1-1)).tail.all (within 0x80 0xBF) = true) := fun m' h =>
        not_sequence (first_low hx) (hmem m') h.2
      have hnil := hbad []
      rw [List.append_nil] at hnil
      rw [if_neg (hbad m),if_neg hnil]
      exact ⟨rfl,t,rfl⟩

theorem runes_cons (b : UInt8) (bs : Bytes) :
    runes (b::bs) = (decodeRune b bs).1::runes (bs.drop ((decodeRune b bs).2-1)) := by
  rw [runes]

/-- The runes of a line and of what follows it. -/
theorem runes_line (t m : Bytes) : runes (t++[10]++m) = runes (t++[10])++runes m := by
  induction hn : t.length using Nat.strong_induction_on generalizing t with
  | _ n ih =>
    cases t with
    | nil =>
      have hten : ∀ bs,decodeRune 10 bs = (10,1) := fun bs => rfl
      simp [runes_cons,hten,runes]
    | cons b t =>
      obtain ⟨hsame,t',ht'⟩ := decodeRune_line b t m
      have hdrop : (t++[10]++m).drop ((decodeRune b (t++[10])).2-1) = t'++[10]++m := by
        rw [List.drop_append_of_le_length,ht']
        by_contra hlt
        rw [List.drop_eq_nil_of_le (by omega)] at ht'
        simp at ht'
      have hlen : t'.length < n := by
        have := congrArg List.length ht'
        simp at this hn
        omega
      rw [List.cons_append,List.cons_append,runes_cons,runes_cons,hsame,hdrop,ht',
        ih _ hlen t' rfl]
      rfl

/-- One rune of the loop over a line. -/
def tick (c : Counter) (s : State) (r : ℕ) : State :=
  let s := count c s r
  { s with res := { s.res with Chars := s.res.Chars+1 } }

theorem countLine_eq (s : State) (l : Bytes) : countLine c s l = (runes l).foldl (tick c) s := by
  induction hn : l.length using Nat.strong_induction_on generalizing s l with
  | _ n ih =>
    cases l with
    | nil => rw [countLine,runes,List.foldl_nil]
    | cons b bs =>
      have hlen : (bs.drop ((decodeRune b bs).2-1)).length < n := by
        rw [List.length_drop,← hn,List.length_cons]
        omega
      rw [countLine,runes_cons,List.foldl_cons,ih _ hlen _ _ rfl,tick]

/-- Every line but the last ends in a line feed. -/
inductive Ended : List Bytes → Prop
  | nil : Ended []
  | last (l : Bytes) : Ended [l]
  | cons (t : Bytes) {ls : List Bytes} : Ended ls → Ended ((t++[10])::ls)

theorem readLines_flatten (input : Bytes) : (readLines input).flatten = input := by
  induction input with
  | nil => rfl
  | cons b bs ih =>
    rw [readLines]
    split
    · rename_i hb
      simp [ih,hb]
    · split
      · rename_i h
        rw [h] at ih
        simp [← ih]
      · rename_i l ls h
        rw [h] at ih
        simp [← ih]

theorem ended_readLines (input : Bytes) : Ended (readLines input) := by
  induction input with
  | nil => exact .nil
  | cons b bs ih =>
    rw [readLines]
    split
    · exact .cons [] ih
    · split
      · exact .last [b]
      · rename_i l ls h
        rw [h] at ih
        cases ih with
        | last => exact .last (b::l)
        | cons t hls => exact .cons (b::t) hls

theorem Ended.count {ls : List Bytes} (h : Ended ls) (s : State) :
    ls.foldl (countLine c) s = (runes ls.flatten).foldl (tick c) s := by
  induction h generalizing s with
  | nil => rw [List.flatten_nil,runes,List.foldl_nil,List.foldl_nil]
  | last l => simp [countLine_eq]
  | cons t _ ih =>
    rw [List.foldl_cons,ih,countLine_eq,List.flatten_cons,runes_line,List.foldl_append]

/-! ## What is counted -/

/-- The fields after the runes of a text, with what the state before has begun. -/
structure Counts (c : Counter) (s t : State) (rs : List ℕ) : Prop where
  lines : t.res.Lines = s.res.Lines+rs.count 10
  chars : t.res.Chars = s.res.Chars+rs.length
  bytes : t.res.Bytes = s.res.Bytes
  words : ∀ w ws,rs.splitOnP c.separates = w::ws → t.endWord.res.Words =
    s.res.Words+(if s.inWord ∨ w.any c.isLetter then 1 else 0)+
      (ws.filter fun w => w.any c.isLetter).length
  widest : ∀ l ls,rs.splitOnP Counter.endsLine = l::ls → t.endLine.res.MaxLength =
    max s.res.MaxLength (max (c.width s.pos l) ((ls.map (c.width 0)).foldr max 0))

theorem counts_nil (s : State) : Counts c s s [] where
  lines := rfl
  chars := rfl
  bytes := rfl
  words w ws h := by
    simp only [List.splitOnP_nil,List.cons.injEq] at h
    obtain ⟨rfl,rfl⟩ := h
    simp only [State.endWord,List.any_nil,Bool.false_eq_true,or_false,List.filter_nil,
      List.length_nil]
    split <;> rfl
  widest l ls h := by
    simp only [List.splitOnP_nil,List.cons.injEq] at h
    obtain ⟨rfl,rfl⟩ := h
    simp only [State.endLine,Counter.width,List.foldl_nil,List.map_nil,List.foldr_nil]
    split <;> omega

/-- How one rune changes the state, by its class. -/
structure Ticked (c : Counter) (s t : State) (r : ℕ) : Prop where
  lines : t.res.Lines = s.res.Lines+if r = 10 then 1 else 0
  chars : t.res.Chars = s.res.Chars+1
  bytes : t.res.Bytes = s.res.Bytes
  words : t.res.Words = s.res.Words+if c.separates r ∧ s.inWord then 1 else 0
  inWord : t.inWord = if c.separates r then false else (s.inWord || c.isLetter r)
  widest : t.res.MaxLength =
    if Counter.endsLine r then max s.res.MaxLength s.pos else s.res.MaxLength
  pos : t.pos = if Counter.endsLine r then 0 else c.advance s.pos r

theorem max_eq_ite (a b : ℕ) : (if a > b then a else b) = max b a := by
  split <;> omega

/-- The runes `countComplicated` names. -/
theorem ticked_space (s : State) {r : ℕ} (hr : r ∈ [9,10,11,12,13,32]) :
    Ticked c s (tick c s r) r := by
  simp only [List.mem_cons,List.not_mem_nil,or_false] at hr
  cases hw : s.inWord <;> rcases hr with rfl | rfl | rfl | rfl | rfl | rfl
  all_goals
    constructor <;>
      simp [tick,count,State.endWord,State.endLine,Counter.separates,Counter.endsLine,
        Counter.advance,max_eq_ite,hw]

theorem ticked_other (s : State) {r : ℕ} (hr : r ∉ [9,10,11,12,13,32]) :
    Ticked c s (tick c s r) r := by
  simp only [List.mem_cons,List.not_mem_nil,or_false,not_or] at hr
  obtain ⟨h9,h10,h11,h12,h13,h32⟩ := hr
  cases hw : s.inWord <;> cases hp : c.isPrint r <;> cases hs : c.isSpace r
  all_goals
    constructor <;>
      simp [tick,count,State.endWord,Counter.separates,Counter.isLetter,Counter.endsLine,
        Counter.advance,h9,h10,h11,h12,h13,h32,hw,hp,hs]

theorem ticked (s : State) (r : ℕ) : Ticked c s (tick c s r) r := by
  by_cases hr : r ∈ [9,10,11,12,13,32]
  · exact ticked_space s hr
  · exact ticked_other s hr

/-- A rune in front of a text. -/
theorem Counts.cons {s s' t : State} {r : ℕ} {rs : List ℕ} (h : Ticked c s s' r)
    (hc : Counts c s' t rs) : Counts c s t (r::rs) where
  lines := by
    rw [hc.lines,h.lines,List.count_cons]
    simp
    omega
  chars := by
    rw [hc.chars,h.chars,List.length_cons]
    omega
  bytes := hc.bytes.trans h.bytes
  words w ws hsplit := by
    obtain ⟨w',ws',hrs⟩ := List.exists_cons_of_ne_nil (List.splitOnP_ne_nil c.separates rs)
    have hw := hc.words w' ws' hrs
    rw [List.splitOnP_cons_eq_if_modifyHead,hrs] at hsplit
    rw [hw,h.words,h.inWord]
    by_cases hsep : c.separates r
    · rw [if_pos hsep,List.cons.injEq] at hsplit
      obtain ⟨rfl,rfl⟩ := hsplit
      -- the word before the separator is counted, and the next one begins
      cases s.inWord <;> cases hany : w'.any c.isLetter <;> simp [hsep,hany] <;> omega
    · rw [if_neg hsep,List.modifyHead_cons,List.cons.injEq] at hsplit
      obtain ⟨rfl,rfl⟩ := hsplit
      simp [hsep,or_assoc]
  widest l ls hsplit := by
    obtain ⟨l',ls',hrs⟩ := List.exists_cons_of_ne_nil (List.splitOnP_ne_nil Counter.endsLine rs)
    have hw := hc.widest l' ls' hrs
    rw [List.splitOnP_cons_eq_if_modifyHead,hrs] at hsplit
    rw [hw,h.widest,h.pos]
    by_cases hend : Counter.endsLine r
    · rw [if_pos hend,List.cons.injEq] at hsplit
      obtain ⟨rfl,rfl⟩ := hsplit
      rw [if_pos hend,if_pos hend,List.map_cons,List.foldr_cons,max_assoc]
      rfl
    · rw [if_neg hend,List.modifyHead_cons,List.cons.injEq] at hsplit
      obtain ⟨rfl,rfl⟩ := hsplit
      rw [if_neg hend,if_neg hend]
      rfl

theorem counts (s : State) (rs : List ℕ) : Counts c s (rs.foldl (tick c) s) rs := by
  induction rs generalizing s with
  | nil => exact counts_nil s
  | cons r rs ih => exact .cons (ticked s r) (ih _)

/-- The one pass over the lines counts the line feeds, the words and the runes of the whole
text and finds its widest line; the bytes it does not count. -/
theorem countComplicated_eq (c : Counter) (input : Bytes) : countComplicated c input =
    ⟨(runes input).count 10,c.words (runes input),(runes input).length,0,
      c.maxLength (runes input)⟩ := by
  have hfold := (ended_readLines input).count (c := c) ⟨⟨0,0,0,0,0⟩,0,false⟩
  rw [readLines_flatten] at hfold
  have hc := counts (c := c) ⟨⟨0,0,0,0,0⟩,0,false⟩ (runes input)
  rw [countComplicated,hfold]
  generalize (runes input).foldl (tick c) ⟨⟨0,0,0,0,0⟩,0,false⟩ = t at hc
  obtain ⟨w,ws,hw⟩ := List.exists_cons_of_ne_nil (List.splitOnP_ne_nil c.separates (runes input))
  obtain ⟨l,ls,hl⟩ := List.exists_cons_of_ne_nil
    (List.splitOnP_ne_nil Counter.endsLine (runes input))
  have hwords : t.endLine.endWord.res.Words = c.words (runes input) := by
    rw [Counter.words,hw,List.filter_cons]
    have hsame : t.endLine.endWord.res.Words = t.endWord.res.Words := rfl
    rw [hsame,hc.words w ws hw]
    cases w.any c.isLetter <;> simp
    omega
  have hwidest : t.endLine.endWord.res.MaxLength = c.maxLength (runes input) := by
    rw [Counter.maxLength,hl]
    have hsame : t.endLine.endWord.res.MaxLength = t.endLine.res.MaxLength := rfl
    rw [hsame,hc.widest l ls hl]
    simp
  rw [← hwords,← hwidest]
  have hlines : t.res.Lines = (runes input).count 10 := hc.lines.trans (Nat.zero_add _)
  have hchars : t.res.Chars = (runes input).length := hc.chars.trans (Nat.zero_add _)
  have hbytes : t.res.Bytes = 0 := hc.bytes
  rw [← hlines,← hchars,← hbytes]
  rfl

end Wc
end RecycleBin
