import RecycleBin.NgCapacity

/-! A reference tokenizer for the configuration language, and when `readToken` agrees with it. The
reference is a machine on bytes with one mode at a time; words are kept as they stand in the text
and unescaped when a statement is returned. -/
namespace RecycleBin.NgToken

inductive Quote
  | bare | single | double
  deriving DecidableEq,Repr

/-- Between words, in a comment, in a word with the bytes of it seen so far, in it behind a `$`
or behind a backslash, and behind a closing quote. -/
inductive Mode
  | gap | comment
  | word (q : Quote) (w : List UInt8)
  | dollar (q : Quote) (w : List UInt8)
  | escape (q : Quote) (w : List UInt8)
  | closed
  deriving DecidableEq,Repr

/-- What a byte leads to: another mode, another mode behind a word, the end of a statement by its
last word, or the end of a statement. -/
inductive Turn
  | go (m : Mode)
  | word (w : List UInt8) (m : Mode)
  | last (w : List UInt8) (rc : Rc)
  | ret (rc : Rc)
  deriving DecidableEq,Repr

/-- A byte in a word, `m` being the word with it. -/
def Quote.next (q : Quote) (w : List UInt8) (b : UInt8) : Turn :=
  if b = 92 then .go (.escape q (w++[b]))
  else if b = 36 then .go (.dollar q (w++[b]))
  else match q with
    | .double => if b = 34 then .word w .closed else .go (.word q (w++[b]))
    | .single => if b = 39 then .word w .closed else .go (.word q (w++[b]))
    | .bare =>
      if blank b then .word w .gap
      else if b = 59 then .last w .ok
      else if b = 123 then .last w .blockStart
      else .go (.word q (w++[b]))

/-- One byte of the text; `empty` tells that the statement has no word yet. -/
def Mode.next (b : UInt8) (empty : Bool) : Mode → Turn
  | gap =>
    if blank b then .go gap
    else if b = 59 then if empty then .ret .error else .ret .ok
    else if b = 123 then if empty then .ret .error else .ret .blockStart
    else if b = 125 then if empty then .ret .blockDone else .ret .error
    else if b = 35 then .go comment
    else if b = 92 then .go (escape .bare [b])
    else if b = 34 then .go (word .double [])
    else if b = 39 then .go (word .single [])
    else .go (word .bare [b])
  | comment => .go (if b = 10 then gap else comment)
  | word q w => q.next w b
  | dollar q w => if b = 123 then .go (dollar q (w++[b])) else q.next w b
  | escape q w => .go (word q (w++[b]))
  | closed =>
    if blank b then .go gap
    else if b = 59 then .ret .ok
    else if b = 123 then .ret .blockStart
    else if b = 41 then .go (word .bare [b])
    else .ret .error

/-- The escapes of a word. -/
def unescape : List UInt8 → List UInt8
  | b::c::w =>
    if b = 92 then
      if c = 34 ∨ c = 39 ∨ c = 92 then c::unescape w
      else if c = 116 then 9::unescape w
      else if c = 114 then 13::unescape w
      else if c = 110 then 10::unescape w
      else b::c::unescape w
    else b::unescape (c::w)
  | w => w

/-- The results on a text, up to an error: an argument list with the end of a statement and the
start of a block, and none with the others. -/
def statements : Mode → List (List UInt8) → ℕ → List UInt8 → List Event
  | _, _, pos, [] => [⟨.fileDone,[],pos⟩]
  | m, ws, pos, b::s =>
    match m.next b (ws = []) with
    | .go m => statements m ws (pos+1) s
    | .word w m => statements m (ws++[w]) (pos+1) s
    | .last w rc => ⟨rc,(ws++[w]).map unescape,pos+1⟩::statements .gap [] (pos+1) s
    | .ret .error => [⟨.error,[],pos+1⟩]
    | .ret rc => ⟨rc,ws.map unescape,pos+1⟩::statements .gap [] (pos+1) s

/-- A result as it is compared: the arguments count with the end of a statement and the start of
a block, the position with all results but the end of the file. -/
def Event.seen (e : Event) : Event where
  rc := e.rc
  args := if e.rc = .ok ∨ e.rc = .blockStart then e.args else []
  pos := if e.rc = .fileDone then 0 else e.pos

/-- Repeated calls return the statements of the reference. -/
def Conforms (cap : ℕ) (f : List UInt8) : Prop :=
  ∃ es, stream cap f = .ok es ∧ es.map Event.seen = (statements .gap [] 0 f).map Event.seen

/-- No quote is escaped in the word. -/
def Plain : List UInt8 → Prop
  | b::c::w => if b = 92 then c ≠ 34 ∧ c ≠ 39 ∧ Plain w else Plain (c::w)
  | _ => True

/-- Up to its first error the text has no `;` where a word could start, and no escaped quote in a
statement. -/
def Clean : Mode → List (List UInt8) → List UInt8 → Prop
  | _, _, [] => True
  | m, ws, b::s =>
    ¬(m = .gap ∧ b = 59) ∧ match m.next b (ws = []) with
    | .go m => Clean m ws s
    | .word w m => Clean m (ws++[w]) s
    | .last w _ => (∀ x ∈ ws++[w], Plain x) ∧ Clean .gap [] s
    | .ret .error => True
    | .ret _ => (∀ x ∈ ws, Plain x) ∧ Clean .gap [] s

/-- Each backslash has the byte it escapes behind it. -/
inductive Paired : List UInt8 → Prop
  | nil : Paired []
  | pair (c : UInt8) {w : List UInt8} : Paired w → Paired (92::c::w)
  | byte {b : UInt8} {w : List UInt8} : b ≠ 92 → Paired w → Paired (b::w)

theorem Paired.append {u w : List UInt8} (hu : Paired u) (hw : Paired w) : Paired (u++w) := by
  induction hu with
  | nil => exact hw
  | pair c _ ih => exact .pair c ih
  | byte hb _ ih => exact .byte hb ih

theorem decode_byte (n : ℕ) {b : UInt8} (s : List UInt8) (hb : b ≠ 92) :
    decode (n+1) (b::s) = b::decode n s := by
  cases s <;> simp [decode,hb]

/-- What the copy makes of a backslash and the byte behind it. -/
def pairCopy (c : UInt8) : List UInt8 :=
  if c = 92 then [92] else if c = 116 then [9] else if c = 114 then [13] else if c = 110 then [10]
  else [92,c]

theorem decode_pair (n : ℕ) (c : UInt8) (s : List UInt8) :
    decode (n+2) (92::c::s) = pairCopy c++decode n s := by
  have hplain : c ≠ 92 → decode (n+1) (c::s) = c::decode n s := decode_byte n s
  unfold pairCopy
  simp only [decode,Nat.add_sub_cancel,if_true]
  split_ifs with h
  · rfl
  · rfl
  · rfl
  · rfl
  · rw [hplain h]
    rfl

/-- The copy of a word as it is delivered. -/
def copied (w : List UInt8) : List UInt8 := decode w.length w

@[simp] theorem copied_byte {b : UInt8} (w : List UInt8) (hb : b ≠ 92) :
    copied (b::w) = b::copied w := decode_byte w.length w hb

@[simp] theorem copied_pair (c : UInt8) (w : List UInt8) :
    copied (92::c::w) = pairCopy c++copied w := decode_pair w.length c w

/-- The byte behind a word is not looked at. -/
theorem Paired.decode {w : List UInt8} (h : Paired w) (t : List UInt8) :
    decode w.length (w++t) = copied w := by
  induction h with
  | nil => simp [NgToken.decode,copied]
  | pair c _ ih =>
    simp only [List.length_cons,List.cons_append,copied_pair]
    rw [decode_pair,ih]
  | byte hb _ ih =>
    simp only [List.length_cons,List.cons_append,copied_byte _ hb]
    rw [decode_byte _ _ hb,ih]

theorem unescape_byte {b : UInt8} (w : List UInt8) (hb : b ≠ 92) :
    unescape (b::w) = b::unescape w := by
  cases w <;> simp [unescape,hb]

theorem plain_byte {b : UInt8} (w : List UInt8) (hb : b ≠ 92) : Plain (b::w) ↔ Plain w := by
  cases w <;> simp [Plain,hb]

/-- The copy is the word of the text unless a quote is escaped: its backslash stays. -/
theorem Paired.copied_iff {w : List UInt8} (h : Paired w) : copied w = unescape w ↔ Plain w := by
  induction h with
  | nil => simp [copied,NgToken.decode,unescape,Plain]
  | byte hb _ ih => rw [copied_byte _ hb,unescape_byte _ hb,plain_byte _ hb,List.cons.injEq,ih]; simp
  | pair c _ ih =>
    simp only [copied_pair,unescape,Plain,if_true,pairCopy]
    by_cases hquote : c = 34 ∨ c = 39
    · cases hquote with
      | inl hc => simp [hc]
      | inr hc => simp [hc]
    · have hne : c ≠ 34 ∧ c ≠ 39 := by simpa using hquote
      simp only [hne.1,hne.2,ne_eq,not_false_eq_true,true_and,false_or,← ih]
      split_ifs <;> simp [*]

/-- The flags of a mode. -/
def Quote.flags : Quote → Flags
  | bare => { lastSpace := false }
  | single => { lastSpace := false, sQuoted := true }
  | double => { lastSpace := false, dQuoted := true }

def Mode.flags : Mode → Flags
  | gap => { }
  | comment => { sharpComment := true }
  | word q _ => q.flags
  | dollar q _ => { q.flags with isVariable := true }
  | escape q _ => { q.flags with quoted := true }
  | closed => { lastSpace := false, needSpace := true }

/-- The bytes since `start` are those of the word. -/
def Mode.Holds (raw : List UInt8) : Mode → Prop
  | gap | comment | closed => True
  | word _ w | dollar _ w => raw = w ∧ Paired w
  | escape _ w => raw = w ∧ ∃ w', w = w'++[92] ∧ Paired w'

/-- The state of the loop in a mode, the words of the statement so far being `ws`. -/
structure Sim (m : Mode) (ws : List (List UInt8)) (v : Scan) : Prop where
  flags : v.flags = m.flags
  args : v.args = ws.map copied
  paired : ∀ w ∈ ws, Paired w
  holds : m.Holds v.raw

/-- A round does what the turn says. -/
def Follows (ws : List (List UInt8)) (r : (Rc × List (List UInt8)) ⊕ Scan) : Turn → Prop
  | .go m => ∃ v, r = .inr v ∧ Sim m ws v
  | .word w m => Paired w ∧ ∃ v, r = .inr v ∧ Sim m (ws++[w]) v
  | .last w rc => Paired w ∧ r = .inl (rc,(ws++[w]).map copied)
  | .ret rc => r = .inl (rc,ws.map copied)

/-- A byte in a word, unless it is a brace behind a `$`. -/
theorem Quote.inWord (q : Quote) (b : UInt8) (x : Bool) (h : ¬(b = 123 ∧ x)) :
    ({ q.flags with isVariable := x } : Flags).inWord b =
      if b = 92 then .go { q.flags with quoted := true } .keep
      else if b = 36 then .go { q.flags with isVariable := true } .keep
      else match q with
        | .double => if b = 34 then .word Mode.closed.flags none else .go q.flags .keep
        | .single => if b = 39 then .word Mode.closed.flags none else .go q.flags .keep
        | .bare =>
          if blank b then .word { } none
          else if b = 59 then .word { } (some .ok)
          else if b = 123 then .word { } (some .blockStart)
          else .go q.flags .keep := by
  unfold Flags.inWord
  rw [if_neg h]
  cases q with
  | single => simp [Quote.flags,Mode.flags]
  | double => simp [Quote.flags,Mode.flags]
  | bare =>
    have hblank : ∀ c : UInt8, blank c = true → c ≠ 59 ∧ c ≠ 123 := by
      intro c hc
      simp only [blank,decide_eq_true_eq] at hc
      rcases hc with hc | hc | hc | hc <;> simp [hc]
    simp only [Quote.flags,Bool.false_eq_true,if_false]
    by_cases hb : blank b
    · simp [hb,hblank b hb]
    · by_cases h59 : b = 59
      · simp [h59,blank]
      · by_cases h123 : b = 123
        · simp [h123,blank]
        · simp [hb,h59,h123]

/-- The flags of a round in each mode. -/
theorem Mode.step_flags (m : Mode) (b : UInt8) (empty : Bool) :
    m.flags.step b empty = match m with
      | gap => Flags.space { } b empty
      | comment => if b = 10 then .go { } .keep else .go { sharpComment := true } .keep
      | word q _ => q.flags.inWord b
      | dollar q _ => ({ q.flags with isVariable := true } : Flags).inWord b
      | escape q _ => .go q.flags .keep
      | closed =>
        if blank b then .go { } .keep
        else if b = 59 then .ret .ok
        else if b = 123 then .ret .blockStart
        else if b = 41 then .go Quote.bare.flags .here
        else .ret .error := by
  cases m with
  | gap => simp [Mode.flags,Flags.step]
  | comment =>
    by_cases h : b = 10
    · simp [Mode.flags,Flags.step,Flags.space,blank,h]
    · simp [Mode.flags,Flags.step,h]
  | word q w => cases q <;> simp [Mode.flags,Flags.step,Quote.flags]
  | dollar q w => cases q <;> simp [Mode.flags,Flags.step,Quote.flags]
  | escape q w => cases q <;> simp [Mode.flags,Flags.step,Quote.flags]
  | closed =>
    by_cases h : b = 41
    · simp [Mode.flags,Flags.step,Flags.space,blank,Quote.flags,h]
    · simp [Mode.flags,Flags.step,h]

variable {m : Mode} {ws : List (List UInt8)} {v : Scan} {b : UInt8}

theorem Sim.empty (h : Sim m ws v) : decide (v.args = []) = decide (ws = []) := by
  rw [h.args]
  simp

theorem Sim.go (h : Sim m ws v) {fl : Flags} {move : Move} {m' : Mode}
    (hs : v.flags.step b (ws = []) = .go fl move) (hfl : fl = m'.flags)
    (hm : m'.Holds (move.raw v.raw b)) : Follows ws (v.step b) (.go m') := by
  have hstep : v.step b = .inr ⟨fl,move.raw v.raw b,v.args⟩ := by
    simp only [Scan.step,h.empty,hs]
  exact ⟨_,hstep,hfl,h.args,h.paired,hm⟩

theorem Sim.ret (h : Sim m ws v) {rc : Rc} (hs : v.flags.step b (ws = []) = .ret rc) :
    Follows ws (v.step b) (.ret rc) := by
  have hstep : v.step b = .inl (rc,v.args) := by
    simp only [Scan.step,h.empty,hs]
  rw [hstep,h.args]
  rfl

/-- The word that ends at this byte is copied as it stands in the state. -/
theorem Sim.word (h : Sim m ws v) {fl : Flags} (hw : Paired v.raw) :
    ∀ {rc : Option Rc}, v.flags.step b (ws = []) = .word fl rc →
    v.step b = match rc with
      | some rc => .inl (rc,(ws++[v.raw]).map copied)
      | none => .inr ⟨fl,v.raw++[b],(ws++[v.raw]).map copied⟩ := by
  intro rc hs
  have hargs : v.args++[decode v.raw.length (v.raw++[b])] = (ws++[v.raw]).map copied := by
    rw [hw.decode,h.args]
    simp
  cases rc with
  | none => simp only [Scan.step,h.empty,hs,hargs]
  | some rc => simp only [Scan.step,h.empty,hs,hargs]

theorem Sim.inWord (h : Sim m ws v) {q : Quote} {w : List UInt8} (x : Bool)
    (hx : ¬(b = 123 ∧ x)) (hraw : v.raw = w) (hw : Paired w)
    (hs : v.flags.step b (ws = []) = ({ q.flags with isVariable := x } : Flags).inWord b) :
    Follows ws (v.step b) (q.next w b) := by
  subst hraw
  rw [q.inWord b x hx] at hs
  have hsnoc : b ≠ 92 → Paired (v.raw++[b]) := fun hb => hw.append (.byte hb .nil)
  have hpaired : ∀ x ∈ ws++[v.raw], Paired x := by
    intro x hx
    cases List.mem_append.mp hx with
    | inl hx => exact h.paired x hx
    | inr hx => exact List.mem_singleton.mp hx ▸ hw
  unfold Quote.next
  by_cases h92 : b = 92
  · rw [if_pos h92] at hs ⊢
    exact h.go hs rfl ⟨rfl,v.raw,by rw [h92],hw⟩
  rw [if_neg h92] at hs ⊢
  by_cases h36 : b = 36
  · rw [if_pos h36] at hs ⊢
    exact h.go hs rfl ⟨rfl,hsnoc h92⟩
  rw [if_neg h36] at hs ⊢
  cases q with
  | single =>
    simp only at hs ⊢
    by_cases hq : b = 39
    · rw [if_pos hq] at hs ⊢
      exact ⟨hw,_,h.word hw hs,rfl,rfl,hpaired,trivial⟩
    · rw [if_neg hq] at hs ⊢
      exact h.go hs rfl ⟨rfl,hsnoc h92⟩
  | double =>
    simp only at hs ⊢
    by_cases hq : b = 34
    · rw [if_pos hq] at hs ⊢
      exact ⟨hw,_,h.word hw hs,rfl,rfl,hpaired,trivial⟩
    · rw [if_neg hq] at hs ⊢
      exact h.go hs rfl ⟨rfl,hsnoc h92⟩
  | bare =>
    simp only at hs ⊢
    by_cases hb : blank b
    · rw [if_pos hb] at hs ⊢
      exact ⟨hw,_,h.word hw hs,rfl,rfl,hpaired,trivial⟩
    rw [if_neg hb] at hs ⊢
    by_cases h59 : b = 59
    · rw [if_pos h59] at hs ⊢
      exact ⟨hw,h.word hw hs⟩
    rw [if_neg h59] at hs ⊢
    by_cases h123 : b = 123
    · rw [if_pos h123] at hs ⊢
      exact ⟨hw,h.word hw hs⟩
    · rw [if_neg h123] at hs ⊢
      exact h.go hs rfl ⟨rfl,hsnoc h92⟩

/-- A byte between words, other than `;`. -/
theorem Sim.gap (h : Sim .gap ws v) (hb : b ≠ 59) :
    Follows ws (v.step b) (Mode.next b (ws = []) .gap) := by
  have hs := Mode.step_flags .gap b (ws = [])
  rw [← h.flags] at hs
  simp only [Flags.space,hb,if_false] at hs
  simp only [Mode.next,hb,if_false]
  by_cases hblank : blank b
  · rw [if_pos hblank] at hs ⊢
    exact h.go hs rfl trivial
  rw [if_neg hblank] at hs ⊢
  by_cases h123 : b = 123
  · rw [if_pos h123] at hs ⊢
    by_cases hws : ws = []
    · simp only [hws,decide_true,if_true] at hs ⊢
      exact hws ▸ h.ret (by simpa [hws] using hs)
    · simp only [hws,decide_false,Bool.false_eq_true,if_false] at hs ⊢
      exact h.ret (by simpa [hws] using hs)
  rw [if_neg h123] at hs ⊢
  by_cases h125 : b = 125
  · rw [if_pos h125] at hs ⊢
    by_cases hws : ws = []
    · simp only [hws,decide_true,if_true] at hs ⊢
      exact hws ▸ h.ret (by simpa [hws] using hs)
    · simp only [hws,decide_false,Bool.false_eq_true,if_false] at hs ⊢
      exact h.ret (by simpa [hws] using hs)
  rw [if_neg h125] at hs ⊢
  by_cases h35 : b = 35
  · rw [if_pos h35] at hs ⊢
    exact h.go hs rfl trivial
  rw [if_neg h35] at hs ⊢
  by_cases h92 : b = 92
  · rw [if_pos h92] at hs ⊢
    exact h.go hs rfl ⟨rfl,[],by rw [h92]; rfl,.nil⟩
  rw [if_neg h92] at hs ⊢
  by_cases h34 : b = 34
  · rw [if_pos h34] at hs ⊢
    exact h.go hs rfl ⟨rfl,.nil⟩
  rw [if_neg h34] at hs ⊢
  by_cases h39 : b = 39
  · rw [if_pos h39] at hs ⊢
    exact h.go hs rfl ⟨rfl,.nil⟩
  · rw [if_neg h39] at hs ⊢
    exact h.go hs rfl ⟨rfl,.byte h92 .nil⟩

/-- A round follows the reference but at a `;` between words. -/
theorem Sim.step (h : Sim m ws v) (hb : ¬(m = .gap ∧ b = 59)) :
    Follows ws (v.step b) (m.next b (ws = [])) := by
  have hs := Mode.step_flags m b (ws = [])
  rw [← h.flags] at hs
  cases m with
  | gap => exact h.gap (by simpa using hb)
  | comment =>
    simp only at hs
    by_cases h10 : b = 10
    · rw [if_pos h10] at hs
      simp only [Mode.next,h10,if_true]
      exact h10 ▸ h.go hs rfl trivial
    · rw [if_neg h10] at hs
      simp only [Mode.next,h10,if_false]
      exact h.go hs rfl trivial
  | word q w => exact h.inWord false (by simp) h.holds.1 h.holds.2 (by rw [hs]; cases q <;> rfl)
  | dollar q w =>
    simp only [Mode.next]
    by_cases h123 : b = 123
    · rw [if_pos h123]
      have hgo : v.flags.step b (ws = []) = .go { q.flags with isVariable := true } .keep := by
        rw [hs]
        simp [Flags.inWord,h123]
      have hraw : Move.keep.raw v.raw b = w++[b] := by rw [Move.raw,h.holds.1]
      exact h.go hgo rfl ⟨hraw,h.holds.2.append (.byte (by rw [h123]; decide) .nil)⟩
    · rw [if_neg h123]
      exact h.inWord true (by simp [h123]) h.holds.1 h.holds.2 hs
  | escape q w =>
    obtain ⟨w',hw,hpair⟩ := h.holds.2
    have hraw : Move.keep.raw v.raw b = w++[b] := by rw [Move.raw,h.holds.1]
    refine h.go hs rfl ⟨hraw,?_⟩
    rw [hw,List.append_assoc]
    exact hpair.append (.pair b .nil)
  | closed =>
    simp only at hs
    simp only [Mode.next]
    by_cases hblank : blank b
    · rw [if_pos hblank] at hs ⊢
      exact h.go hs rfl trivial
    rw [if_neg hblank] at hs ⊢
    by_cases h59 : b = 59
    · rw [if_pos h59] at hs ⊢
      exact h.ret hs
    rw [if_neg h59] at hs ⊢
    by_cases h123 : b = 123
    · rw [if_pos h123] at hs ⊢
      exact h.ret hs
    rw [if_neg h123] at hs ⊢
    by_cases h41 : b = 41
    · rw [if_pos h41] at hs ⊢
      exact h.go hs rfl ⟨rfl,.byte (by rw [h41]; decide) .nil⟩
    · rw [if_neg h41] at hs ⊢
      exact h.ret hs

theorem Sim.start : Sim .gap [] { } := ⟨rfl,rfl,by simp,trivial⟩

/-- The results a turn can name. -/
def Turn.Names (empty : Bool) : Turn → Prop
  | .go _ | .word _ _ => True
  | .last _ rc => rc = .ok ∨ rc = .blockStart
  | .ret rc => rc ≠ .fileDone ∧ (rc = .blockDone → empty)

theorem Quote.next_names (q : Quote) (w : List UInt8) (b : UInt8) (e : Bool) :
    (q.next w b).Names e := by
  unfold Quote.next
  cases q with
  | single => dsimp only; split_ifs <;> trivial
  | double => dsimp only; split_ifs <;> trivial
  | bare =>
    dsimp only
    split_ifs
    · trivial
    · trivial
    · trivial
    · exact .inl rfl
    · exact .inr rfl
    · trivial

theorem Mode.next_names (m : Mode) (b : UInt8) (e : Bool) : (m.next b e).Names e := by
  cases m with
  | comment => trivial
  | escape q w => trivial
  | word q w => exact q.next_names w b e
  | dollar q w =>
    simp only [Mode.next]
    split_ifs
    · trivial
    · exact q.next_names w b e
  | gap =>
    simp only [Mode.next]
    split_ifs <;> simp [Turn.Names, *]
  | closed =>
    simp only [Mode.next]
    split_ifs <;> simp [Turn.Names]

/-- A statement ends with one of two results. -/
theorem Mode.next_last {e : Bool} {w : List UInt8} {rc : Rc} (h : m.next b e = .last w rc) :
    rc = .ok ∨ rc = .blockStart := by
  have hnames := m.next_names b e
  rw [h] at hnames
  exact hnames

theorem Mode.next_ret {rc : Rc} (h : m.next b (ws = []) = .ret rc) :
    rc ≠ .fileDone ∧ (rc = .blockDone → ws = []) := by
  have hnames := m.next_names b (ws = [])
  rw [h] at hnames
  exact ⟨hnames.1,fun hrc => of_decide_eq_true (hnames.2 hrc)⟩

/-- The results of a state on some bytes, with the end of the file. -/
def Scan.tokens (v : Scan) (pos : ℕ) (t : List UInt8) : List Event :=
  match v.results pos t with
  | (es,none) => es
  | (es,some v') => es++[⟨.fileDone,v'.args,pos+t.length⟩]

theorem tokens_start (f : List UInt8) : tokens f = Scan.tokens { } 0 f := by
  cases hr : Scan.results { } 0 f with
  | mk es o => cases o <;> simp [tokens,Scan.tokens,hr]

theorem Scan.tokens_cons (v : Scan) (pos : ℕ) (b : UInt8) (t : List UInt8) :
    v.tokens pos (b::t) = match v.step b with
      | .inl (rc,args) =>
        ⟨rc,args,pos+1⟩::if rc = .error then [] else Scan.tokens { } (pos+1) t
      | .inr v' => v'.tokens (pos+1) t := by
  have hlen : pos+(b::t).length = pos+1+t.length := by
    rw [List.length_cons]
    omega
  unfold Scan.tokens
  rw [hlen]
  simp only [Scan.results]
  cases hs : v.step b with
  | inr v' => rfl
  | inl r =>
    by_cases herr : r.1 = .error
    · simp [herr]
    · cases hr : Scan.results { } (pos+1) t with
      | mk es o => cases o <;> simp [herr]

theorem Scan.tokens_head (v : Scan) (pos : ℕ) (t : List UInt8) :
    ∃ e es, v.tokens pos t = e::es ∧ (e.rc = .fileDone ∨ pos < e.pos) := by
  induction t generalizing v pos with
  | nil => exact ⟨_,_,rfl,.inl rfl⟩
  | cons b t ih =>
    rw [Scan.tokens_cons]
    cases hs : v.step b with
    | inl r => exact ⟨_,_,rfl,.inr (by simp)⟩
    | inr v' =>
      have ⟨e,es,htokens,he⟩ := ih v' (pos+1)
      exact ⟨e,es,htokens,he.imp_right (by omega)⟩

/-- A result at the position reached is not the next one. -/
theorem Scan.tokens_ne (v : Scan) {pos : ℕ} (t : List UInt8) {e : Event} (es : List Event)
    (hrc : e.rc ≠ .fileDone) (hpos : e.pos = pos) :
    (v.tokens pos t).map Event.seen ≠ (e::es).map Event.seen := by
  have ⟨e',es',htokens,he⟩ := v.tokens_head pos t
  rw [htokens]
  intro heq
  have hseen : e'.seen = e.seen := (List.cons.inj heq).1
  simp only [Event.seen,Event.mk.injEq] at hseen
  rw [hseen.1] at he hseen
  simp only [hrc,if_false,hpos] at hseen
  exact he.elim hrc (by omega)

/-- Between words a `;` is passed over, and the reference has a result at it. -/
theorem Sim.passed (h : Sim .gap ws v) (pos : ℕ) (t : List UInt8) :
    (v.tokens pos (59::t)).map Event.seen ≠ (statements .gap ws pos (59::t)).map Event.seen := by
  have hs := Mode.step_flags .gap 59 (ws = [])
  rw [← h.flags] at hs
  have hstep : v.step 59 = .inr ⟨{ },[59],v.args⟩ := by
    simp only [Scan.step,h.empty,hs,Flags.space]
    rfl
  rw [Scan.tokens_cons,hstep]
  by_cases hws : ws = []
  · have hnext : Mode.next 59 (ws = []) .gap = .ret .error := by simp [Mode.next,blank,hws]
    simp only [statements,hnext]
    exact Scan.tokens_ne _ t _ (by simp) rfl
  · have hnext : Mode.next 59 (ws = []) .gap = .ret .ok := by simp [Mode.next,blank,hws]
    simp only [statements,hnext]
    exact Scan.tokens_ne _ t _ (by simp) rfl

/-- A statement is the one of the reference unless a quote is escaped in it. -/
theorem seen_iff {rc : Rc} (hrc : rc = .ok ∨ rc = .blockStart) (hws : ∀ x ∈ ws, Paired x) (p : ℕ) :
    (⟨rc,ws.map copied,p⟩ : Event).seen = (⟨rc,ws.map unescape,p⟩ : Event).seen ↔
      ∀ x ∈ ws, Plain x := by
  simp only [Event.seen,hrc,if_true,Event.mk.injEq,true_and,and_true,List.map_inj_left]
  constructor
  · intro h x hx
    exact (hws x hx).copied_iff.mp (h x hx)
  · intro h x hx
    exact (hws x hx).copied_iff.mpr (h x hx)

/-- The results on a text are those of the reference if and only if the text is clean. -/
theorem Sim.tokens_iff (h : Sim m ws v) (pos : ℕ) (t : List UInt8) :
    (v.tokens pos t).map Event.seen = (statements m ws pos t).map Event.seen ↔ Clean m ws t := by
  induction t generalizing m ws v pos with
  | nil => simp [Scan.tokens,Scan.results,statements,Clean,Event.seen]
  | cons b t ih =>
    by_cases hbad : m = .gap ∧ b = 59
    · simp only [Clean,hbad,and_self,not_true_eq_false,false_and,iff_false]
      obtain ⟨rfl,rfl⟩ := hbad
      exact h.passed pos t
    · have hstep := h.step hbad
      rw [Scan.tokens_cons]
      simp only [statements,Clean,hbad,not_false_eq_true,true_and]
      cases hn : m.next b (ws = []) with
      | go m' =>
        obtain ⟨v',hv,hsim⟩ := hn ▸ hstep
        simp only [hv]
        exact ih hsim (pos+1)
      | word w m' =>
        obtain ⟨_,v',hv,hsim⟩ := hn ▸ hstep
        simp only [hv]
        exact ih hsim (pos+1)
      | last w rc =>
        obtain ⟨hw,hv⟩ := hn ▸ hstep
        have hrc := Mode.next_last hn
        have hpaired : ∀ x ∈ ws++[w], Paired x := by
          intro x hx
          cases List.mem_append.mp hx with
          | inl hx => exact h.paired x hx
          | inr hx => exact List.mem_singleton.mp hx ▸ hw
        have herr : rc ≠ .error := by
          intro he
          simp [he] at hrc
        simp only [hv,herr,if_false,List.map_cons,List.cons.injEq]
        rw [seen_iff hrc hpaired,ih .start]
      | ret rc =>
        have hv : v.step b = .inl (rc,ws.map copied) := by
          rw [hn] at hstep
          exact hstep
        obtain ⟨hdone,hblock⟩ := Mode.next_ret hn
        simp only [hv]
        cases rc with
        | error => simp [Event.seen]
        | fileDone => exact (hdone rfl).elim
        | ok =>
          simp only [reduceCtorEq,if_false,List.map_cons,List.cons.injEq]
          rw [seen_iff (.inl rfl) h.paired,ih .start]
        | blockStart =>
          simp only [reduceCtorEq,if_false,List.map_cons,List.cons.injEq]
          rw [seen_iff (.inr rfl) h.paired,ih .start]
        | blockDone =>
          simp only [hblock rfl,reduceCtorEq,if_false,List.map_cons,List.map_nil,List.cons.injEq,
            true_and]
          rw [ih .start]
          simp

theorem Flags.space_newline (v : Flags) (empty : Bool) : v.space 10 empty = .go v .keep := by
  simp [Flags.space,blank]

theorem Flags.inWord_newline (v : Flags) : (v.inWord 10).rc = none := by
  have hrc : (if (10 : UInt8) = 59 then some Rc.ok
      else if (10 : UInt8) = 123 then some .blockStart else none) = none := by decide
  unfold Flags.inWord
  dsimp only
  rw [hrc]
  split_ifs <;> rfl

/-- No call returns at the end of a line. -/
theorem Flags.step_newline (v : Flags) (empty : Bool) : (v.step 10 empty).rc = none := by
  have hblank : blank 10 = true := by decide
  simp only [Flags.step,hblank,if_true,space_newline,Bool.false_eq_true,if_false]
  split_ifs
  · rfl
  · rfl
  · rfl
  · exact Flags.inWord_newline _

theorem Scan.step_newline (v : Scan) (r : Rc × List (List UInt8)) : v.step 10 ≠ .inl r := by
  intro h
  have hrc : (v.flags.step 10 (v.args = [])).rc = some r.1 := Scan.step_rc h
  rw [Flags.step_newline] at hrc
  cases hrc

/-- A line end that is seen again behind the file leads to the end of the buffer. -/
theorem tokenLoop_newline (k : ℕ) (fl : Flags) (start : ℕ) {s : Reader} (hsize : Drained s)
    (hoff : s.offset ≤ s.buffer.pos) (hpos : 0 < s.buffer.pos)
    (hk : s.buffer.buf.length-s.buffer.pos < k) :
    ∃ s', tokenLoop k 10 fl start s = .ok (.fileDone,s') := by
  induction k generalizing fl start s with
  | zero => omega
  | succ k ih =>
    by_cases hfull : s.buffer.pos ≥ s.buffer.buf.length
    · exact ⟨s,tokenLoop_done hfull hsize⟩
    · have hnext : next s 10 = .ok (10,{ s with
          buffer := { s.buffer with pos := s.buffer.pos+1 }, line := s.line+1 }) := by
        simp [next,show ¬s.buffer.pos < s.offset by omega,ok_bind]
      have hrc := Flags.step_newline fl (s.args = [])
      rw [tokenLoop_round s k 10 fl start (by omega) (by omega),tokenRound,hnext,ok_bind]
      dsimp only
      cases hstep : fl.step 10 (s.args = []) with
      | ret rc => simp [hstep,Act.rc] at hrc
      | go fl' move =>
        apply ih
        · exact hsize
        · exact Nat.le_succ_of_le hoff
        · exact Nat.succ_pos _
        · simp only
          omega
      | word fl' rc =>
        have hnone : rc = none := by simpa [hstep,Act.rc] using hrc
        subst hnone
        apply ih
        · exact hsize
        · exact Nat.le_succ_of_le hoff
        · exact Nat.succ_pos _
        · simp only
          omega

/-- For a text that fits the buffer and ends a line only the bytes count. -/
theorem stream_newline (cap : ℕ) {f : List UInt8} (hlen : f.length ≤ cap)
    (hlast : f.getLast? = some 10) :
    ∃ es, stream cap f = .ok es ∧ es.map Event.seen = (tokens f).map Event.seen := by
  have hf : f ≠ [] := by
    intro h
    simp [h] at hlast
  have hpos : 0 < f.length := List.length_pos_iff.mpr hf
  have htake : f.take cap = f := List.take_of_length_le hlen
  cases hres : Scan.results { } 0 f with
  | mk es o =>
    cases o with
    | none =>
      have hres' : Scan.results { } 0 (f.take cap) = (es,none) := by rw [htake,hres]
      exact ⟨es,stream_of_none (by omega) hf hres',by rw [tokens_of_none hres']⟩
    | some v =>
      by_cases heq : f.length = cap
      · exact ⟨_,heq ▸ stream_fit hf hres,by simp [tokens,hres,Event.seen]⟩
      · have hres' : Scan.results { } 0 (f.take cap) = (es,some v) := by rw [htake,hres]
        obtain ⟨k,last,line,n,_,hk,hseen,hs⟩ := stream_rest (by omega) hf hres'
        have hten : last = 10 := by
          rw [htake] at hseen
          cases hseen with
          | inl h =>
            rw [hlast,Option.some.injEq] at h
            exact h.symm
          | inr h =>
            obtain ⟨b,w,r,hb,hstep⟩ := h
            rw [hlast,Option.some.injEq] at hb
            exact absurd (hb ▸ hstep) (Scan.step_newline w r)
        have hmin : min f.length cap = f.length := by omega
        have hbuf := (loaded_spec cap f).2
        rw [hmin] at hk hs
        obtain ⟨s',hdone⟩ := tokenLoop_newline k v.flags (f.length-v.raw.length)
          (s := (loaded cap f).to f.length v.args line)
          (by simp [Drained,Reader.to,loaded,hmin]) (by simp [Reader.to,loaded])
          (by simpa [Reader.to] using hpos) (by simp only [Reader.to,hbuf]; omega)
        have hstream : stream cap f = .ok (es++[⟨.fileDone,s'.args,s'.buffer.pos⟩]) := by
          rw [hs,hten,hdone,ok_bind]
          simp [record]
        exact ⟨_,hstream,by simp [tokens,hres,Event.seen]⟩

/-- Repeated calls on a text that fits the buffer and ends a line return the statements of the
reference if and only if, up to its first error, the text has no `;` where a word could start and
no escaped quote in a statement. -/
theorem conforms_iff (f : List UInt8) (hlen : f.length ≤ 4096) (hlast : f.getLast? = some 10) :
    Conforms 4096 f ↔ Clean .gap [] f := by
  have ⟨es,hs,hes⟩ := stream_newline 4096 hlen hlast
  rw [← Sim.start.tokens_iff 0 f,← tokens_start,← hes]
  constructor
  · intro ⟨es',hs',hes'⟩
    have he : es = es' := by simpa [hs] using hs'
    exact he ▸ hes'
  · intro h
    exact ⟨es,hs,h⟩

/-- `listen 80; # port` on a line. -/
theorem conforms_listen :
    Conforms 4096 [108,105,115,116,101,110,32,56,48,59,32,35,32,112,111,114,116,10] :=
  (conforms_iff _ (by decide) rfl).mpr (by simp [Clean,Mode.next,Quote.next,blank,Plain])

/-- In `a ;` the end of the statement is passed over. -/
theorem not_conforms_blank :
    ¬∀ f : List UInt8, f.length ≤ 4096 → f.getLast? = some 10 → Conforms 4096 f := by
  intro h
  have ⟨es,hs,hes⟩ := h [97,32,59,10] (by decide) rfl
  have ⟨es',hs',hes'⟩ := stream_newline 4096 (f := [97,32,59,10]) (by decide) rfl
  have he : es = es' := by simpa [hs] using hs'
  rw [he,hes'] at hes
  exact absurd hes (by decide)

end RecycleBin.NgToken
