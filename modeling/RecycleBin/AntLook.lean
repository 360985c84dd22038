import RecycleBin.AntHash

/-! Whether a page is text in UTF-8, `ant_look.c`: what `down_page` asks before it recodes one. -/
namespace RecycleBin
namespace AntLook
open AntHash

/-! ## The code -/

/-- What `text_chars` says of a character. -/
inductive Kind
  | F | T | I | X
  deriving DecidableEq

open Kind in
def textChars : List Kind :=
  [F,F,F,F,F,F,F,T,T,T,T,F,T,T,F,F,
   F,F,F,F,F,F,F,F,F,F,F,T,F,F,F,F,
   T,T,T,T,T,T,T,T,T,T,T,T,T,T,T,T,
   T,T,T,T,T,T,T,T,T,T,T,T,T,T,T,T,
   T,T,T,T,T,T,T,T,T,T,T,T,T,T,T,T,
   T,T,T,T,T,T,T,T,T,T,T,T,T,T,T,T,
   T,T,T,T,T,T,T,T,T,T,T,T,T,T,T,T,
   T,T,T,T,T,T,T,T,T,T,T,T,T,T,T,F,
   X,X,X,X,X,T,X,X,X,X,X,X,X,X,X,X,
   X,X,X,X,X,X,X,X,X,X,X,X,X,X,X,X,
   I,I,I,I,I,I,I,I,I,I,I,I,I,I,I,I,
   I,I,I,I,I,I,I,I,I,I,I,I,I,I,I,I,
   I,I,I,I,I,I,I,I,I,I,I,I,I,I,I,I,
   I,I,I,I,I,I,I,I,I,I,I,I,I,I,I,I,
   I,I,I,I,I,I,I,I,I,I,I,I,I,I,I,I,
   I,I,I,I,I,I,I,I,I,I,I,I,I,I,I,I]

/-- `text_chars[buf[i]] != T` -/
def weird (b : UInt8) : Bool := textChars[b.toNat]? ≠ some .T

/-- How many bytes follow a first byte 11xxxxxx. -/
def following (b : UInt8) : Option ℕ :=
  if b &&& 0x20 = 0 then some 1
  else if b &&& 0x10 = 0 then some 2
  else if b &&& 0x08 = 0 then some 3
  else if b &&& 0x04 = 0 then some 4
  else if b &&& 0x02 = 0 then some 5
  else none

/-- How the inner loop ends: at the end of the buffer, on a byte that does not follow, or with
the bytes behind the character. -/
inductive Tail
  | done
  | invalid
  | rest (bs : Bytes)

/-- The inner loop. -/
def tail : ℕ → Bytes → Tail
  | 0,bs => .rest bs
  | _+1,[] => .done
  | n+1,b::bs => if b &&& 0x80 = 0 ∨ b &&& 0x40 ≠ 0 then .invalid else tail n bs

/-- The value at the label `done`. -/
def verdict (gotone ctrl : Bool) : ℤ := if ctrl then 0 else if gotone then 2 else 1

theorem tail_length {n : ℕ} : ∀ {bs bs' : Bytes},tail n bs = .rest bs' → bs'.length ≤ bs.length := by
  induction n with
  | zero =>
    intro bs bs' h
    cases h
    exact le_rfl
  | succ n ih =>
    intro bs bs' h
    cases bs with
    | nil => cases h
    | cons b bs =>
      rw [tail] at h
      split_ifs at h
      exact (ih h).trans (Nat.le_succ _)

/-- `file_looks_utf8` from a byte on. -/
def looksFrom (gotone ctrl : Bool) : Bytes → ℤ
  | [] => verdict gotone ctrl
  | b::bs =>
    if b &&& 0x80 = 0 then looksFrom gotone (ctrl || weird b) bs
    else if b &&& 0x40 = 0 then -1
    else (following b).elim (-1) fun n =>
      match h : tail n bs with
      | .done => verdict gotone ctrl
      | .invalid => -1
      | .rest bs' => looksFrom true ctrl bs'
  termination_by bs => bs.length
  decreasing_by
    · simp
    · have hle := tail_length h
      simp only [List.length_cons]
      omega

def fileLooksUtf8 (buf : Bytes) : ℤ := looksFrom false false buf

/-! ## Characters of up to six bytes -/

/-- A first byte with `n` bytes to follow. -/
def Leads (b : UInt8) (n : ℕ) : Prop := b &&& 0x80 ≠ 0 ∧ b &&& 0x40 ≠ 0 ∧ following b = some n

def Trails (b : UInt8) : Prop := b &&& 0x80 ≠ 0 ∧ b &&& 0x40 = 0

instance (b : UInt8) (n : ℕ) : Decidable (Leads b n) := inferInstanceAs (Decidable (_ ∧ _))

instance (b : UInt8) : Decidable (Trails b) := inferInstanceAs (Decidable (_ ∧ _))

/-- The bytes of a character. -/
inductive Sequence : Bytes → Prop
  | ascii {b : UInt8} (h : b &&& 0x80 = 0) : Sequence [b]
  | long {b : UInt8} {n : ℕ} {ts : Bytes} (h : Leads b n) (hn : ts.length = n)
      (hts : ∀ t ∈ ts,Trails t) : Sequence (b::ts)

/-- The bytes of a character that the end of the buffer cuts off. -/
inductive Cut : Bytes → Prop
  | nil : Cut []
  | long {b : UInt8} {n : ℕ} {ts : Bytes} (h : Leads b n) (hn : ts.length < n)
      (hts : ∀ t ∈ ts,Trails t) : Cut (b::ts)

/-- A buffer is a row of characters, the last of which may be cut off. -/
structure Row (buf : Bytes) (seqs : List Bytes) (rest : Bytes) : Prop where
  eq : buf = seqs.flatten++rest
  whole : ∀ s ∈ seqs,Sequence s
  cut : Cut rest

/-- A control character alone. -/
def odd (s : Bytes) : Bool := s.length = 1 ∧ s.any weird

theorem following_pos {b : UInt8} {n : ℕ} (h : following b = some n) : 0 < n := by
  simp only [following] at h
  split_ifs at h <;> cases h <;> decide

theorem tail_trails {ts : Bytes} (hts : ∀ t ∈ ts,Trails t) (n : ℕ) (bs : Bytes) :
    tail (ts.length+n) (ts++bs) = tail n bs := by
  induction ts with
  | nil => simp
  | cons t ts ih =>
    have ht := hts t List.mem_cons_self
    have hcont : ¬(t &&& 0x80 = 0 ∨ t &&& 0x40 ≠ 0) := by
      rintro (h | h)
      · exact ht.1 h
      · exact h ht.2
    rw [List.length_cons,Nat.add_right_comm,List.cons_append,tail,if_neg hcont,
      ih fun t ht => hts t (List.mem_cons_of_mem _ ht)]

theorem tail_inv (n : ℕ) : ∀ bs : Bytes,(∃ ts bs',bs = ts++bs' ∧ ts.length = n ∧
      (∀ t ∈ ts,Trails t) ∧ tail n bs = .rest bs') ∨
    (bs.length < n ∧ (∀ t ∈ bs,Trails t) ∧ tail n bs = .done) ∨ tail n bs = .invalid := by
  induction n with
  | zero => exact fun bs => .inl ⟨[],bs,rfl,rfl,by simp,rfl⟩
  | succ n ih =>
    intro bs
    cases bs with
    | nil => exact .inr (.inl ⟨by simp,by simp,rfl⟩)
    | cons b bs =>
      rw [tail]
      by_cases hb : b &&& 0x80 = 0 ∨ b &&& 0x40 ≠ 0
      · rw [if_pos hb]
        exact .inr (.inr rfl)
      · rw [if_neg hb]
        obtain ⟨hhigh,hlow⟩ := not_or.mp hb
        have hall : ∀ ts : Bytes,(∀ t ∈ ts,Trails t) → ∀ t ∈ b::ts,Trails t := by
          intro ts hts t ht
          rcases List.mem_cons.mp ht with rfl | ht
          · exact ⟨hhigh,not_not.mp hlow⟩
          · exact hts t ht
        rcases ih bs with h | h | h
        · obtain ⟨ts,bs',rfl,hn,hts,htail⟩ := h
          exact .inl ⟨b::ts,bs',rfl,congrArg (·+1) hn,hall ts hts,htail⟩
        · exact .inr (.inl ⟨Nat.succ_lt_succ h.1,hall bs h.2.1,h.2.2⟩)
        · exact .inr (.inr h)

theorem looksFrom_lead {b : UInt8} {n : ℕ} (h : Leads b n) (gotone ctrl : Bool) (bs : Bytes) :
    looksFrom gotone ctrl (b::bs) = match tail n bs with
      | .done => verdict gotone ctrl
      | .invalid => -1
      | .rest bs' => looksFrom true ctrl bs' := by
  rw [looksFrom,if_neg h.1,if_neg h.2.1,h.2.2,Option.elim]
  split <;> simp_all

theorem looksFrom_sequence {s : Bytes} (hs : Sequence s) (gotone ctrl : Bool) (bs : Bytes) :
    looksFrom gotone ctrl (s++bs) =
      looksFrom (gotone || decide (1 < s.length)) (ctrl || odd s) bs := by
  cases hs with
  | @ascii b h =>
    rw [List.singleton_append,looksFrom,if_pos h]
    simp [odd]
  | @long b n ts h hn hts =>
    have hpos := following_pos h.2.2
    have htail : tail n (ts++bs) = .rest bs := by
      rw [← hn]
      exact tail_trails hts 0 bs
    have hlen : 1 < (b::ts).length := by rw [List.length_cons]; omega
    have hodd : odd (b::ts) = false := decide_eq_false fun ho => hlen.ne' ho.1
    rw [List.cons_append,looksFrom_lead h,htail,hodd,decide_eq_true hlen,Bool.or_true,Bool.or_false]

theorem looksFrom_cut {rest : Bytes} (h : Cut rest) (gotone ctrl : Bool) :
    looksFrom gotone ctrl rest = verdict gotone ctrl := by
  cases h with
  | nil => rw [looksFrom]
  | @long b n ts h hn hts =>
    obtain ⟨m,rfl⟩ : ∃ m,n = ts.length+(m+1) := ⟨n-ts.length-1,by omega⟩
    have htail := tail_trails hts (m+1) []
    rw [List.append_nil,tail] at htail
    rw [looksFrom_lead h,htail]

theorem looksFrom_row {seqs : List Bytes} {rest : Bytes} (hs : ∀ s ∈ seqs,Sequence s)
    (hr : Cut rest) : ∀ gotone ctrl : Bool,looksFrom gotone ctrl (seqs.flatten++rest) =
      verdict (gotone || seqs.any (1 < ·.length)) (ctrl || seqs.any odd) := by
  induction seqs with
  | nil =>
    intro gotone ctrl
    simpa using looksFrom_cut hr gotone ctrl
  | cons s seqs ih =>
    intro gotone ctrl
    rw [List.flatten_cons,List.append_assoc,looksFrom_sequence (hs s List.mem_cons_self),
      ih fun s hs' => hs s (List.mem_cons_of_mem _ hs')]
    simp [Bool.or_assoc]

/-- What is not refused is a row of characters. -/
theorem row_of_looksFrom (gotone ctrl : Bool) (buf : Bytes) (h : looksFrom gotone ctrl buf ≠ -1) :
    ∃ seqs rest,Row buf seqs rest := by
  induction hn : buf.length using Nat.strong_induction_on generalizing gotone ctrl buf with
  | _ n ih =>
    cases buf with
    | nil => exact ⟨[],[],rfl,by simp,.nil⟩
    | cons b bs =>
      have hnext : ∀ {ts bs' : Bytes} {g c : Bool},bs = ts++bs' → Sequence (b::ts) →
          looksFrom g c bs' ≠ -1 → ∃ seqs rest,Row (b::bs) seqs rest := by
        intro ts bs' g c hsplit hseq hrest
        have hlt : bs'.length < n := by
          rw [← hn,hsplit,List.length_cons,List.length_append]
          omega
        obtain ⟨seqs,rest,hrow⟩ := ih bs'.length hlt g c bs' hrest rfl
        refine ⟨(b::ts)::seqs,rest,?_,List.forall_mem_cons.mpr ⟨hseq,hrow.whole⟩,hrow.cut⟩
        rw [hsplit,hrow.eq]
        simp
      by_cases hascii : b &&& 0x80 = 0
      · rw [looksFrom,if_pos hascii] at h
        exact hnext (List.nil_append bs).symm (.ascii hascii) h
      by_cases hlow : b &&& 0x40 = 0
      · rw [looksFrom,if_neg hascii,if_pos hlow] at h
        exact absurd rfl h
      cases hf : following b with
      | none =>
        rw [looksFrom,if_neg hascii,if_neg hlow,hf] at h
        exact absurd rfl h
      | some m =>
        have hlead : Leads b m := ⟨hascii,hlow,hf⟩
        rw [looksFrom_lead hlead] at h
        rcases tail_inv m bs with ⟨ts,bs',hsplit,hlen,hts,htail⟩ | ⟨hlt,hts,-⟩ | htail
        · rw [htail] at h
          exact hnext hsplit (.long hlead hlen hts) h
        · exact ⟨[],b::bs,rfl,by simp,.long hlead hlt hts⟩
        · rw [htail] at h
          exact absurd rfl h

/-- A page is refused when it is no row of characters; of a row, the characters that are there as
a whole decide, and a character that the end of the page cuts off counts for nothing. -/
theorem fileLooksUtf8_row (buf : Bytes) :
    (fileLooksUtf8 buf = -1 ↔ ¬∃ seqs rest,Row buf seqs rest) ∧
      ∀ seqs rest,Row buf seqs rest → fileLooksUtf8 buf =
        if ∃ s ∈ seqs,odd s then 0 else if ∃ s ∈ seqs,1 < s.length then 2 else 1 := by
  have hrow : ∀ seqs rest,Row buf seqs rest → fileLooksUtf8 buf =
      if ∃ s ∈ seqs,odd s then 0 else if ∃ s ∈ seqs,1 < s.length then 2 else 1 := by
    intro seqs rest h
    rw [fileLooksUtf8,h.eq,looksFrom_row h.whole h.cut,verdict]
    simp
  refine ⟨⟨?_,?_⟩,hrow⟩
  · rintro h ⟨seqs,rest,hr⟩
    rw [hrow seqs rest hr] at h
    split_ifs at h
  · intro hno
    by_contra h
    exact hno (row_of_looksFrom false false buf h)

/-! ## Unicode -/

/-- The control characters that are no text. -/
def control (c : Char) : Bool := c.toNat < 128 ∧ weird (UInt8.ofNat c.toNat)

theorem ascii_ofNat {m : ℕ} (h : m < 128) : UInt8.ofNat m &&& 0x80 = 0 :=
  (by decide +kernel : ∀ m : Fin 128,UInt8.ofNat m &&& 0x80 = 0) ⟨m,h⟩

theorem trails_ofNat (m : ℕ) : Trails (UInt8.ofNat (m%0x40+0x80)) :=
  (by decide +kernel : ∀ m : Fin 0x40,Trails (UInt8.ofNat (m+0x80))) ⟨m%0x40,Nat.mod_lt _ (by decide)⟩

theorem leads_two (m : ℕ) : Leads (UInt8.ofNat (m%0x20+0xc0)) 1 :=
  (by decide +kernel : ∀ m : Fin 0x20,Leads (UInt8.ofNat (m+0xc0)) 1) ⟨m%0x20,Nat.mod_lt _ (by decide)⟩

theorem leads_three (m : ℕ) : Leads (UInt8.ofNat (m%0x10+0xe0)) 2 :=
  (by decide +kernel : ∀ m : Fin 0x10,Leads (UInt8.ofNat (m+0xe0)) 2) ⟨m%0x10,Nat.mod_lt _ (by decide)⟩

theorem leads_four (m : ℕ) : Leads (UInt8.ofNat (m%0x08+0xf0)) 3 :=
  (by decide +kernel : ∀ m : Fin 0x08,Leads (UInt8.ofNat (m+0xf0)) 3) ⟨m%0x08,Nat.mod_lt _ (by decide)⟩

/-- The encoding of a character is a sequence, of one byte for a character of ASCII only. -/
theorem encoded (c : Char) : Sequence (String.utf8EncodeChar c) ∧
    (1 < (String.utf8EncodeChar c).length ↔ 128 ≤ c.toNat) ∧
    odd (String.utf8EncodeChar c) = control c := by
  change Sequence _ ∧ (_ ↔ 128 ≤ c.val.toNat) ∧
    _ = decide (c.val.toNat < 128 ∧ weird (UInt8.ofNat c.val.toNat))
  rw [String.utf8EncodeChar]
  generalize c.val.toNat = v
  by_cases h₁ : v ≤ 0x7f
  · have hv : v < 128 := by omega
    simp only [if_pos h₁]
    exact ⟨.ascii (ascii_ofNat hv),by simp [hv],by simp [odd,hv]⟩
  have hv : ¬v < 128 := by omega
  simp only [if_neg h₁]
  by_cases h₂ : v ≤ 0x7ff
  · simp only [if_pos h₂]
    refine ⟨.long (leads_two _) rfl ?_,by simp; omega,by simp [odd,hv]⟩
    simp only [List.forall_mem_cons]
    exact ⟨trails_ofNat _,by simp⟩
  by_cases h₃ : v ≤ 0xffff
  · simp only [if_neg h₂,if_pos h₃]
    refine ⟨.long (leads_three _) rfl ?_,by simp; omega,by simp [odd,hv]⟩
    simp only [List.forall_mem_cons]
    exact ⟨trails_ofNat _,trails_ofNat _,by simp⟩
  · simp only [if_neg h₂,if_neg h₃]
    refine ⟨.long (leads_four _) rfl ?_,by simp; omega,by simp [odd,hv]⟩
    simp only [List.forall_mem_cons]
    exact ⟨trails_ofNat _,trails_ofNat _,trails_ofNat _,by simp⟩

theorem Sequence.take {s : Bytes} (h : Sequence s) {k : ℕ} (hk : k < s.length) : Cut (s.take k) := by
  cases k with
  | zero => exact .nil
  | succ k =>
    cases h with
    | ascii h => simp at hk
    | @long b n ts h hn hts =>
      refine .long h ?_ fun t ht => hts t (List.mem_of_mem_take ht)
      rw [List.length_cons] at hk
      rw [List.length_take]
      omega

/-- Wherever a text in UTF-8 is cut off, it looks like one: the answer is about the characters that
are there as a whole. -/
theorem fileLooksUtf8_text (cs : List Char) (c : Char) (k : ℕ)
    (hk : k < (String.utf8EncodeChar c).length) :
    fileLooksUtf8 (cs.flatMap String.utf8EncodeChar++(String.utf8EncodeChar c).take k) =
      if cs.any control then 0 else if cs.any (128 ≤ ·.toNat) then 2 else 1 := by
  have hseqs : ∀ s ∈ cs.map String.utf8EncodeChar,Sequence s := by
    intro s hs
    obtain ⟨c,-,rfl⟩ := List.mem_map.mp hs
    exact (encoded c).1
  rw [fileLooksUtf8,List.flatMap,looksFrom_row hseqs ((encoded c).1.take hk),verdict]
  have hodd : (cs.map String.utf8EncodeChar).any odd = cs.any control := by
    rw [List.any_map]
    exact congrArg cs.any (funext fun c => (encoded c).2.2)
  have hlong : (cs.map String.utf8EncodeChar).any (1 < ·.length) = cs.any (128 ≤ ·.toNat) := by
    rw [List.any_map]
    exact congrArg cs.any (funext fun c => decide_eq_decide.mpr (encoded c).2.1)
  simp only [Bool.false_or,hodd,hlong]

theorem fileLooksUtf8_text_euro :
    fileLooksUtf8 (['a','é'].flatMap String.utf8EncodeChar++(String.utf8EncodeChar '€').take 2) = 2 := by
  rw [fileLooksUtf8_text ['a','é'] '€' 2 (by decide)]
  decide

end AntLook
end RecycleBin
