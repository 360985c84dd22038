import RecycleBin.Tac

/-! Which files `ReadFromTail` reverses. A file of its own offsets tells where every byte that is
written comes from. -/
namespace RecycleBin
namespace Tac
open Occurrence

/-- The byte of a file at an offset. -/
def byteAt (data : List UInt8) (i : ℕ) : UInt8 := data.getD i 0

/-- The program returns, and writes the bytes of the records, the last record first, each byte
once. -/
def Reverses (data sep : List UInt8) : Prop :=
  readFromTail (byteAt data) (List.range data.length) sep =
    .ok (tac (byteAt data) (List.range data.length) sep)

/-- From the end of a separator to the end of the block that it ends in. -/
def gap (n k p : ℕ) : ℕ := (n-(p+k))%bufSize

/-- A separator that is found and cuts right; `next` is the one behind it. It ends the file; or it
lies in one block, and ends it, or is the last one of the file and in its last block, or is a
single byte in front of one that ends the block, with a byte between. -/
def Found (n k : ℕ) (next : Option ℕ) (p : ℕ) : Prop :=
  p+k = n ∨ gap n k p+k ≤ bufSize ∧
    (gap n k p = 0 ∨ next = none ∧ n < p+k+bufSize ∨
      k = 1 ∧ 2 ≤ gap n k p ∧ next = some (p+gap n k p))

instance (n k : ℕ) (next : Option ℕ) (p : ℕ) : Decidable (Found n k next p) :=
  inferInstanceAs (Decidable (_ ∨ _))

/-- Each of the separators is found; they are given from the right. -/
def AllFound (n k : ℕ) : Option ℕ → List ℕ → Prop
  | _, [] => True
  | next, p::ps => Found n k next p ∧ AllFound n k (some p) ps

instance decidableAllFound (n k : ℕ) : (next : Option ℕ) → (ps : List ℕ) →
    Decidable (AllFound n k next ps)
  | _, [] => isTrue trivial
  | next, p::ps =>
    have := decidableAllFound n k (some p) ps
    inferInstanceAs (Decidable (Found n k next p ∧ AllFound n k (some p) ps))

/-! ### The records of the offsets -/

section Records
variable {s sep : List UInt8} {n k h tail : ℕ}

/-- The offsets in front of `tail`, the separators in front of `h` ending their records. -/
def offsets (s sep : List UInt8) (tail h : ℕ) : List ℕ :=
  (records (List.range s.length) sep.length tail (separators s sep h)).flatten

theorem take_drop_range {c : ℕ} (h : tail ≤ n) : ((List.range n).take tail).drop c = seg c tail := by
  rw [List.take_range,Nat.min_eq_left h,List.range_eq_range',List.drop_range',seg,Nat.mul_one,
    Nat.zero_add]

theorem separators_cases (hsep : sep ≠ []) (hh : h ≤ s.length) :
    (separators s sep h = [] ∧ NoneIn s sep 0 h) ∨
      ∃ p,separators s sep h = p::separators s sep p ∧ LastIn s sep 0 h p := by
  have hk := List.length_pos_of_ne_nil hsep
  rw [separators]
  rcases lastIndex_cases id (a := 0) hsep hh with ⟨hlast,hno⟩ | ⟨p,hlast,hp⟩
  · rw [List.map_id,List.drop_zero] at hlast
    rw [List.map_id] at hno
    exact Or.inl ⟨by rw [hlast],hno⟩
  · rw [List.map_id,List.drop_zero] at hlast
    rw [List.map_id,Nat.zero_add] at hp
    have hlt := hp.1.2.2
    refine Or.inr ⟨p,?_,hp⟩
    rw [hlast]
    dsimp only
    rw [if_pos (by omega)]

theorem offsets_nil (hnil : separators s sep h = []) (htail : tail ≤ s.length) :
    offsets s sep tail h = seg 0 tail := by
  rw [offsets,hnil,records,List.flatten_singleton,← take_drop_range htail,List.drop_zero]

theorem offsets_cons {p : ℕ} (hcons : separators s sep h = p::separators s sep p)
    (htail : tail ≤ s.length) :
    offsets s sep tail h = seg (p+sep.length) tail++offsets s sep (p+sep.length) p := by
  rw [offsets,hcons,records,List.flatten_cons,take_drop_range htail]
  rfl

/-- Every offset is in one record, once. -/
theorem offsets_perm (hsep : sep ≠ []) (hh : h ≤ tail) (htail : tail ≤ s.length) :
    (offsets s sep tail h).Perm (seg 0 tail) := by
  induction h using Nat.strong_induction_on generalizing tail with
  | h h ih =>
    have hk := List.length_pos_of_ne_nil hsep
    rcases separators_cases hsep (show h ≤ s.length by omega) with ⟨hnil,-⟩ | ⟨p,hcons,hp⟩
    · rw [offsets_nil hnil htail]
    · have hle := hp.1.2.2
      rw [offsets_cons hcons htail]
      have hrest : (offsets s sep (p+sep.length) p).Perm (seg 0 (p+sep.length)) :=
        ih p (by omega) (by omega) (by omega)
      have hall : seg 0 (p+sep.length)++seg (p+sep.length) tail = seg 0 tail :=
        seg_append (Nat.zero_le _) (by omega)
      rw [← hall]
      exact (hrest.append_left _).trans List.perm_append_comm

theorem seg_nodup (a b : ℕ) : (seg a b).Nodup := List.nodup_range'

theorem offsets_nodup (hsep : sep ≠ []) (hh : h ≤ tail) (htail : tail ≤ s.length) :
    (offsets s sep tail h).Nodup := (offsets_perm hsep hh htail).nodup_iff.mpr (seg_nodup 0 tail)

theorem mem_offsets (hsep : sep ≠ []) (hh : h ≤ tail) (htail : tail ≤ s.length) {i : ℕ} :
    i ∈ offsets s sep tail h ↔ i < tail := by
  rw [(offsets_perm hsep hh htail).mem_iff,mem_seg]
  exact and_iff_right (Nat.zero_le i)

end Records

/-! ### The offsets of a run -/

section Runs
variable {s sep out : List UInt8} {a e tail tail' : ℕ} {w : List ℕ}

theorem Turn.lt_tail (h : Turn s sep a e tail w tail') (hle : e ≤ tail) : ∀ i ∈ w,i < tail := by
  intro i hi
  cases h with
  | none => exact absurd hi List.not_mem_nil
  | inner p =>
    rcases List.mem_append.mp hi with hi | hi <;> obtain ⟨-,hlt⟩ := mem_seg.mp hi <;> omega
  | edge p => exact (mem_seg.mp hi).2
  | two p q =>
    rcases List.mem_append.mp hi with hi | hi <;> obtain ⟨-,hlt⟩ := mem_seg.mp hi <;> omega

/-- Nothing behind `tail` is written any more. -/
theorem Run.lt_tail {out : List ℕ} (h : Run s sep e tail out) (hle : e ≤ tail) :
    ∀ i ∈ out,i < tail := by
  induction h with
  | done tail => exact fun i hi => (mem_seg.mp hi).2
  | block hpos hturn _ ih =>
    obtain ⟨hlow,hhigh⟩ := hturn.bounds (Nat.sub_le _ _) hle
    intro i hi
    rcases List.mem_append.mp hi with hi | hi
    · exact hturn.lt_tail hle i hi
    · exact Nat.lt_of_lt_of_le (ih hlow i hi) hhigh

theorem pair_infix_seg {b c : ℕ} (ha : a < c) (hb : c < b) : [c-1,c] <:+: seg a b := by
  have hsplit : seg a (c-1)++([c-1,c]++seg (c+1) b) = seg a b := by
    have hpair : [c-1,c]++seg (c+1) b = seg (c-1) b := by
      rw [seg_cons (show c-1 < b by omega),show c-1+1 = c by omega,seg_cons hb]
      rfl
    rw [hpair,seg_append (by omega) (by omega)]
  exact ⟨_,_,by rw [List.append_assoc,hsplit]⟩

/-- What lies behind the start of a block is written in one piece from there on. -/
theorem Turn.pair_infix (h : Turn s sep a e tail w tail') {c : ℕ} (hc : e < c) (hmem : c ∈ w) :
    [c-1,c] <:+: w := by
  cases h with
  | none => exact absurd hmem List.not_mem_nil
  | inner p =>
    rcases List.mem_append.mp hmem with hi | hi
    · have hlt := (mem_seg.mp hi).2
      omega
    · exact (pair_infix_seg hc (mem_seg.mp hi).2).trans (List.suffix_append _ _).isInfix
  | edge p => exact pair_infix_seg hc (mem_seg.mp hmem).2
  | two p q =>
    rcases List.mem_append.mp hmem with hi | hi
    · exact (pair_infix_seg hc (mem_seg.mp hi).2).trans (List.prefix_append _ _).isInfix
    · have hlt := (mem_seg.mp hi).2
      omega

theorem Run.pair_infix {out : List ℕ} (h : Run s sep e tail out) {c : ℕ} (hc : e < c)
    (hmem : c ∈ out) : [c-1,c] <:+: out := by
  induction h with
  | done tail => exact pair_infix_seg hc (mem_seg.mp hmem).2
  | block hpos hturn hrun ih =>
    rcases List.mem_append.mp hmem with hi | hi
    · exact (hturn.pair_infix hc hi).trans (List.prefix_append _ _).isInfix
    · exact (ih (by omega) hi).trans (List.suffix_append _ _).isInfix

/-- A cut that was missed: the record behind it is not written first. -/
theorem Run.ne_of_missed {out : List ℕ} {h p : ℕ} (hrun : Run s sep e tail out) (hsep : sep ≠ [])
    (hh : h ≤ tail) (htail : tail ≤ s.length)
    (hcons : separators s sep h = p::separators s sep p) (he : e < p+sep.length)
    (hcut : p+sep.length < tail) : out ≠ offsets s sep tail h := by
  intro heq
  have hmem : p+sep.length ∈ out := by
    rw [heq]
    exact (mem_offsets hsep hh htail).mpr hcut
  have hpair := hrun.pair_infix he hmem
  have hnodup := offsets_nodup hsep hh htail
  rw [heq] at hpair
  rw [offsets_cons hcons htail,seg_cons hcut,List.cons_append] at hpair hnodup
  obtain ⟨pre,post,hsplit⟩ := hpair
  cases pre with
  | nil =>
    have hhead := (List.cons.inj hsplit).1
    omega
  | cons c pre =>
    obtain ⟨rfl,hrest⟩ := List.cons.inj hsplit
    refine (List.nodup_cons.mp hnodup).1 ?_
    rw [← hrest]
    simp

end Runs

/-! ### The condition -/

/-- Where a run stands in front of the block that ends at `e`: the separators in front of `h` are
still to be cut, and one that lies behind the start of the block will be missed. -/
structure Pending (s sep : List UInt8) (e tail h : ℕ) (next : Option ℕ) : Prop where
  place : next = none ∧ h = s.length ∧ tail = s.length ∨ next = some h ∧ tail = h+sep.length
  tail_le : tail ≤ s.length
  le : e ≤ h
  aligned : e = 0 ∨ bufSize ∣ s.length-e
  missed : ∀ p,LastIn s sep 0 h p → e < p+sep.length → ¬ Found s.length sep.length next p

section Condition
variable {s sep : List UInt8} {e tail h p : ℕ} {next : Option ℕ}

/-- A separator that lies across the start of a block. -/
theorem not_found_across {n k a : ℕ} (ha : bufSize ∣ n-a) (hn : a+bufSize ≤ n) (hk : k ≤ bufSize)
    (hp : p < a) (hpa : a < p+k) : ¬ Found n k next p := by
  rw [bufSize] at ha hn hk
  rw [Found,gap,bufSize]
  rintro (hend | ⟨hfit,-⟩) <;> omega

theorem Pending.h_le (h' : Pending s sep e tail h next) : h ≤ tail := by
  rcases h'.place with ⟨-,hh,ht⟩ | ⟨-,ht⟩ <;> omega

/-- A missed separator falsifies both sides. -/
theorem Pending.missed_ne (h' : Pending s sep e tail h next) (hsep : sep ≠ []) {out : List ℕ}
    (hrun : Run s sep e tail out) (hcons : separators s sep h = p::separators s sep p)
    (hp : LastIn s sep 0 h p) (he : e < p+sep.length) :
    ¬ out = offsets s sep tail h ∧ ¬ AllFound s.length sep.length next (separators s sep h) := by
  have hno := h'.missed p hp he
  have hk := List.length_pos_of_ne_nil hsep
  have hle := hp.1.2.2
  have hcut : p+sep.length < tail := by
    rcases h'.place with ⟨-,hh,ht⟩ | ⟨-,ht⟩
    · have hend : p+sep.length ≠ s.length := fun heq => hno (Or.inl heq)
      omega
    · omega
  refine ⟨hrun.ne_of_missed hsep h'.h_le h'.tail_le hcons he hcut,?_⟩
  rw [hcons]
  exact fun hall => hno hall.1

theorem Pending.e_le (h' : Pending s sep e tail h next) : e ≤ s.length :=
  Nat.le_trans h'.le (Nat.le_trans h'.h_le h'.tail_le)

/-- The block in front of `e` is aligned, too. -/
theorem Pending.aligned_sub (h' : Pending s sep e tail h next) :
    e-bufSize = 0 ∨ bufSize ∣ s.length-(e-bufSize) := by
  have hal := h'.aligned
  have hle := h'.e_le
  rw [bufSize] at *
  omega

theorem Pending.across (h' : Pending s sep e tail h next) (hk : sep.length ≤ bufSize) {q : ℕ}
    {next' : Option ℕ} (hq : q < e-bufSize) (hend : e-bufSize < q+sep.length) :
    ¬ Found s.length sep.length next' q := by
  have hal := h'.aligned_sub
  have hle := h'.e_le
  exact not_found_across (hal.resolve_left (by omega)) (by omega) hk hq hend

/-- No separator lies in the block. -/
theorem Pending.skip (h' : Pending s sep e tail h next) (hk : sep.length ≤ bufSize)
    (hp : ∀ p,LastIn s sep 0 h p → p < e-bufSize) : Pending s sep (e-bufSize) tail h next where
  place := h'.place
  tail_le := h'.tail_le
  le := Nat.le_trans (Nat.sub_le _ _) h'.le
  aligned := h'.aligned_sub
  missed p hlast hend := h'.across hk (hp p hlast) hend

/-- Behind a cut, the next separator will be missed where it lies in the rest of the block. -/
theorem Pending.cut (h' : Pending s sep e tail h next) (hk : sep.length ≤ bufSize)
    (hp : p+sep.length ≤ e) (hpa : e-bufSize ≤ p)
    (hmiss : ∀ q,LastIn s sep 0 p q → e-bufSize ≤ q → ¬ Found s.length sep.length (some p) q) :
    Pending s sep (e-bufSize) (p+sep.length) p (some p) where
  place := Or.inr ⟨rfl,rfl⟩
  tail_le := Nat.le_trans hp h'.e_le
  le := hpa
  aligned := h'.aligned_sub
  missed q hlast hend := by
    rcases Nat.lt_or_ge q (e-bufSize) with hqa | hqa
    · exact h'.across hk hqa hend
    · exact hmiss q hlast hqa

/-- The last separator of a block is the next one in front of `h`, unless that lies across the
end of the block. -/
theorem LastIn.eq {a P : ℕ} (hP : LastIn s sep a e P) (hp : LastIn s sep 0 h p) (he : e ≤ h)
    (hend : p+sep.length ≤ e) : P = p := by
  have hle := hp.2 P hP.1.1 (Nat.zero_le P) (Nat.le_trans hP.1.2.2 he)
  have haP := hP.1.2.1
  exact Nat.le_antisymm hle (hP.2 p hp.1.1 (by omega) hend)

/-- Where a cut is right, the rest has to be. -/
theorem cut_iff (hcons : separators s sep h = p::separators s sep p) (htail : tail ≤ s.length)
    {out : List ℕ} (hfound : Found s.length sep.length next p)
    (ih : out = offsets s sep (p+sep.length) p ↔
      AllFound s.length sep.length (some p) (separators s sep p)) :
    seg (p+sep.length) tail++out = offsets s sep tail h ↔
      AllFound s.length sep.length next (separators s sep h) := by
  rw [offsets_cons hcons htail,List.append_cancel_left_eq,ih,hcons,AllFound]
  exact (and_iff_right hfound).symm

/-- A separator inside of a block with more pending behind it: the end of that is never written. -/
theorem inner_pending (hsep : sep ≠ []) (h' : Pending s sep e tail h next)
    (hcons : separators s sep h = p::separators s sep p) (hpa : e-bufSize ≤ p)
    (hp : p+sep.length < e) (hlt : e < tail) {out : List ℕ}
    (hrun : Run s sep (e-bufSize) (min (tail-(e-(p+sep.length))) e) out) :
    ¬ seg (p+sep.length) e++seg e (tail-(e-(p+sep.length)))++out = offsets s sep tail h ∧
      ¬ AllFound s.length sep.length next (separators s sep h) := by
  have hk := List.length_pos_of_ne_nil hsep
  constructor
  · intro heq
    have hmem : tail-1 ∈ offsets s sep tail h :=
      (mem_offsets hsep h'.h_le h'.tail_le).mpr (by omega)
    rw [← heq,List.mem_append,List.mem_append,mem_seg,mem_seg] at hmem
    rcases hmem with (⟨-,hmem⟩ | ⟨-,hmem⟩) | hmem
    · omega
    · omega
    · have hlast := hrun.lt_tail (by omega) _ hmem
      omega
  · rw [hcons]
    rintro ⟨hfound,-⟩
    have hal := h'.aligned
    have hle := h'.le
    have ht := h'.tail_le
    have hplace := h'.place
    rw [Found,gap,bufSize] at hfound
    rw [bufSize] at hal hpa
    have hgap : (s.length-(p+sep.length))%4 = e-(p+sep.length) := by omega
    rw [hgap] at hfound
    rcases hplace with ⟨rfl,hh,hn⟩ | ⟨rfl,hn⟩
    · rcases hfound with hfound | ⟨-,hfound | ⟨-,hfound⟩ | ⟨-,-,hfound⟩⟩
      · omega
      · omega
      · omega
      · cases hfound
    · rcases hfound with hfound | ⟨-,hfound | ⟨hfound,-⟩ | ⟨-,-,hfound⟩⟩
      · omega
      · omega
      · cases hfound
      · have heq := Option.some.inj hfound
        omega

/-- The only cut inside of the block that is right: the last separator of the file. -/
theorem found_last {n k : ℕ} (hp : p+k < n) (hn : n-bufSize ≤ p) (hk : 0 < k) :
    Found n k none p := by
  rw [bufSize] at hn
  rw [Found,gap,bufSize]
  have hgap : (n-(p+k))%4 = n-(p+k) := by omega
  exact Or.inr ⟨by omega,Or.inr (Or.inl ⟨rfl,by omega⟩)⟩

theorem not_found_second {n k q : ℕ} (hn : p+k < n) (hnp : n-bufSize ≤ p) (hk : 0 < k)
    (hq : q+k ≤ p) (hqn : n-bufSize ≤ q) : ¬ Found n k (some p) q := by
  rw [bufSize] at hnp hqn
  rw [Found,gap,bufSize]
  have hgap : (n-(q+k))%4 = n-(q+k) := by omega
  rw [hgap]
  rintro (hend | ⟨-,h0 | ⟨hnone,-⟩ | ⟨hone,-,hnext⟩⟩)
  · omega
  · omega
  · cases hnone
  · have heq := Option.some.inj hnext
    omega

/-- A cut at the end of a block. -/
theorem found_edge {n k : ℕ} (hend : bufSize ∣ n-(p+k)) (hk : k ≤ bufSize) : Found n k next p := by
  have hgap : gap n k p = 0 := Nat.mod_eq_zero_of_dvd hend
  exact Or.inr ⟨by omega,Or.inl hgap⟩

/-- The one in front of it, with a byte between. -/
theorem found_two {n q : ℕ} (hend : bufSize ∣ n-(p+1)) (hp : p+1 ≤ n) (hq : q+2 ≤ p)
    (hblock : p+1 ≤ q+bufSize) : Found n 1 (some p) q := by
  rw [bufSize] at hend hblock
  rw [Found,gap,bufSize]
  have hgap : (n-(q+1))%4 = p-q := by omega
  rw [hgap]
  exact Or.inr ⟨by omega,Or.inr (Or.inr ⟨rfl,by omega,by congr 1; omega⟩)⟩

/-- One that is adjacent to it, or does not lie in the block with a byte between. -/
theorem not_found_edge {n k q : ℕ} (hend : bufSize ∣ n-(p+k)) (hp : p+k ≤ n) (hk : 0 < k)
    (hq : q+k ≤ p) (hblock : p+k ≤ q+bufSize) (hno : ¬ (k = 1 ∧ q+2 ≤ p)) :
    ¬ Found n k (some p) q := by
  rw [bufSize] at hend hblock
  rw [Found,gap,bufSize]
  have hgap : (n-(q+k))%4 = (p-q)%4 := by omega
  rw [hgap]
  rintro (heq | ⟨hfit,h0 | ⟨hnone,-⟩ | ⟨hone,htwo,-⟩⟩)
  · omega
  · omega
  · cases hnone
  · omega

/-- A third one in the block. -/
theorem not_found_third {n q r : ℕ} (hend : bufSize ∣ n-(p+1)) (hp : p+1 ≤ n) (hq : q+2 ≤ p)
    (hr : r+1 ≤ q) (hblock : p+1 ≤ r+bufSize) : ¬ Found n 1 (some q) r := by
  rw [bufSize] at hend hblock
  rw [Found,gap,bufSize]
  have hgap : (n-(r+1))%4 = p-r := by omega
  rw [hgap]
  rintro (heq | ⟨-,h0 | ⟨hnone,-⟩ | ⟨-,-,hnext⟩⟩)
  · omega
  · omega
  · cases hnone
  · have heq := Option.some.inj hnext
    omega

end Condition

section Iff
variable {s sep : List UInt8} {e tail h : ℕ} {next : Option ℕ} {out : List ℕ}

/-- The rest of the file is reversed exactly if the cuts in it are right. -/
def Decides (s sep : List UInt8) (e tail : ℕ) (out : List ℕ) : Prop :=
  ∀ {h next},Pending s sep e tail h next →
    (out = offsets s sep tail h ↔ AllFound s.length sep.length next (separators s sep h))

/-- A cut inside of the block is right if nothing is pending behind the block. -/
theorem Decides.inner {p : ℕ}
    (ih : Decides s sep (e-bufSize) (min (tail-(e-(p+sep.length))) e) out) (hsep : sep ≠ [])
    (hk : sep.length ≤ bufSize) (h' : Pending s sep e tail h next)
    (hrest : Run s sep (e-bufSize) (min (tail-(e-(p+sep.length))) e) out)
    (hcons : separators s sep h = p::separators s sep p) (hp : LastIn s sep (e-bufSize) e p)
    (hlt : p+sep.length < e) :
    seg (p+sep.length) e++seg e (tail-(e-(p+sep.length)))++out = offsets s sep tail h ↔
      AllFound s.length sep.length next (separators s sep h) := by
  have hpos := List.length_pos_of_ne_nil hsep
  have hpa := hp.1.2.1
  have hle := h'.le
  rcases Nat.lt_or_ge e tail with hpend | hpend
  · obtain ⟨hne,hno⟩ := inner_pending hsep h' hcons hpa hlt hpend hrest
    exact iff_of_false hne hno
  · -- the last block, of which nothing is pending
    obtain ⟨rfl,rfl,rfl⟩ : next = none ∧ e = s.length ∧ tail = s.length := by
      rcases h'.place with ⟨hnext,hh,hs⟩ | ⟨-,hs⟩
      · exact ⟨hnext,by omega,hs⟩
      · omega
    have hcut : min (s.length-(s.length-(p+sep.length))) s.length = p+sep.length := by omega
    rw [hcut] at ih
    rw [seg_of_le (Nat.sub_le _ _),List.append_nil]
    refine cut_iff hcons le_rfl (found_last hlt hpa hpos) (ih (h'.cut hk hlt.le hpa ?_))
    exact fun q hq hqa => not_found_second hlt hpa hpos hq.1.2.2 hqa

/-- A cut at the end of the block is right. -/
theorem Decides.edge {p : ℕ} (ih : Decides s sep (e-bufSize) e out) (hsep : sep ≠ [])
    (hk : sep.length ≤ bufSize) (h' : Pending s sep e tail h next)
    (hcons : separators s sep h = p::separators s sep p) (hp : LastIn s sep (e-bufSize) e p)
    (hend : p+sep.length = e) (hno : NoneIn s sep (e-bufSize) (p-1)) :
    seg e tail++out = offsets s sep tail h ↔
      AllFound s.length sep.length next (separators s sep h) := by
  have hpos := List.length_pos_of_ne_nil hsep
  have hpa := hp.1.2.1
  have hn := h'.e_le
  subst hend
  have hal := h'.aligned.resolve_left (by omega)
  refine cut_iff hcons h'.tail_le (found_edge hal hk) (ih (h'.cut hk le_rfl hpa fun q hq hqa => ?_))
  have hqp := hq.1.2.2
  refine not_found_edge hal hn hpos hqp (by omega) fun hone => ?_
  exact hno q hq.1.1 hqa (by omega)

/-- Of two cuts in the block the second one is right if it is at the separator next to the last
one. -/
theorem Decides.two {p q : ℕ} (ih : Decides s sep (e-bufSize) (q+sep.length) out) (hsep : sep ≠ [])
    (hk : sep.length ≤ bufSize) (h' : Pending s sep e tail h next)
    (hcons : separators s sep h = p::separators s sep p) (hp : LastIn s sep (e-bufSize) e p)
    (hend : p+sep.length = e) (hq : LastIn s sep (e-bufSize) (p-1) q) :
    seg e tail++seg (q+sep.length) e++out = offsets s sep tail h ↔
      AllFound s.length sep.length next (separators s sep h) := by
  have hsize : bufSize = 4 := rfl
  have hpos := List.length_pos_of_ne_nil hsep
  have hpa := hp.1.2.1
  have hn := h'.e_le
  have ht := h'.tail_le
  obtain ⟨hocc,hqa,hqp⟩ := hq.1
  subst hend
  have hal := h'.aligned.resolve_left (by omega)
  have hone : sep.length = 1 := by omega
  rcases separators_cases hsep (show p ≤ s.length by omega) with ⟨-,hnone⟩ | ⟨r,hcons',hr⟩
  · exact absurd (show q+sep.length ≤ p by omega) (hnone q hocc (Nat.zero_le q))
  have hqr := hr.2 q hocc (Nat.zero_le q) (by omega)
  have hrp := hr.1.2.2
  rw [List.append_assoc]
  by_cases hbetween : r+2 ≤ p
  · obtain rfl : q = r := Nat.le_antisymm hqr (hq.2 r hr.1.1 (by omega) (by omega))
    rw [hone] at hal
    refine cut_iff hcons ht (found_edge (by rwa [hone]) hk) (cut_iff hcons' hn ?_ ?_)
    · rw [hone]
      exact found_two hal (by omega) (by omega) (by omega)
    · refine ih (h'.cut hk (by omega) hqa fun r hr hra => ?_)
      have hrq := hr.1.2.2
      rw [hone]
      exact not_found_third hal (by omega) hbetween (by omega) (by omega)
  · -- the separator next to the last one is passed over
    refine iff_of_false ?_ ?_
    · rw [offsets_cons hcons ht,List.append_cancel_left_eq,offsets_cons hcons' hn,
        seg_cons (show q+sep.length < p+sep.length by omega),
        seg_cons (show r+sep.length < p+sep.length by omega)]
      intro heq
      have hhead := (List.cons.inj heq).1
      omega
    · rw [hcons,hcons']
      rintro ⟨-,hfound,-⟩
      exact not_found_edge hal hn hpos hrp (by omega) (fun h => hbetween h.2) hfound

/-- Where nothing is left to be cut, the rest is written as it is. -/
theorem Decides.uncut {a tail' : ℕ} {w : List ℕ} (ih : Decides s sep (e-bufSize) tail' out)
    (hk : sep.length ≤ bufSize) (h' : Pending s sep e tail h next)
    (hnone : NoneIn s sep 0 h) (hturn : Turn s sep a e tail w tail') :
    w++out = offsets s sep tail h ↔ AllFound s.length sep.length next (separators s sep h) := by
  have hno {P : ℕ} (hP : LastIn s sep a e P) : False :=
    hnone P hP.1.1 (Nat.zero_le P) (Nat.le_trans hP.1.2.2 h'.le)
  cases hturn with
  | none => exact ih (h'.skip hk fun p hp => absurd hp.1.2.2 (hnone p hp.1.1 (Nat.zero_le p)))
  | inner P hP => exact (hno hP).elim
  | edge P hP => exact (hno hP).elim
  | two P q hP => exact (hno hP).elim

/-- A run writes the records in reverse order exactly if each cut is right. -/
theorem Run.decides (hrun : Run s sep e tail out) (hsep : sep ≠ [])
    (hk : sep.length ≤ bufSize) : Decides s sep e tail out := by
  induction hrun with
  | done tail =>
    intro h next h'
    rcases separators_cases hsep (Nat.le_trans h'.h_le h'.tail_le) with ⟨hnil,-⟩ | ⟨p,hcons,hp⟩
    · rw [offsets_nil hnil h'.tail_le,hnil]
      exact iff_of_true rfl trivial
    · have hpos := List.length_pos_of_ne_nil hsep
      obtain ⟨hne,hno⟩ := h'.missed_ne hsep (.done tail) hcons hp (by omega)
      exact iff_of_false hne hno
  | @block e tail tail' w out he hturn hrest ih =>
    intro h next h'
    rcases separators_cases hsep (Nat.le_trans h'.h_le h'.tail_le) with ⟨-,hnone⟩ | ⟨p,hcons,hp⟩
    · exact ih.uncut hk h' hnone hturn
    rcases Nat.lt_or_ge e (p+sep.length) with hmiss | hend
    · obtain ⟨hne,hno⟩ := h'.missed_ne hsep (.block he hturn hrest) hcons hp hmiss
      exact iff_of_false hne hno
    cases hturn with
    | none hno =>
      refine ih (h'.skip hk fun p' hp' => ?_)
      obtain rfl : p' = p := Nat.le_antisymm (hp.2 p' hp'.1.1 (Nat.zero_le _) hp'.1.2.2)
        (hp'.2 p hp.1.1 (Nat.zero_le _) hp.1.2.2)
      by_contra hpa
      exact hno p' hp.1.1 (Nat.le_of_not_lt hpa) hend
    | inner P hP hlt =>
      obtain rfl := hP.eq hp h'.le hend
      exact ih.inner hsep hk h' hrest hcons hP hlt
    | edge P hP hPe hno =>
      obtain rfl := hP.eq hp h'.le hend
      exact ih.edge hsep hk h' hcons hP hPe hno
    | two P Q hP hPe hQ =>
      obtain rfl := hP.eq hp h'.le hend
      exact ih.two hsep hk h' hcons hP hPe hQ

/-- A separator longer than a block is never found. -/
theorem Run.eq_seg (hrun : Run s sep e tail out) (hk : bufSize < sep.length) : out = seg 0 tail := by
  induction hrun with
  | done tail => rfl
  | @block e tail tail' w out he hturn hrest ih =>
    have hno {p : ℕ} (hp : LastIn s sep (e-bufSize) e p) : False := by
      have hap := hp.1.2.1
      have hpe := hp.1.2.2
      omega
    cases hturn with
    | none => exact ih
    | inner p hp => exact (hno hp).elim
    | edge p hp => exact (hno hp).elim
    | two p q hp => exact (hno hp).elim

/-- The file as it is begins with its first byte. -/
theorem seg_ne_offsets {p : ℕ} (hcons : separators s sep h = p::separators s sep p)
    (htail : tail ≤ s.length) (hpos : 0 < sep.length) (hp : p+sep.length < tail) :
    seg 0 tail ≠ offsets s sep tail h := by
  rw [offsets_cons hcons htail,seg_cons hp,seg_cons (by omega)]
  intro heq
  have hhead := (List.cons.inj heq).1
  omega

theorem not_found_long {n k p : ℕ} (hk : bufSize < k) (hp : p+k ≠ n) : ¬ Found n k next p := by
  rintro (heq | ⟨hfit,-⟩)
  · exact hp heq
  · omega

/-- Then the file has to be one record, as the separator at its end does not matter. -/
theorem offsets_long_iff (hsep : sep ≠ []) (hk : bufSize < sep.length) :
    seg 0 s.length = offsets s sep s.length s.length ↔
      AllFound s.length sep.length none (separators s sep s.length) := by
  have hpos := List.length_pos_of_ne_nil hsep
  rcases separators_cases hsep le_rfl with ⟨hnil,-⟩ | ⟨p,hcons,hp⟩
  · rw [offsets_nil hnil le_rfl,hnil]
    exact iff_of_true rfl trivial
  have hend := hp.1.2.2
  by_cases hlast : p+sep.length = s.length
  · have hfound : Found s.length sep.length none p := Or.inl hlast
    rw [hcons,AllFound,and_iff_right hfound,offsets_cons hcons le_rfl,seg_of_le hlast.ge,
      List.nil_append,hlast]
    rcases separators_cases (s := s) (h := p) hsep (by omega) with ⟨hnil,-⟩ | ⟨q,hcons',hq⟩
    · rw [offsets_nil hnil le_rfl,hnil]
      exact iff_of_true rfl trivial
    · have hqp := hq.1.2.2
      refine iff_of_false (seg_ne_offsets hcons' le_rfl hpos (by omega)) ?_
      rw [hcons']
      have hne : q+sep.length ≠ s.length := by omega
      exact fun hall => not_found_long hk hne hall.1
  · refine iff_of_false (seg_ne_offsets hcons le_rfl hpos (by omega)) ?_
    rw [hcons]
    exact fun hall => not_found_long hk hlast hall.1

/-- On the whole file, for every separator. -/
theorem Run.reverses_iff (hrun : Run s sep s.length s.length out) (hsep : sep ≠ []) :
    out = offsets s sep s.length s.length ↔
      AllFound s.length sep.length none (separators s sep s.length) := by
  rcases Nat.lt_or_ge bufSize sep.length with hk | hk
  · rw [hrun.eq_seg hk,offsets_long_iff hsep hk]
  · refine hrun.decides hsep hk ⟨Or.inl ⟨rfl,rfl,rfl⟩,le_rfl,le_rfl,Or.inr (by simp),?_⟩
    intro p hp hlt
    have hle := hp.1.2.2
    omega

end Iff

section File
variable {data sep : List UInt8}

theorem map_byteAt (data : List UInt8) : (List.range data.length).map (byteAt data) = data := by
  apply List.ext_getElem
  · rw [List.length_map,List.length_range]
  · intro i hi hi'
    simp only [List.getElem_map,List.getElem_range,byteAt,List.getD_eq_getElem?_getD,
      List.getElem?_eq_getElem hi',Option.getD_some]

/-- The bytes at the offsets of the records are those of the records. -/
theorem pick_records {α : Type*} (bytes : List α) (k : ℕ) {tail : ℕ} (ps : List ℕ)
    (htail : tail ≤ bytes.length) (hps : ∀ p ∈ ps,p+k ≤ bytes.length) :
    pick bytes (records (List.range bytes.length) k tail ps).flatten =
      (records bytes k tail ps).flatten := by
  induction ps generalizing tail with
  | nil =>
    rw [records,records,List.flatten_singleton,List.flatten_singleton]
    have hfirst := take_drop_range (c := 0) htail
    rw [List.drop_zero] at hfirst
    rw [hfirst,pick_seg htail,List.drop_zero]
  | cons p ps ih =>
    rw [records,records,List.flatten_cons,List.flatten_cons,pick_append,take_drop_range htail,
      pick_seg htail,ih (hps p List.mem_cons_self) fun q hq => hps q (List.mem_cons_of_mem p hq)]

theorem tac_byteAt (data sep : List UInt8) :
    tac (byteAt data) (List.range data.length) sep =
      offsets data sep data.length data.length := by
  rw [tac,map_byteAt,List.length_range]
  rfl

theorem readFromTail_offsets (data : List UInt8) (hsep : sep ≠ []) :
    ∃ out,Run data sep data.length data.length out ∧
      readFromTail (byteAt data) (List.range data.length) sep = .ok out := by
  obtain ⟨out,hrun,hread⟩ := readFromTail_run (byteAt data) (List.range data.length) hsep
  rw [map_byteAt,List.length_range] at hrun
  rw [pick_range (hrun.lt_tail le_rfl)] at hread
  exact ⟨out,hrun,hread⟩

/-- A file that is reversed has its separators where they are found. -/
theorem Reverses.allFound (h : Reverses data sep) (hsep : sep ≠ []) :
    AllFound data.length sep.length none (separators data sep data.length) := by
  obtain ⟨out,hrun,hread⟩ := readFromTail_offsets data hsep
  rw [Reverses,hread,tac_byteAt] at h
  exact (hrun.reverses_iff hsep).mp (Except.ok.inj h)

theorem separators_le (hsep : sep ≠ []) {h : ℕ} (hh : h ≤ data.length) :
    ∀ p ∈ separators data sep h,p+sep.length ≤ data.length := by
  induction h using Nat.strong_induction_on with
  | h h ih =>
    have hk := List.length_pos_of_ne_nil hsep
    rcases separators_cases hsep hh with ⟨hnil,-⟩ | ⟨p,hcons,hp⟩
    · rw [hnil]
      exact fun p hp => absurd hp List.not_mem_nil
    · have hle := hp.1.2.2
      rw [hcons]
      intro q hq
      rcases List.mem_cons.mp hq with rfl | hq
      · omega
      · exact ih p (by omega) (by omega) q hq

/-- What is written of the bytes alone is right, too, where they are found. -/
theorem readFromTail_bytes (hsep : sep ≠ [])
    (hall : AllFound data.length sep.length none (separators data sep data.length)) :
    readFromTail id data sep = .ok (tac id data sep) := by
  obtain ⟨out,hrun,hread⟩ := readFromTail_run id data hsep
  rw [List.map_id] at hrun
  rw [hread,(hrun.reverses_iff hsep).mpr hall,offsets,
    pick_records data _ _ le_rfl (separators_le hsep le_rfl),tac,List.map_id]

end File

/-- The program reverses a file exactly if each separator is found and cuts right; the bytes are
then those of `tac`. -/
theorem readFromTail_reverses_iff (data sep : List UInt8) (hsep : sep ≠ []) :
    (Reverses data sep ↔
      AllFound data.length sep.length none (separators data sep data.length)) ∧
    (Reverses data sep → readFromTail id data sep = .ok (tac id data sep)) := by
  refine ⟨⟨fun h => h.allFound hsep,fun h => ?_⟩,fun h => readFromTail_bytes hsep (h.allFound hsep)⟩
  obtain ⟨out,hrun,hread⟩ := readFromTail_offsets data hsep
  rw [Reverses,hread,tac_byteAt,(hrun.reverses_iff hsep).mpr h]

/-- A file `a,,`, whose last record is empty. -/
theorem not_reverses_empty :
    ¬ Reverses [97,44,44] [44] ∧
      readFromTail id [97,44,44] [44] ≠ .ok (tac id [97,44,44] [44]) := by
  have hseps : separators [97,44,44] [44] 3 = [2,1] := by
    rw [separators,show lastIndex (([97,44,44] : List UInt8).take _) [44] = some 2 by decide]
    dsimp only
    rw [if_pos (by decide),separators,
      show lastIndex (([97,44,44] : List UInt8).take 2) [44] = some 1 by decide]
    dsimp only
    rw [if_pos (by decide),separators,
      show lastIndex (([97,44,44] : List UInt8).take 1) [44] = none by decide]
  constructor
  · intro h
    have hall : AllFound 3 1 none (separators [97,44,44] [44] 3) := h.allFound (by decide)
    rw [hseps] at hall
    exact absurd hall (by decide)
  · have htac : tac id [97,44,44] [44] = [44,97,44] := by
      rw [tac,List.map_id,show ([97,44,44] : List UInt8).length = 3 from rfl,hseps]
      rfl
    rw [htac]
    decide

/-- A file `a,bc`. -/
theorem reverses_two : Reverses [97,44,98,99] [44] := by
  apply (readFromTail_reverses_iff [97,44,98,99] [44] (by decide)).1.mpr
  have hseps : separators [97,44,98,99] [44] ([97,44,98,99] : List UInt8).length = [1] := by
    rw [separators,show lastIndex (([97,44,98,99] : List UInt8).take _) [44] = some 1 by decide]
    dsimp only
    rw [if_pos (by decide),separators,
      show lastIndex (([97,44,98,99] : List UInt8).take 1) [44] = none by decide]
  rw [hseps]
  decide

end Tac
end RecycleBin
