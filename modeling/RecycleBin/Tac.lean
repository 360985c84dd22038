import RecycleBin.Occurrence
import RecycleBin.Refinement

/-! `ReadFromTail` of `tac.go`: a file is read from its end in blocks of four bytes. Its elements
may carry more than a byte, such as the offset they have in the file; `val` is the byte. -/
namespace RecycleBin
namespace Tac
open Occurrence

/-- What ends a call: a panic, a loop that was cut off, or an error that it returns. -/
inductive Stop
  | panic | exhausted | err
  deriving DecidableEq,Repr

section Program
variable {α : Type*}

def bufSize : ℕ := 4

/-- A file and the offset it is read at. -/
structure Reader (α : Type*) where
  data : List α
  offset : ℕ

/-- `Seek` by `offset` from `base`. -/
def Reader.seek (rs : Reader α) (offset base : ℤ) : Except Stop (Reader α) :=
  if base+offset < 0 then .error .err else .ok { rs with offset := (base+offset).toNat }

/-- `Read` into a buffer of `n` bytes, and the end of the file for an error. -/
def Reader.read (rs : Reader α) (n : ℕ) : Except Stop (List α × Reader α) :=
  if rs.data.length ≤ rs.offset then .error .err
  else
    let bytes := (rs.data.drop rs.offset).take n
    .ok (bytes,{ rs with offset := rs.offset+bytes.length })

/-- `buf[lo:hi]`. Nothing behind the bytes that were read is looked at. -/
def slice (buf : List α) (lo hi : ℤ) : Except Stop (List α) :=
  if 0 ≤ lo ∧ lo ≤ hi ∧ hi ≤ buf.length then .ok ((buf.take hi.toNat).drop lo.toNat)
  else .error .panic

/-- The loop of `printOffset`. -/
def printLoop : ℕ → Reader α → ℕ → ℕ → Except Stop (List α)
  | 0, _, _, _ => .error .exhausted
  | turns+1, rs, start, stop =>
    if stop ≤ start then .ok []
    else
      match rs.read (min (stop-start) bufSize) with
      | .error _ => .ok []
      | .ok (bytes,rs) => do
        let rest ← printLoop turns rs (start+bytes.length) stop
        .ok (bytes++rest)

/-- `printOffset`: what it writes. The offset of the caller is restored. -/
def printOffset (rs : Reader α) (start stop : ℕ) : Except Stop (List α) := do
  let rs ← rs.seek start 0
  printLoop (stop-start+1) rs start stop

/-- The inner loop, in the block from `head` on: what is written, and `tail`. -/
def sepLoop (val : α → UInt8) (sep : List UInt8) (rs : Reader α) (buf : List α)
    (head minRead : ℕ) : ℕ → ℤ → ℤ → ℕ → Except Stop (List α × ℕ)
  | 0, _, _, _ => .error .exhausted
  | turns+1, t, h, tail => do
    let front ← slice buf 0 h
    match lastIndex (front.map val) sep with
    | none => .ok ([],tail)
    | some pos => do
      let bytes ← slice buf (pos+sep.length) t
      let l := t-pos-sep.length
      let tail := if 0 < l then tail-l.toNat else tail
      let found ← slice buf pos t
      let t := if found.map val = sep then t else pos-sep.length
      let printed ← if head+minRead < tail then printOffset rs (head+minRead) tail else .ok []
      let tail := if head+minRead < tail then head+minRead else tail
      if pos = 0 then .ok (bytes++printed,tail)
      else do
        let (rest,tail) ← sepLoop val sep rs buf head minRead turns t (pos-1) tail
        .ok (bytes++(printed++rest),tail)

/-- The outer loop, and what is left at its end. -/
def blockLoop (val : α → UInt8) (sep : List UInt8) :
    ℕ → Reader α → ℕ → ℕ → Except Stop (List α)
  | 0, _, _, _ => .error .exhausted
  | turns+1, rs, head, tail =>
    if 0 < head then do
      let minRead := min head bufSize
      let rs ← rs.seek (-minRead) rs.offset
      let (buf,rs) ← rs.read minRead
      let head := head-minRead
      let rs := (rs.seek (-minRead) rs.offset).toOption.getD rs
      let (written,tail) ←
        sepLoop val sep rs buf head minRead (buf.length+1) buf.length buf.length tail
      let rest ← blockLoop val sep turns rs head tail
      .ok (written++rest)
    else if 0 < tail then printOffset rs 0 tail
    else .ok []

/-- `ReadFromTail`: what it writes. -/
def readFromTail (val : α → UInt8) (data : List α) (sep : List UInt8) : Except Stop (List α) :=
  blockLoop val sep (data.length+1) ⟨data,data.length⟩ data.length data.length

end Program

/-! ### The records -/

/-- The places of the separators that end at `h` or in front of it, from the right; they do not
overlap. -/
def separators (s sep : List UInt8) (h : ℕ) : List ℕ :=
  match lastIndex (s.take h) sep with
  | none => []
  | some p => if p < h then p::separators s sep p else []
termination_by h

/-- The records in front of `tail`, the last one first. A separator ends its record. -/
def records {α : Type*} (data : List α) (k : ℕ) : ℕ → List ℕ → List (List α)
  | tail, [] => [data.take tail]
  | tail, p::ps => (data.take tail).drop (p+k)::records data k (p+k) ps

/-- The records in reverse order. -/
def tac {α : Type*} (val : α → UInt8) (data : List α) (sep : List UInt8) : List α :=
  (records data sep.length data.length (separators (data.map val) sep data.length)).flatten

/-! ### The offsets that are written -/

/-- The offsets from `a` up to `b`. -/
def seg (a b : ℕ) : List ℕ := List.range' a (b-a)

/-- The elements at these offsets. -/
def pick {α : Type*} (data : List α) (w : List ℕ) : List α := w.filterMap (data[·]?)

section Offsets
variable {α : Type*} {data : List α}

theorem mem_seg {a b i : ℕ} : i ∈ seg a b ↔ a ≤ i ∧ i < b := by
  rw [seg,List.mem_range'_1]
  omega

theorem seg_of_le {a b : ℕ} (h : b ≤ a) : seg a b = [] := by
  rw [seg,Nat.sub_eq_zero_of_le h]
  rfl

theorem seg_append {a b c : ℕ} (hab : a ≤ b) (hbc : b ≤ c) : seg a b++seg b c = seg a c := by
  have hb : b = a+(b-a) := by omega
  have hc : c-a = b-a+(c-b) := by omega
  rw [seg,seg,seg,hc]
  conv_lhs => rw [show List.range' b (c-b) = List.range' (a+(b-a)) (c-b) by rw [← hb]]
  exact List.range'_append_1

theorem pick_append (v w : List ℕ) : pick data (v++w) = pick data v++pick data w :=
  List.filterMap_append

theorem seg_cons {a b : ℕ} (h : a < b) : seg a b = a::seg (a+1) b := by
  rw [seg,seg,show b-a = b-(a+1)+1 by omega,List.range'_succ]

theorem pick_seg {a b : ℕ} (hb : b ≤ data.length) : pick data (seg a b) = (data.take b).drop a := by
  induction hn : b-a generalizing a with
  | zero =>
    rw [seg_of_le (by omega),List.drop_eq_nil_of_le (by rw [List.length_take]; omega)]
    rfl
  | succ n ih =>
    have ha : a < (data.take b).length := by
      rw [List.length_take_of_le hb]
      omega
    have hdata : data[a]? = some (data.take b)[a] := by
      rw [List.getElem_take,List.getElem?_eq_getElem]
    rw [seg_cons (by omega),List.drop_eq_getElem_cons ha,← ih (by omega),pick,
      List.filterMap_cons_some hdata]
    rfl

theorem pick_range {w : List ℕ} {n : ℕ} (h : ∀ i ∈ w,i < n) : pick (List.range n) w = w := by
  rw [pick,List.filterMap_eq_map_iff_forall_eq_some.mpr fun i hi => ?_,List.map_id]
  rw [List.getElem?_range (h i hi)]
  rfl

/-- The bytes from `start` to `stop`, in as many reads as it takes. -/
theorem printLoop_eq {start stop turns : ℕ} (hstop : stop ≤ data.length)
    (hturns : stop-start < turns) :
    printLoop turns ⟨data,start⟩ start stop = .ok ((data.take stop).drop start) := by
  induction turns generalizing start with
  | zero => omega
  | succ turns ih =>
    rw [printLoop]
    by_cases hle : stop ≤ start
    · rw [if_pos hle,List.drop_eq_nil_of_le (by rw [List.length_take]; omega)]
    · have hread : ¬ data.length ≤ start := by omega
      have hlen : ((data.drop start).take (min (stop-start) bufSize)).length =
          min (stop-start) bufSize := by
        rw [List.length_take_of_le (by rw [List.length_drop]; omega)]
      rw [if_neg hle,Reader.read,if_neg hread]
      dsimp only
      have hmid : start+min (stop-start) bufSize ≤ stop := by omega
      have hfirst : (data.drop start).take (min (stop-start) bufSize) =
          pick data (seg start (start+min (stop-start) bufSize)) := by
        rw [pick_seg (by omega),List.drop_take,Nat.add_sub_cancel_left]
      rw [hlen,ih (by unfold bufSize; omega),ok_bind,hfirst,← pick_seg hstop,← pick_append,
        seg_append (Nat.le_add_right _ _) hmid,pick_seg hstop]

theorem printOffset_eq {start stop offset : ℕ} (hstop : stop ≤ data.length) :
    printOffset ⟨data,offset⟩ start stop = .ok (pick data (seg start stop)) := by
  have hseek : Reader.seek ⟨data,offset⟩ start 0 = .ok ⟨data,start⟩ := by
    rw [Reader.seek,if_neg (by omega),zero_add]
    rfl
  rw [printOffset,hseek,ok_bind,printLoop_eq hstop (by omega),pick_seg hstop]

end Offsets

/-! ### A block -/

section Block
variable {α : Type*} {val : α → UInt8} {data : List α} {sep : List UInt8} {a e h p tail : ℕ}

/-- The last separator between `a` and `h`. -/
def LastIn (s sep : List UInt8) (a h p : ℕ) : Prop :=
  (OccursAt sep s p ∧ a ≤ p ∧ p+sep.length ≤ h) ∧
    ∀ q,OccursAt sep s q → a ≤ q → q+sep.length ≤ h → q ≤ p

def NoneIn (s sep : List UInt8) (a h : ℕ) : Prop :=
  ∀ q,OccursAt sep s q → a ≤ q → ¬ q+sep.length ≤ h

/-- What the program writes in the block from `a` to `e`, and its `tail` behind it. A separator
inside of the block cuts what is pending; one at its end does not, and a second one is found. -/
inductive Turn (s sep : List UInt8) (a e tail : ℕ) : List ℕ → ℕ → Prop
  | none : NoneIn s sep a e → Turn s sep a e tail [] tail
  | inner (p : ℕ) : LastIn s sep a e p → p+sep.length < e →
      Turn s sep a e tail (seg (p+sep.length) e++seg e (tail-(e-(p+sep.length))))
        (min (tail-(e-(p+sep.length))) e)
  | edge (p : ℕ) : LastIn s sep a e p → p+sep.length = e → NoneIn s sep a (p-1) →
      Turn s sep a e tail (seg e tail) e
  | two (p q : ℕ) : LastIn s sep a e p → p+sep.length = e → LastIn s sep a (p-1) q →
      Turn s sep a e tail (seg e tail++seg (q+sep.length) e) (q+sep.length)

theorem slice_eq {lo hi : ℕ} (he : e ≤ data.length) (hlo : lo ≤ hi) (hhi : a+hi ≤ e) :
    slice ((data.take e).drop a) lo hi = .ok (pick data (seg (a+lo) (a+hi))) := by
  have hlen : ((data.take e).drop a).length = e-a := by
    rw [List.length_drop,List.length_take_of_le he]
  rw [slice,if_pos ⟨by omega,by omega,by omega⟩,pick_seg (by omega),Int.toNat_natCast,
    Int.toNat_natCast]
  congr 1
  rw [List.take_drop,List.take_take,List.drop_drop,Nat.min_eq_left hhi]

theorem map_pick_seg {lo hi : ℕ} (hhi : hi ≤ data.length) :
    (pick data (seg lo hi)).map val = ((data.map val).take hi).drop lo := by
  rw [pick_seg hhi,List.map_drop,List.map_take]

/-- The program looks for the last separator in front of `h`. -/
theorem lastIndex_cases (val : α → UInt8) (hsep : sep ≠ []) (hh : h ≤ data.length) :
    (lastIndex (((data.map val).take h).drop a) sep = none ∧ NoneIn (data.map val) sep a h) ∨
      ∃ pos,lastIndex (((data.map val).take h).drop a) sep = some pos ∧
        LastIn (data.map val) sep a h (a+pos) := by
  have hlen : h ≤ (data.map val).length := by rwa [List.length_map]
  rcases hlast : lastIndex (((data.map val).take h).drop a) sep with _ | pos
  · refine Or.inl ⟨rfl,fun q hq haq hle => ?_⟩
    have hno := (lastIndex_eq_none hsep).mp hlast (q-a)
    rw [occursAt_window hsep hlen,Nat.add_sub_cancel' haq] at hno
    exact hno ⟨hq,hle⟩
  · obtain ⟨hpos,hmax⟩ := lastIndex_eq_some hlast hsep
    rw [occursAt_window hsep hlen] at hpos
    refine Or.inr ⟨pos,rfl,⟨hpos.1,Nat.le_add_right _ _,hpos.2⟩,fun q hq haq hle => ?_⟩
    have hq' := hmax (q-a)
    rw [occursAt_window hsep hlen,Nat.add_sub_cancel' haq] at hq'
    have hle' := hq' ⟨hq,hle⟩
    omega

/-- The bytes from a separator on are it alone exactly if they end with it. -/
theorem separator_iff {t : ℕ} {s : List UInt8} (hp : OccursAt sep s p) (hpt : p+sep.length ≤ t)
    (ht : t ≤ s.length) : (s.take t).drop p = sep ↔ t = p+sep.length := by
  constructor
  · intro heq
    have hlen := congrArg List.length heq
    rw [List.length_drop,List.length_take_of_le ht] at hlen
    omega
  · rintro rfl
    rw [List.drop_take,Nat.add_sub_cancel_left]
    exact (List.prefix_iff_eq_take.mp hp).symm

section Turns
variable {rs : Reader α} {t turns : ℕ}

theorem sepLoop_none (hsep : sep ≠ []) (he : e ≤ data.length) (hh : a+h ≤ e)
    (hno : NoneIn (data.map val) sep a (a+h)) (t : ℤ) :
    sepLoop val sep rs ((data.take e).drop a) a (e-a) (turns+1) t h tail = .ok ([],tail) := by
  rw [sepLoop,show (0 : ℤ) = (0 : ℕ) from rfl,slice_eq he (Nat.zero_le h) hh,ok_bind,Nat.add_zero,
    map_pick_seg (by omega)]
  rcases lastIndex_cases val (a := a) hsep (show a+h ≤ data.length by omega) with
    ⟨hlast,-⟩ | ⟨pos,-,hlast⟩
  · rw [hlast]
  · exact absurd hlast.1.2.2 (hno _ hlast.1.1 hlast.1.2.1)

/-- A turn that finds a separator. -/
theorem sepLoop_found (he : e ≤ data.length) (hae : a ≤ e) (hh : a+h ≤ e) {pos : ℕ}
    (hlast : lastIndex (((data.map val).take (a+h)).drop a) sep = some pos)
    (hocc : OccursAt sep (data.map val) (a+pos)) (ht : pos+sep.length ≤ t) (hte : a+t ≤ e)
    (htail : tail ≤ data.length) {offset : ℕ} :
    sepLoop val sep ⟨data,offset⟩ ((data.take e).drop a) a (e-a) (turns+1) t h tail =
      if pos = 0 then
        .ok (pick data (seg (a+pos+sep.length) (a+t)++seg e (tail-(t-(pos+sep.length)))),
          min (tail-(t-(pos+sep.length))) e)
      else
        sepLoop val sep ⟨data,offset⟩ ((data.take e).drop a) a (e-a) turns
            (if t = pos+sep.length then t else pos-sep.length) (pos-1)
            (min (tail-(t-(pos+sep.length))) e) >>= fun r =>
          .ok (pick data (seg (a+pos+sep.length) (a+t)++seg e (tail-(t-(pos+sep.length))))++r.1,
            r.2) := by
  have hend : a+(e-a) = e := by omega
  have hcut : (if (0 : ℤ) < t-pos-sep.length then tail-(t-pos-sep.length : ℤ).toNat else tail) =
      tail-(t-(pos+sep.length)) := by
    split_ifs <;> omega
  have hsame : ((pick data (seg (a+pos) (a+t))).map val = sep) ↔ t = pos+sep.length := by
    rw [map_pick_seg (by omega),separator_iff hocc (by omega) (by rw [List.length_map]; omega)]
    omega
  have hmin (n : ℕ) : (if e < n then e else n) = min n e := by
    split_ifs <;> omega
  rw [sepLoop,show (0 : ℤ) = (0 : ℕ) from rfl,slice_eq he (Nat.zero_le h) hh,ok_bind,Nat.add_zero,
    map_pick_seg (by omega),hlast]
  dsimp only
  rw [show (pos : ℤ)+sep.length = (pos+sep.length : ℕ) by push_cast; rfl,slice_eq he ht hte,ok_bind,
    slice_eq he (by omega) hte,ok_bind,hend]
  simp only [Nat.cast_zero,hcut,hsame,hmin,pick_append,Nat.add_assoc,List.append_assoc]
  by_cases hlt : e < tail-(t-(pos+sep.length))
  · rw [if_pos hlt,printOffset_eq (by omega),ok_bind]
  · rw [if_neg hlt,seg_of_le (Nat.le_of_not_lt hlt)]
    rfl

/-- Behind a separator at the end of the block the program finds the one before it, if a byte
lies between the two; there is no third one. -/
theorem second_edge (val : α → UInt8) (turns : ℕ) (hsep : sep ≠ []) (he : e ≤ data.length)
    (hsize : e ≤ a+bufSize) {pos : ℕ} (hpos : 0 < pos) (hedge : a+pos+sep.length = e) (offset : ℕ) :
    (NoneIn (data.map val) sep a (a+pos-1) ∧
      sepLoop val sep ⟨data,offset⟩ ((data.take e).drop a) a (e-a) (turns+2) (e-a : ℕ) (pos-1 : ℕ) e
        = .ok ([],e)) ∨
    ∃ q,LastIn (data.map val) sep a (a+pos-1) q ∧
      sepLoop val sep ⟨data,offset⟩ ((data.take e).drop a) a (e-a) (turns+2) (e-a : ℕ) (pos-1 : ℕ) e
        = .ok (pick data (seg (q+sep.length) e),q+sep.length) := by
  have hk := List.length_pos_of_ne_nil hsep
  have hh : a+(pos-1) = a+pos-1 := by omega
  have hend : a+(e-a) = e := by omega
  rw [bufSize] at hsize
  rcases lastIndex_cases val (a := a) hsep (show a+(pos-1) ≤ data.length by omega) with
    ⟨-,hno⟩ | ⟨pos',hlast,hq⟩
  · refine Or.inl ⟨hh ▸ hno,?_⟩
    exact sepLoop_none hsep he (by omega) hno _
  · obtain ⟨hocc,-,hle⟩ := hq.1
    refine Or.inr ⟨a+pos',hh ▸ hq,?_⟩
    have hcut : e-(e-a-(pos'+sep.length)) = a+pos'+sep.length := by omega
    have hlt : ¬ e-a = pos'+sep.length := by omega
    rw [sepLoop_found he (by omega) (by omega) hlast hocc (by omega) hend.le he,hend,hcut,
      seg_of_le (show a+pos'+sep.length ≤ e by omega),List.append_nil,Nat.min_eq_left (by omega),
      if_neg hlt]
    split_ifs with h0
    · rfl
    · -- in front of it there is no room for a third one
      have hthird : ((pos' : ℤ)-1) = (pos'-1 : ℕ) := by omega
      have hno : NoneIn (data.map val) sep a (a+(pos'-1)) := by
        intro q _ haq hqle
        omega
      rw [hthird,sepLoop_none hsep he (by omega) hno,ok_bind,List.append_nil]

/-- Behind one inside of the block it finds none that it takes for a cut. -/
theorem second_inner (val : α → UInt8) (turns : ℕ) (hsep : sep ≠ []) (he : e ≤ data.length)
    (hae : a ≤ e) (hsize : e ≤ a+bufSize) {pos : ℕ} (hpos : 0 < pos)
    (hinner : a+pos+sep.length < e) (htail : tail ≤ e) (offset : ℕ) :
    sepLoop val sep ⟨data,offset⟩ ((data.take e).drop a) a (e-a) (turns+1) (pos-sep.length)
      (pos-1 : ℕ) tail = .ok ([],tail) := by
  have hk := List.length_pos_of_ne_nil hsep
  rw [bufSize] at hsize
  rcases lastIndex_cases val (a := a) hsep (show a+(pos-1) ≤ data.length by omega) with
    ⟨-,hno⟩ | ⟨pos',hlast,hq⟩
  · exact sepLoop_none hsep he (by omega) hno _
  · -- the separators are single bytes, the first and the third of the block
    obtain ⟨hocc,-,hle⟩ := hq.1
    have h0 : pos' = 0 := by omega
    have ht : ((pos : ℤ)-sep.length) = (1 : ℕ) := by omega
    rw [ht,sepLoop_found he hae (by omega) hlast hocc (by omega) (by omega) (by omega),if_pos h0,
      seg_of_le (show a+1 ≤ a+pos'+sep.length by omega),
      seg_of_le (show tail-(1-(pos'+sep.length)) ≤ e by omega)]
    congr 2
    omega

/-- A block is gone through in one of the four ways. -/
theorem sepLoop_turn (val : α → UInt8) (hsep : sep ≠ []) (he : e ≤ data.length) (hae : a < e)
    (hsize : e ≤ a+bufSize) (hle : e ≤ tail) (htail : tail ≤ data.length) (offset : ℕ) :
    ∃ w tail',Turn (data.map val) sep a e tail w tail' ∧
      sepLoop val sep ⟨data,offset⟩ ((data.take e).drop a) a (e-a) (e-a+1) (e-a : ℕ) (e-a : ℕ) tail
        = .ok (pick data w,tail') := by
  have hend : a+(e-a) = e := by omega
  have hk := List.length_pos_of_ne_nil hsep
  rcases lastIndex_cases val (a := a) hsep he with ⟨-,hno⟩ | ⟨pos,hlast,hp⟩
  · refine ⟨[],tail,.none hno,?_⟩
    rw [sepLoop_none hsep he hend.le (by rwa [hend])]
    rfl
  obtain ⟨hocc,-,hend'⟩ := hp.1
  have hlast' : lastIndex (((data.map val).take (a+(e-a))).drop a) sep = some pos := by rwa [hend]
  have hprev (h0 : pos ≠ 0) : ((pos : ℤ)-1) = (pos-1 : ℕ) := by omega
  rw [sepLoop_found he hae.le hend.le hlast' hocc (by omega) hend.le htail,hend,show e-a-(pos+sep.length) = e-(a+pos+sep.length) by omega]
  by_cases hedge : a+pos+sep.length = e
  · have hcut : tail-(e-(a+pos+sep.length)) = tail := by omega
    rw [hcut,Nat.min_eq_right hle,seg_of_le (show e ≤ a+pos+sep.length by omega),List.nil_append]
    by_cases h0 : pos = 0
    · rw [if_pos h0]
      refine ⟨_,_,.edge (a+pos) hp hedge fun q _ haq hq => ?_,rfl⟩
      omega
    · obtain ⟨turns,hturns⟩ : ∃ turns,turns+2 = e-a := ⟨e-a-2,by omega⟩
      have hsecond := second_edge val turns hsep he hsize (Nat.pos_of_ne_zero h0) hedge offset
      rw [hturns] at hsecond
      rw [if_neg h0,if_pos (by omega),hprev h0]
      rcases hsecond with ⟨hno,hrun⟩ | ⟨q,hq,hrun⟩
      · exact ⟨_,_,.edge (a+pos) hp hedge hno,by rw [hrun,ok_bind,List.append_nil]⟩
      · exact ⟨_,_,.two (a+pos) q hp hedge hq,by rw [hrun,ok_bind,pick_append]⟩
  · have hinner : a+pos+sep.length < e := by omega
    refine ⟨_,_,.inner (a+pos) hp hinner,?_⟩
    by_cases h0 : pos = 0
    · rw [if_pos h0]
    · obtain ⟨turns,hturns⟩ : ∃ turns,turns+1 = e-a := ⟨e-a-1,by omega⟩
      have hcut : min (tail-(e-(a+pos+sep.length))) e ≤ e := Nat.min_le_right _ _
      have hsecond := second_inner val turns hsep he hae.le hsize (Nat.pos_of_ne_zero h0) hinner hcut
        offset
      rw [hturns] at hsecond
      rw [if_neg h0,if_neg (by omega),hprev h0,hsecond,ok_bind,List.append_nil]

end Turns
end Block

/-! ### A run -/

/-- What is written from the block that ends at `e` on. -/
inductive Run (s sep : List UInt8) : ℕ → ℕ → List ℕ → Prop
  | done (tail : ℕ) : Run s sep 0 tail (seg 0 tail)
  | block {e tail tail' : ℕ} {w out : List ℕ} : 0 < e →
      Turn s sep (e-bufSize) e tail w tail' → Run s sep (e-bufSize) tail' out →
      Run s sep e tail (w++out)

section Runs
variable {α : Type*} {val : α → UInt8} {data : List α} {sep : List UInt8} {e tail turns : ℕ}

theorem Turn.bounds {s : List UInt8} {a tail' : ℕ} {w : List ℕ} (h : Turn s sep a e tail w tail')
    (hae : a ≤ e) (hle : e ≤ tail) : a ≤ tail' ∧ tail' ≤ tail := by
  cases h with
  | none => omega
  | inner p hp hlt =>
    have hap := hp.1.2.1
    omega
  | edge => omega
  | two p q hp hedge hq =>
    have haq := hq.1.2.1
    have hqp := hq.1.2.2
    omega

/-- The block in front of `e` is read, and the offset set back to its start. -/
theorem read_block (he : e ≤ data.length) (hpos : 0 < e) :
    (⟨data,e⟩ : Reader α).seek (-(min e bufSize : ℕ)) e = .ok ⟨data,e-bufSize⟩ ∧
    (⟨data,e-bufSize⟩ : Reader α).read (min e bufSize) =
      .ok ((data.take e).drop (e-bufSize),⟨data,e⟩) := by
  have hsize : bufSize = 4 := rfl
  constructor
  · rw [Reader.seek,if_neg (by omega)]
    congr 2
    omega
  · have hblock : (data.drop (e-bufSize)).take (min e bufSize) = (data.take e).drop (e-bufSize) := by
      rw [List.drop_take]
      congr 1
      omega
    have hlen : ((data.take e).drop (e-bufSize)).length = min e bufSize := by
      rw [List.length_drop,List.length_take_of_le he]
      omega
    rw [Reader.read,if_neg (by dsimp only; omega)]
    dsimp only
    rw [hblock,hlen]
    congr 3
    omega

/-- The program returns, and has written what a run writes. -/
theorem blockLoop_run (hsep : sep ≠ []) (hle : e ≤ tail) (htail : tail ≤ data.length)
    (hturns : e < turns) :
    ∃ out,Run (data.map val) sep e tail out ∧
      blockLoop val sep turns ⟨data,e⟩ e tail = .ok (pick data out) := by
  induction turns generalizing e tail with
  | zero => omega
  | succ turns ih =>
    rcases Nat.eq_zero_or_pos e with rfl | hpos
    · refine ⟨_,.done tail,?_⟩
      rw [blockLoop,if_neg (Nat.lt_irrefl 0)]
      split_ifs with h0
      · exact printOffset_eq htail
      · rw [seg_of_le (Nat.le_of_not_lt h0)]
        rfl
    · have hsize : bufSize = 4 := rfl
      have hmin : e-min e bufSize = e-bufSize := by omega
      have hread : e-(e-bufSize) = min e bufSize := by omega
      have he : e ≤ data.length := Nat.le_trans hle htail
      obtain ⟨hseek,hblock⟩ := read_block he hpos
      obtain ⟨w,tail',hturn,hsep'⟩ := sepLoop_turn val (a := e-bufSize) hsep he (by omega) (by omega)
        hle htail (e-bufSize)
      obtain ⟨hlow,hhigh⟩ := hturn.bounds (Nat.sub_le _ _) hle
      obtain ⟨out,hrun,hrest⟩ := ih hlow (by omega) (by omega)
      refine ⟨w++out,.block hpos hturn hrun,?_⟩
      have hlen : ((data.take e).drop (e-bufSize)).length = e-(e-bufSize) := by
        rw [List.length_drop,List.length_take_of_le (by omega)]
      rw [blockLoop,if_pos hpos]
      dsimp only
      rw [hseek,ok_bind,hblock,ok_bind]
      dsimp only
      rw [hseek,hmin,← hread,hlen]
      dsimp only [Except.toOption,Option.getD]
      rw [hsep',ok_bind]
      dsimp only
      rw [hrest,ok_bind,pick_append]

/-- On every file the program returns, without a panic. -/
theorem readFromTail_run (val : α → UInt8) (data : List α) (hsep : sep ≠ []) :
    ∃ out,Run (data.map val) sep data.length data.length out ∧
      readFromTail val data sep = .ok (pick data out) :=
  blockLoop_run hsep le_rfl le_rfl (Nat.lt_succ_self _)

end Runs
end Tac
end RecycleBin
