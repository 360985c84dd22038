import RecycleBin.Bytes

/-! `Conn.Copy` with a header type: every read becomes a frame behind its length. A reader
is what its calls of `Read` return, one after the other; the writer never fails. -/
namespace RecycleBin
namespace ConnCopy
open Bytes

/-- The header types of `head2buf`. -/
inductive Header
  | u64be | u32be | u16be
  deriving DecidableEq

def Header.width : Header → ℕ
  | .u64be => 8
  | .u32be => 4
  | .u16be => 2

/-- `head2buf`; none is a text that names no header type. -/
def head2buf (h : Option Header) (body : List UInt8) : List UInt8 :=
  match h with
  | some .u64be => be 8 body.length++body
  | some .u32be => be 4 body.length++body
  | some .u16be => be 2 body.length++body
  | none => body

/-- The length of the buffer `Copy` reads into. -/
def bufSize : ℕ := 4096

/-- What one `Read` returns: at most a buffer of data, with or without an error. -/
structure ReadResult (ε : Type) where
  data : List UInt8
  err : Option ε
  fits : data.length ≤ bufSize

/-- The loop of `Copy`, with all the reader has returned to it, the bodies it framed and
what it wrote. -/
structure CopyState where
  received : List UInt8
  bodies : List (List UInt8)
  written : List UInt8
  total : ℕ
  broken : Bool

variable {ε : Type}

/-- One iteration on the result of its `Read`. -/
def copyStep (h : Option Header) (s : CopyState) (r : ReadResult ε) : CopyState :=
  if s.broken then s
  else if r.err.isSome then { s with received := s.received++r.data,broken := true }
  else
    let frame := head2buf h r.data
    { s with
      received := s.received++r.data
      bodies := s.bodies++[r.data]
      written := s.written++frame
      total := s.total+frame.length }

/-- `Copy` after `k` iterations. -/
def copy (h : Option Header) (src : ℕ → ReadResult ε) : ℕ → CopyState
  | 0 => { received := [],bodies := [],written := [],total := 0,broken := false }
  | k+1 => copyStep h (copy h src k) (src k)

/-- The bodies of frames with a header of `w` bytes; none when the bytes are not frames. -/
def decodeFrom (w : ℕ) : ℕ → List UInt8 → Option (List (List UInt8))
  | _, [] => some []
  | 0, _::_ => none
  | fuel+1, bs =>
    let n := ofBe (bs.take w)
    if w+n ≤ bs.length then
      (decodeFrom w fuel (bs.drop (w+n))).map (((bs.drop w).take n)::·)
    else none

def decode (h : Header) (bs : List UInt8) : Option (List (List UInt8)) :=
  decodeFrom h.width bs.length bs

/-- What was written decodes to all that was received, and no length was cut off. -/
structure CopyRight (h : Header) (s : CopyState) : Prop where
  lossless : (decode h s.written).map List.flatten = some s.received
  fits : ∀ body ∈ s.bodies, body.length < 256^h.width

/-- The first read with an error is the one numbered `i`. -/
def FirstError (src : ℕ → ReadResult ε) (i : ℕ) : Prop :=
  (src i).err.isSome ∧ ∀ j < i, (src j).err = none

theorem width_pos (h : Header) : 0 < h.width := by cases h <;> decide

theorem head2buf_eq (h : Header) (body : List UInt8) :
    head2buf (some h) body = be h.width body.length++body := by cases h <;> rfl

theorem bufSize_lt (h : Header) : bufSize < 256^h.width := by cases h <;> decide

/-- A frame in front of other bytes is decoded first. -/
theorem decodeFrom_frame {w : ℕ} (hw : 0 < w) {body : List UInt8} (hb : body.length < 256^w)
    (rest : List UInt8) (fuel : ℕ) :
    decodeFrom w (fuel+1) (be w body.length++body++rest) =
      (decodeFrom w fuel rest).map (body::·) := by
  have htake : (be w body.length++body++rest).take w = be w body.length := by
    rw [List.append_assoc,List.take_left' (be_length w _)]
  have hdrop : (be w body.length++body++rest).drop w = body++rest := by
    rw [List.append_assoc,List.drop_left' (be_length w _)]
  have hlen : ofBe (be w body.length) = body.length := ofBe_be_of_lt hb
  obtain ⟨x,xs,hx⟩ : ∃ x xs, be w body.length++body++rest = x::xs := by
    refine List.exists_cons_of_ne_nil fun h => ?_
    have := congrArg List.length h
    simp at this
    omega
  have hall : w+body.length ≤ (be w body.length++body++rest).length := by simp
  rw [hx] at htake hdrop hall ⊢
  rw [decodeFrom,htake,hlen,if_pos hall,← List.drop_drop,hdrop,List.drop_left,List.take_left]
  exact List.cons_ne_nil x xs

/-- Frames decode to their bodies. -/
theorem decodeFrom_frames {w : ℕ} (hw : 0 < w) {bodies : List (List UInt8)}
    (hb : ∀ body ∈ bodies, body.length < 256^w) {fuel : ℕ} (hf : bodies.length ≤ fuel) :
    decodeFrom w fuel (bodies.flatMap fun body => be w body.length++body) = some bodies := by
  induction bodies generalizing fuel with
  | nil => cases fuel <;> rfl
  | cons body bodies ih =>
    obtain ⟨fuel,rfl⟩ : ∃ n, fuel = n+1 := ⟨fuel-1,by simp at hf; omega⟩
    rw [List.forall_mem_cons] at hb
    rw [List.flatMap_cons,decodeFrom_frame hw hb.1,ih hb.2 (by simpa using hf)]
    rfl

/-- What the iterations have left: frames of all bodies, and behind them what came with
the first error. -/
structure Framed (h : Header) (src : ℕ → ReadResult ε) (s : CopyState) (k : ℕ) : Prop where
  written : s.written = s.bodies.flatMap fun body => be h.width body.length++body
  fits : ∀ body ∈ s.bodies, body.length < 256^h.width
  running : s.broken = false → s.received = s.bodies.flatten ∧ ∀ j < k, (src j).err = none
  stopped : s.broken = true →
    ∃ i < k, FirstError src i ∧ s.received = s.bodies.flatten++(src i).data

theorem Framed.step {h : Header} {src : ℕ → ReadResult ε} {s : CopyState} {k : ℕ}
    (f : Framed h src s k) : Framed h src (copyStep (some h) s (src k)) (k+1) := by
  rw [copyStep]
  split_ifs with hbroken herr
  · obtain ⟨i,hi,hstop⟩ := f.stopped hbroken
    refine ⟨f.written,f.fits,fun hb => ?_,fun _ => ⟨i,by omega,hstop⟩⟩
    rw [hbroken] at hb
    cases hb
  · obtain ⟨hrec,hnone⟩ := f.running (Bool.eq_false_iff.mpr hbroken)
    refine ⟨f.written,f.fits,fun hb => ?_,fun _ => ⟨k,by omega,⟨herr,hnone⟩,?_⟩⟩
    · cases hb
    · show s.received++_ = _
      rw [hrec]
  · obtain ⟨hrec,hnone⟩ := f.running (Bool.eq_false_iff.mpr hbroken)
    refine ⟨?_,?_,fun _ => ⟨?_,?_⟩,fun hb => absurd hb hbroken⟩
    · simp only [List.flatMap_append,List.flatMap_singleton,f.written,head2buf_eq]
    · intro body hbody
      rcases List.mem_append.mp hbody with hbody | hbody
      · exact f.fits body hbody
      · rw [List.mem_singleton.mp hbody]
        exact lt_of_le_of_lt (src k).fits (bufSize_lt h)
    · simp [hrec]
    · intro j hj
      rcases Nat.lt_succ_iff_lt_or_eq.mp hj with hj | rfl
      · exact hnone j hj
      · simpa using herr

theorem framed_copy (h : Header) (src : ℕ → ReadResult ε) (k : ℕ) :
    Framed h src (copy (some h) src k) k := by
  induction k with
  | zero =>
    refine ⟨rfl,by simp [copy],fun _ => ⟨rfl,by simp⟩,fun hb => ?_⟩
    cases hb
  | succ k ih => exact ih.step

theorem Framed.decode {h : Header} {src : ℕ → ReadResult ε} {s : CopyState} {k : ℕ}
    (f : Framed h src s k) : decode h s.written = some s.bodies := by
  rw [ConnCopy.decode,f.written]
  refine decodeFrom_frames (width_pos h) f.fits ?_
  -- a frame is no shorter than its header
  have hw := width_pos h
  induction s.bodies with
  | nil => simp
  | cons body bodies ih =>
    rw [List.flatMap_cons,List.length_append,List.length_append,be_length,List.length_cons]
    omega

theorem Framed.right_iff {h : Header} {src : ℕ → ReadResult ε} {s : CopyState} {k : ℕ}
    (f : Framed h src s k) : CopyRight h s ↔ s.received = s.bodies.flatten := by
  constructor
  · intro hr
    have hl := hr.lossless
    rw [f.decode] at hl
    exact (Option.some.inj hl).symm
  · intro hr
    exact ⟨by rw [f.decode,hr]; rfl,f.fits⟩

theorem FirstError.unique {src : ℕ → ReadResult ε} {i j : ℕ} (hi : FirstError src i)
    (hj : FirstError src j) : i = j := by
  rcases lt_trichotomy i j with hlt | heq | hlt
  · have := hi.1
    rw [hj.2 i hlt] at this
    cases this
  · exact heq
  · have := hj.1
    rw [hi.2 j hlt] at this
    cases this

/-- A copy with a header loses nothing exactly if the read that ends it returns no data. -/
theorem copy_right_iff (h : Header) (src : ℕ → ReadResult ε) :
    (∀ k, CopyRight h (copy (some h) src k)) ↔ ∀ i, FirstError src i → (src i).data = [] := by
  constructor
  · intro hright i hi
    have f := framed_copy h src (i+1)
    have hrec := f.right_iff.mp (hright (i+1))
    cases hb : (copy (some h) src (i+1)).broken with
    | false =>
      have hnone := (f.running hb).2 i (Nat.lt_succ_self i)
      rw [FirstError,hnone] at hi
      cases hi.1
    | true =>
      obtain ⟨i',-,hi',hrec'⟩ := f.stopped hb
      rw [hi.unique hi']
      rw [hrec] at hrec'
      exact (List.self_eq_append_right.mp hrec')
  · intro hdata k
    have f := framed_copy h src k
    rw [f.right_iff]
    cases hb : (copy (some h) src k).broken with
    | false => exact (f.running hb).1
    | true =>
      obtain ⟨i,-,hi,hrec⟩ := f.stopped hb
      rw [hrec,hdata i hi,List.append_nil]

/-- One byte that comes together with the end of the stream. -/
theorem last_read_lost :
    ¬∀ k, CopyRight .u16be (copy (some .u16be) (fun _ => ⟨[7],some (),by decide⟩) k) := by
  intro h
  have hl := (h 1).lossless
  revert hl
  decide

end ConnCopy
end RecycleBin
