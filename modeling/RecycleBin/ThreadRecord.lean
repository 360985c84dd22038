import RecycleBin.ThreadProto

/-! Reading length-prefixed records from a stream socket: `readn` and `readvrec` of
`thread/proto.h`. The transport decides how the stream is cut into reads. -/
namespace RecycleBin
namespace ThreadRecord
open Bytes ThreadProto

/-- What the next `read` meets: an interrupted call, another error, or a fragment
of the stream. Behind the last event the stream is at its end. -/
inductive Event
  | eintr
  | fail
  | data (bytes : List UInt8)
  deriving DecidableEq

inductive ReadResult
  | eintr
  | fail
  | got (bytes : List UInt8)
  deriving DecidableEq

/-- `read(s, p, len)`: a fragment longer than `len` leaves its rest for later reads. -/
def read : List Event → ℕ → ReadResult × List Event
  | [], _ => (.got [],[])
  | .eintr::es, _ => (.eintr,es)
  | .fail::es, _ => (.fail,es)
  | .data bytes::es, len =>
    if bytes.length ≤ len then (.got bytes,es)
    else (.got (bytes.take len),.data (bytes.drop len)::es)

/-- Calls and bytes the transport still has to give. -/
def weight : List Event → ℕ
  | [] => 0
  | .data bytes::es => bytes.length+1+weight es
  | _::es => 1+weight es

theorem weight_read_eintr {es es' : List Event} {len : ℕ} (h : read es len = (.eintr,es')) :
    weight es' < weight es := by
  cases es with
  | nil => simp [read] at h
  | cons e es =>
    cases e <;> simp only [read,Prod.mk.injEq,reduceCtorEq,false_and,true_and] at h
    · subst h
      simp [weight]
    · split_ifs at h <;> simp at h

theorem weight_read_got {es es' : List Event} {len : ℕ} {bytes : List UInt8}
    (h : read es len = (.got bytes,es')) (hb : bytes ≠ []) : weight es' < weight es := by
  cases es with
  | nil =>
    simp only [read,Prod.mk.injEq,ReadResult.got.injEq] at h
    exact absurd h.1.symm hb
  | cons e es =>
    cases e <;> simp only [read,Prod.mk.injEq,reduceCtorEq,false_and] at h
    rename_i bs
    split_ifs at h <;> simp only [Prod.mk.injEq,ReadResult.got.injEq] at h
    · rw [← h.2]
      simp [weight]
    · have hpos : 0 < (bs.take len).length := by
        rw [h.1]
        exact List.length_pos_iff.mpr hb
      rw [List.length_take] at hpos
      rw [← h.2]
      simp [weight]
      omega

/-- The loop of `readn`: `len` bytes are still wanted, the next one goes to `buf[p]`.
An error other than EINTR and the end of the stream leave the loop. -/
def readLoop (es : List Event) (buf : List UInt8) (p len : ℕ) :
    Except Fault (ℕ × List UInt8 × List Event) :=
  if len = 0 then .ok (len,buf,es)
  else
    match _h : read es len with
    | (.eintr,es') => readLoop es' buf p len
    | (.fail,es') => .ok (len,buf,es')
    | (.got bytes,es') =>
      if _hb : bytes = [] then .ok (len,buf,es')
      else do
        let buf' ← writeAt buf p bytes
        readLoop es' buf' (p+bytes.length) (len-bytes.length)
termination_by weight es
decreasing_by
  · exact weight_read_eintr _h
  · exact weight_read_got _h _hb

/-- `readn`: the number of bytes read, the buffer and the rest of the stream. -/
def readn (es : List Event) (buf : List UInt8) (count : ℕ) :
    Except Fault (ℤ × List UInt8 × List Event) := do
  let r ← readLoop es buf 0 count
  .ok ((count : ℤ)-r.1,r.2.1,r.2.2)

/-- The caller's `(*p, *n)` and the stream behind the socket. -/
structure Reader where
  p : Option (List UInt8)
  n : ℤ
  stream : List Event
  deriving DecidableEq

/-- Conversions between `int` and `uint32_t`. -/
def toU32 (z : ℤ) : ℕ := (z%2^32).toNat
def toI32 (m : ℕ) : ℤ := if m < 2^31 then m else (m : ℤ)-2^32

/-- Fresh memory, or NULL when none is available. Its contents are not specified. -/
def malloc (avail : Bool) (size : ℕ) : Option (List UInt8) :=
  if avail then some (List.replicate size 0) else none

/-- `realloc`: a negative size is an unservable `size_t`. -/
def realloc (avail : Bool) (buf : List UInt8) (size : ℤ) : Option (List UInt8) :=
  if avail ∧ 0 ≤ size then
    some ((buf++List.replicate (size.toNat-buf.length) 0).take size.toNat)
  else none

def prepare (avail : Bool) (r : Reader) : Reader :=
  if r.p = none ∨ r.n = 0 then { r with p := malloc avail 500,n := 500 } else r

/-- Make room for `headlen` bytes: at least double the buffer when that is enough. -/
def grow (avail : Bool) (headlen : ℕ) (buf : List UInt8) (n : ℤ) :
    Except Fault (Option (List UInt8 × ℤ)) :=
  if toU32 n < headlen then
    if 2^31 ≤ 2*n ∨ 2*n < -2^31 then .error .undefined
    else
      let needed := if headlen < toU32 (2*n) then 2*n else toI32 headlen
      .ok ((realloc avail buf needed).map fun newp => (newp,needed))
  else .ok (some (buf,n))

/-- `readvrec`: the return value and the caller's variables afterwards. -/
def readvrec (avail : Bool) (r : Reader) : Except Fault (ℤ × Reader) :=
  let r := prepare avail r
  match r.p with
  | none => .ok (-1,r)
  | some buf => do
    let h ← readn r.stream (List.replicate 4 0) 4
    if h.1 ≠ 4 then .ok (if h.1 < 0 then -1 else 0,{ r with stream := h.2.2 })
    else
      let headlen := ofBe h.2.1
      match ← grow avail headlen buf r.n with
      | none => .ok (-1,{ r with stream := h.2.2 })
      | some (buf,n) =>
        let d ← readn h.2.2 buf headlen
        let r := { p := some d.2.1,n := n,stream := d.2.2 }
        if d.1 ≠ headlen then .ok (if d.1 < 0 then -1 else 0,r) else .ok (d.1,r)

/-- The bytes of the stream, whatever its fragmentation. -/
def content : List Event → List UInt8
  | [] => []
  | .data bytes::es => bytes++content es
  | _::es => content es

/-- A fragmentation into reads of positive size with interruptions. -/
def Clean (es : List Event) : Prop := ∀ e ∈ es, e = .eintr ∨ ∃ bytes, e = .data bytes ∧ bytes ≠ []

theorem readLoop_zero (es : List Event) (buf : List UInt8) (p : ℕ) :
    readLoop es buf p 0 = .ok (0,buf,es) := by
  rw [readLoop,if_pos rfl]

theorem readLoop_end {buf : List UInt8} {p len : ℕ} (hl : len ≠ 0) :
    readLoop [] buf p len = .ok (len,buf,[]) := by
  rw [readLoop,if_neg hl]
  simp [read]

theorem readLoop_eintr {es : List Event} {buf : List UInt8} {p len : ℕ} (hl : len ≠ 0) :
    readLoop (.eintr::es) buf p len = readLoop es buf p len := by
  rw [readLoop,if_neg hl]
  simp [read]

/-- A read that got bytes stores them and goes on. -/
theorem readLoop_got {es es' : List Event} {bytes buf buf' : List UInt8} {p len : ℕ}
    (hl : len ≠ 0) (h : read es len = (.got bytes,es')) (hb : bytes ≠ [])
    (hw : writeAt buf p bytes = .ok buf') :
    readLoop es buf p len = readLoop es' buf' (p+bytes.length) (len-bytes.length) := by
  rw [readLoop,if_neg hl]
  split
  next h₁ =>
    rw [h] at h₁
    cases h₁
  next h₁ =>
    rw [h] at h₁
    cases h₁
  next h₁ =>
    rw [h] at h₁
    cases h₁
    rw [dif_neg hb,hw,ok_bind]

/-- A fragment that is wanted as a whole. -/
theorem readLoop_data {es : List Event} {bytes buf buf' : List UInt8} {p len : ℕ}
    (hb : bytes ≠ []) (hl : bytes.length ≤ len) (hw : writeAt buf p bytes = .ok buf') :
    readLoop (.data bytes::es) buf p len =
      readLoop es buf' (p+bytes.length) (len-bytes.length) := by
  have hl₀ : len ≠ 0 := by
    have := List.length_pos_iff.mpr hb
    omega
  exact readLoop_got hl₀ (by rw [read,if_pos hl]) hb hw

/-- A fragment that holds more than is wanted. -/
theorem readLoop_data_long {es : List Event} {bytes buf buf' : List UInt8} {p len : ℕ}
    (hl₀ : len ≠ 0) (hl : len < bytes.length) (hw : writeAt buf p (bytes.take len) = .ok buf') :
    readLoop (.data bytes::es) buf p len = .ok (0,buf',.data (bytes.drop len)::es) := by
  have htake : (bytes.take len).length = len := by
    rw [List.length_take]
    omega
  have hne : bytes.take len ≠ [] := List.ne_nil_of_length_pos (by omega)
  have hlong : ¬bytes.length ≤ len := by omega
  rw [readLoop_got hl₀ (by rw [read,if_neg hlong]) hne hw,htake,Nat.sub_self,readLoop_zero]

/-- Under every fragmentation the loop gets the next `len` bytes of the stream. -/
theorem readLoop_full (es : List Event) (pre old post : List UInt8) (hc : Clean es)
    (hlen : old.length ≤ (content es).length) :
    ∃ es', readLoop es (pre++old++post) pre.length old.length =
        .ok (0,pre++(content es).take old.length++post,es') ∧
      content es' = (content es).drop old.length ∧ Clean es' := by
  induction es generalizing pre old with
  | nil =>
    have ho : old = [] := List.length_eq_zero_iff.mp (by simpa [content] using hlen)
    subst ho
    exact ⟨[],by simp [readLoop_zero],by simp [content],hc⟩
  | cons e es ih =>
    have hc' : Clean es := fun e he => hc e (by simp [he])
    by_cases ho : old = []
    · subst ho
      exact ⟨e::es,by simp [readLoop_zero],by simp,hc⟩
    have hl₀ : old.length ≠ 0 := fun hz => ho (List.length_eq_zero_iff.mp hz)
    rcases hc e (by simp) with rfl | ⟨bytes,rfl,hb⟩
    · rw [readLoop_eintr hl₀]
      exact ih pre old hc' hlen
    · simp only [content,List.length_append] at hlen ⊢
      by_cases hle : bytes.length ≤ old.length
      · rcases exists_split hle with ⟨old₁,old₂,rfl,h₁⟩
        have hw : writeAt (pre++(old₁++old₂)++post) pre.length bytes =
            .ok (pre++bytes++(old₂++post)) := by
          rw [← List.append_assoc pre,List.append_assoc (pre++old₁)]
          exact writeAt_append rfl h₁.symm
        rw [readLoop_data hb hle hw]
        rw [List.length_append] at hlen
        rcases ih (pre++bytes) old₂ hc' (by omega) with ⟨es',hrun,hrest,hclean⟩
        have hsub : (old₁++old₂).length-bytes.length = old₂.length := by
          rw [List.length_append]
          omega
        have htake : (bytes++content es).take (old₁++old₂).length =
            bytes++(content es).take old₂.length := by
          rw [List.length_append,h₁,List.take_length_add_append]
        refine ⟨es',?_,?_,hclean⟩
        · rw [hsub,htake]
          simpa using hrun
        · rw [hrest,List.length_append,h₁,List.drop_length_add_append]
      · have hlt : old.length < bytes.length := by omega
        have hw : writeAt (pre++old++post) pre.length (bytes.take old.length) =
            .ok (pre++bytes.take old.length++post) :=
          writeAt_append rfl (by rw [List.length_take]; omega)
        refine ⟨.data (bytes.drop old.length)::es,?_,?_,?_⟩
        · rw [readLoop_data_long hl₀ hlt hw,List.take_append_of_le_length hlt.le]
        · rw [content,List.drop_append_of_le_length hlt.le]
        · intro e he
          rcases List.mem_cons.mp he with rfl | he
          · exact Or.inr ⟨_,rfl,by simpa using hlt⟩
          · exact hc' e he

/-- At the end of the stream interruptions are skipped and nothing is read. -/
theorem readLoop_eof (es : List Event) (buf : List UInt8) (p len : ℕ) (hc : Clean es)
    (hend : content es = []) (hl : len ≠ 0) : readLoop es buf p len = .ok (len,buf,[]) := by
  induction es with
  | nil => exact readLoop_end hl
  | cons e es ih =>
    rcases hc e (by simp) with rfl | ⟨bytes,rfl,hb⟩
    · rw [readLoop_eintr hl]
      exact ih (fun e he => hc e (by simp [he])) hend
    · simp only [content,List.append_eq_nil_iff] at hend
      exact absurd hend.1 hb

theorem readn_full (es : List Event) (old post : List UInt8) (hc : Clean es)
    (hlen : old.length ≤ (content es).length) :
    ∃ es', readn es (old++post) old.length =
        .ok ((old.length : ℤ),(content es).take old.length++post,es') ∧
      content es' = (content es).drop old.length ∧ Clean es' := by
  rcases readLoop_full es [] old post hc hlen with ⟨es',hrun,hrest,hclean⟩
  refine ⟨es',?_,hrest,hclean⟩
  simp only [List.nil_append,List.length_nil] at hrun
  rw [readn,hrun]
  simp

/-- The caller's variables describe a buffer: `*p` is NULL or has room for `*n` bytes. -/
def Valid (r : Reader) : Prop :=
  r.p = none ∨ ∃ buf, r.p = some buf ∧ 0 ≤ r.n ∧ r.n ≤ buf.length ∧ r.n < 2^31

/-- After the first lines of `readvrec` there is a buffer of positive size. -/
theorem prepare_valid {r : Reader} (h : Valid r) :
    ∃ buf, (prepare true r).p = some buf ∧ 0 < (prepare true r).n ∧
      (prepare true r).n ≤ buf.length ∧ (prepare true r).n < 2^31 ∧
      (prepare true r).stream = r.stream := by
  unfold prepare
  split_ifs with hz
  · refine ⟨List.replicate 500 0,rfl,by norm_num,?_,by norm_num,rfl⟩
    rw [List.length_replicate]
    norm_num
  · rw [not_or] at hz
    rcases h with h | ⟨buf,hp,h0,hle,hlt⟩
    · exact absurd h hz.1
    · exact ⟨buf,hp,lt_of_le_of_ne h0 (Ne.symm hz.2),hle,hlt,rfl⟩

/-- Growing for a record below `2^30` bytes gives room for it and never overflows. -/
theorem grow_room {headlen : ℕ} {buf : List UInt8} {n : ℤ} (hh : headlen < 2^30) (h0 : 0 < n)
    (hle : n ≤ buf.length) (hlt : n < 2^31) :
    ∃ buf' n', grow true headlen buf n = .ok (some (buf',n')) ∧ (headlen : ℤ) ≤ n' ∧
      n' ≤ buf'.length ∧ n' < 2^31 := by
  have hn : toU32 n = n.toNat := by
    rw [toU32,Int.emod_eq_of_lt (by omega) (by omega)]
  rw [grow,hn]
  by_cases hbig : n.toNat < headlen
  · have hover : ¬((2 : ℤ)^31 ≤ 2*n ∨ 2*n < -2^31) := by omega
    have h2n : toU32 (2*n) = (2*n).toNat := by
      rw [toU32,Int.emod_eq_of_lt (by omega) (by omega)]
    have hi : toI32 headlen = headlen := by
      rw [toI32,if_pos (by omega)]
    rw [if_pos hbig,if_neg hover,h2n,hi]
    -- The new size is `2 * n` or `headlen`, whichever is larger.
    have hneed : ∃ needed : ℤ, (if headlen < (2*n).toNat then 2*n else (headlen : ℤ)) = needed ∧
        (headlen : ℤ) ≤ needed ∧ needed < 2^31 := by
      refine ⟨_,rfl,?_,?_⟩ <;> split_ifs <;> omega
    rcases hneed with ⟨needed,he,hge,hmax⟩
    have hpos : 0 ≤ needed := by omega
    simp only [he,realloc,hpos,and_self,if_true,Option.map_some]
    refine ⟨_,_,rfl,hge,?_,hmax⟩
    rw [List.length_take,List.length_append,List.length_replicate]
    omega
  · exact ⟨buf,n,if_neg hbig,by omega,hle,hlt⟩

/-- One call delivers the next record of the stream. -/
theorem readvrec_record {r : Reader} {m rest : List UInt8} (hv : Valid r) (hc : Clean r.stream)
    (hm : m.length < 2^30) (hs : content r.stream = wire m++rest) :
    ∃ r', readvrec true r = .ok ((m.length : ℤ),r') ∧ content r'.stream = rest ∧
      Clean r'.stream ∧ Valid r' ∧
      ∃ buf, r'.p = some buf ∧ buf.take m.length = m ∧ (m.length : ℤ) ≤ r'.n := by
  rcases prepare_valid hv with ⟨buf,hp,h0,hle,hlt,hstream⟩
  have hwire : wire m = be 4 m.length++m := rfl
  rcases readn_full r.stream (List.replicate 4 0) [] hc (by simp [hs,hwire])
    with ⟨es₁,hread₁,hrest₁,hclean₁⟩
  have hhead : (content r.stream).take 4 = be 4 m.length := by
    rw [hs,hwire,List.append_assoc]
    exact List.take_left' (by simp)
  have hbody : content es₁ = m++rest := by
    rw [hrest₁,hs,hwire,List.append_assoc]
    exact List.drop_left' (by simp)
  have hword : ofBe (be 4 m.length) = m.length := ofBe_be_of_lt (by omega)
  rcases grow_room hm h0 hle hlt with ⟨buf',n',hgrow,hge,hle',hlt'⟩
  rcases exists_split (by omega : m.length ≤ buf'.length) with ⟨old,post,rfl,hold⟩
  rcases readn_full es₁ old post hclean₁ (by rw [hold,hbody]; simp) with
    ⟨es₂,hread₂,hrest₂,hclean₂⟩
  have htake : (content es₁).take old.length = m := by
    rw [hold,hbody,List.take_left]
  simp only [List.length_replicate,List.append_nil,hhead] at hread₁
  rw [htake,hold] at hread₂
  refine ⟨{ p := some (m++post),n := n',stream := es₂ },?_,?_,hclean₂,?_,?_⟩
  · simp only [readvrec,hp,hstream,hread₁,ok_bind,Nat.cast_ofNat,ne_eq,not_true_eq_false,if_false,
      hword,hgrow,hread₂]
  · rw [hrest₂,hbody,hold,List.drop_left]
  · refine Or.inr ⟨_,rfl,(Int.natCast_nonneg _).trans hge,?_,hlt'⟩
    simpa [hold] using hle'
  · exact ⟨_,rfl,List.take_left,hge⟩

/-- A call at the end of the stream returns 0. -/
theorem readvrec_end {r : Reader} (hv : Valid r) (hc : Clean r.stream)
    (hend : content r.stream = []) : ∃ r', readvrec true r = .ok (0,r') := by
  rcases prepare_valid hv with ⟨buf,hp,-,-,-,hstream⟩
  have hread : readn r.stream (List.replicate 4 0) 4 = .ok (0,List.replicate 4 0,[]) := by
    rw [readn,readLoop_eof r.stream _ 0 4 hc hend (by norm_num)]
    simp
  refine ⟨{ prepare true r with stream := [] },?_⟩
  simp only [readvrec,hp,hstream,hread,ok_bind]
  norm_num

/-- What the caller sees after a call: the result and `(*p, *n)`. -/
structure Seen where
  rv : ℤ
  p : Option (List UInt8)
  n : ℤ
  deriving DecidableEq

def call (_ : Unit) (r : Reader) : Except Fault (Seen × Reader) := do
  let c ← readvrec true r
  .ok (⟨c.1,c.2.p,c.2.n⟩,c.2)

/-- The call returned the message: its length, and its bytes at the start of `*p`. -/
def Delivers (c : Seen) (m : List UInt8) : Prop :=
  c.rv = m.length ∧ (∃ buf, c.p = some buf ∧ buf.take m.length = m) ∧ (m.length : ℤ) ≤ c.n

/-- Successive calls deliver the records in order and leave the stream behind them. -/
theorem calls_deliver (msgs : List (List UInt8)) (r : Reader) (rest : List UInt8) (hv : Valid r)
    (hc : Clean r.stream) (hlen : ∀ m ∈ msgs, m.length < 2^30)
    (hs : content r.stream = msgs.flatMap wire++rest) :
    ∃ cs r', runs call (List.replicate msgs.length ()) r = .ok (cs,r') ∧
      List.Forall₂ Delivers cs msgs ∧ content r'.stream = rest ∧ Clean r'.stream ∧ Valid r' := by
  induction msgs generalizing r with
  | nil => exact ⟨[],r,rfl,.nil,by simpa using hs,hc,hv⟩
  | cons m msgs ih =>
    rw [List.flatMap_cons,List.append_assoc] at hs
    rcases readvrec_record hv hc (hlen m (by simp)) hs with ⟨r₁,hcall,hs₁,hc₁,hv₁,buf,hp,htake,hn⟩
    rcases ih r₁ hv₁ hc₁ (fun m hm => hlen m (by simp [hm])) hs₁ with
      ⟨cs,r',hrun,hdel,hrest,hclean,hvalid⟩
    have hstep : call () r = .ok (⟨m.length,r₁.p,r₁.n⟩,r₁) := by simp [call,hcall]
    exact ⟨_,r',runs_cons_eq_ok.mpr ⟨_,_,_,hstep,hrun,rfl⟩,
      .cons ⟨rfl,⟨buf,hp,htake⟩,hn⟩ hdel,hrest,hclean,hvalid⟩

/-- Every fragmentation of the records into positive reads, with any interruptions:
the calls sharing `(p, n)` return the messages in order, and the next one returns 0. -/
theorem readvrec_stream (msgs : List (List UInt8)) (r : Reader) (hv : Valid r)
    (hc : Clean r.stream) (hmsg : ∀ m ∈ msgs, m ≠ [] ∧ m.length < 2^30)
    (hs : content r.stream = msgs.flatMap wire) :
    ∃ cs r' r'', runs call (List.replicate msgs.length ()) r = .ok (cs,r') ∧
      List.Forall₂ Delivers cs msgs ∧ readvrec true r' = .ok (0,r'') := by
  rcases calls_deliver msgs r [] hv hc (fun m hm => (hmsg m hm).2) (by simpa using hs) with
    ⟨cs,r',hrun,hdel,hrest,hclean,hvalid⟩
  rcases readvrec_end hvalid hclean hrest with ⟨r'',hend⟩
  exact ⟨cs,r',r'',hrun,hdel,hend⟩

/-- Two records in three fragments, one of them across the record boundary. -/
theorem readvrec_stream_three :
    ∃ cs r' r'', runs call (List.replicate 2 ())
        ⟨none,0,[.data [0,0],.eintr,.data [0,1,65,0,0,0],.data [2,66,67],.eintr]⟩ = .ok (cs,r') ∧
      List.Forall₂ Delivers cs [[65],[66,67]] ∧ readvrec true r' = .ok (0,r'') :=
  readvrec_stream [[65],[66,67]]
    ⟨none,0,[.data [0,0],.eintr,.data [0,1,65,0,0,0],.data [2,66,67],.eintr]⟩
    (Or.inl rfl) (by simp [Clean]) (by simp) (by decide)

end ThreadRecord
end RecycleBin
