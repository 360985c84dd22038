import RecycleBin.NgToken

/-! The tokenizer on bytes alone. The calls over a loaded buffer have the results of its bytes,
as far as these go. -/
namespace RecycleBin.NgToken

/-- A state of the loop on bytes: the flags, the bytes since `start`, and the arguments so far. -/
structure Scan where
  flags : Flags := { }
  raw : List UInt8 := []
  args : List (List UInt8) := []
  deriving DecidableEq,Repr

def Move.raw (raw : List UInt8) (b : UInt8) : Move → List UInt8
  | keep => raw++[b]
  | here => [b]
  | behind => []

/-- A round on the byte `b`: a result with its arguments, or the next state. -/
def Scan.step (v : Scan) (b : UInt8) : (Rc × List (List UInt8)) ⊕ Scan :=
  match v.flags.step b (v.args = []) with
  | .ret rc => .inl (rc,v.args)
  | .go f move => .inr ⟨f,move.raw v.raw b,v.args⟩
  | .word f rc =>
    let args := v.args++[decode v.raw.length (v.raw++[b])]
    match rc with
    | some rc => .inl (rc,args)
    | none => .inr ⟨f,v.raw++[b],args⟩

/-- One call on some bytes: its result and the bytes left, or the state behind them all. -/
def Scan.call : Scan → List UInt8 → (Rc × List (List UInt8) × List UInt8) ⊕ Scan
  | v, [] => .inr v
  | v, b::s =>
    match v.step b with
    | .inl (rc,args) => .inl (rc,args,s)
    | .inr v => call v s

/-- The results on some bytes, and the state behind them unless there was an error. -/
def Scan.results : Scan → ℕ → List UInt8 → List Event × Option Scan
  | v, _, [] => ([],some v)
  | v, pos, b::s =>
    match v.step b with
    | .inl (rc,args) =>
      if rc = .error then ([⟨rc,args,pos+1⟩],none)
      else
        let r := results { } (pos+1) s
        (⟨rc,args,pos+1⟩::r.1,r.2)
    | .inr v => results v (pos+1) s

/-- The results on the bytes of a file. -/
def tokens (f : List UInt8) : List Event :=
  match Scan.results { } 0 f with
  | (es,none) => es
  | (es,some v) => es++[⟨.fileDone,v.args,f.length⟩]

/-- The copy of a word does not look beyond the byte behind it. -/
theorem decode_append (n : ℕ) (s t : List UInt8) (h : n < s.length) :
    decode n (s++t) = decode n s := by
  induction n using Nat.strong_induction_on generalizing s with
  | _ n ih =>
    match n, s, h with
    | 0, _, _ => simp [decode]
    | n+1, b::[], h => simp at h
    | n+1, b::c::s, h =>
      have hs : n < (c::s).length := by simpa using h
      have h1 := ih n (by omega) (c::s) hs
      have h2 : decode (n-1) (s++t) = decode (n-1) s := by
        by_cases h0 : n = 0
        · simp [h0,decode]
        · exact ih (n-1) (by omega) s (by simp at hs; omega)
      simp only [List.cons_append] at h1 ⊢
      simp only [decode,h1,h2]

/-- The reader at a position, with these arguments. -/
def Reader.to (s : Reader) (p : ℕ) (args : List (List UInt8)) (line : ℕ) : Reader :=
  { s with line := line, args := args, buffer := { s.buffer with pos := p } }

/-- The buffer has been filled from the front of the file. -/
structure Loaded (f : List UInt8) (s : Reader) : Prop where
  content : s.file.content = f
  offset : s.offset = min f.length s.buffer.buf.length
  bytes : s.buffer.buf.take s.offset = f.take s.offset

/-- The bytes of the word are those before position `p`. -/
structure Fits (f : List UInt8) (p : ℕ) (v : Scan) : Prop where
  le : v.raw.length ≤ p
  bytes : (f.take p).drop (p-v.raw.length) = v.raw

theorem fits_start (f : List UInt8) (p : ℕ) : Fits f p { } :=
  ⟨by simp,by simp⟩

variable {f : List UInt8} {s : Reader} {p : ℕ} {v : Scan} {b : UInt8}

theorem Fits.push (h : Fits f p v) (hb : f[p]? = some b) (move : Move) (fl : Flags)
    (args : List (List UInt8)) : Fits f (p+1) ⟨fl,move.raw v.raw b,args⟩ := by
  have htake : f.take (p+1) = f.take p++[b] := by
    rw [List.take_add_one,hb]
    rfl
  have hp : p < f.length := (List.getElem?_eq_some_iff.mp hb).1
  have hlen : (f.take p).length = p := by
    rw [List.length_take]
    omega
  have hle := h.le
  cases move with
  | keep =>
    refine ⟨by simp [Move.raw]; omega,?_⟩
    simp only [Move.raw,List.length_append,List.length_singleton,htake]
    rw [show p+1-(v.raw.length+1) = p-v.raw.length by omega,
      List.drop_append_of_le_length (by omega),h.bytes]
  | here =>
    refine ⟨by simp [Move.raw],?_⟩
    simp only [Move.raw,List.length_singleton,htake,Nat.add_sub_cancel]
    rw [List.drop_append_of_le_length (by omega),List.drop_eq_nil_of_le (by omega),List.nil_append]
  | behind => exact ⟨by simp [Move.raw],by simp [Move.raw]⟩

/-- The word that ends at position `p` is the one of the state. -/
theorem Loaded.wordAt (hl : Loaded f s) (h : Fits f p v) (hb : f[p]? = some b) (hp : p < s.offset)
    (args : List (List UInt8)) (line : ℕ) :
    (s.to (p+1) args line).wordAt (p-v.raw.length) = decode v.raw.length (v.raw++[b]) := by
  have hle := h.le
  have hlen : p < f.length := (List.getElem?_eq_some_iff.mp hb).1
  have hfit := h.push hb .keep { } []
  have hbytes := hfit.bytes
  simp only [Move.raw,List.length_append,List.length_singleton,
    show p+1-(v.raw.length+1) = p-v.raw.length by omega] at hbytes
  -- the buffer from the start of the word on begins with the word and the byte behind it
  have htake : s.buffer.buf.take (p+1) = f.take (p+1) := by
    have := congrArg (List.take (p+1)) hl.bytes
    rwa [List.take_take,List.take_take,show min (p+1) s.offset = p+1 by omega] at this
  have hdrop : s.buffer.buf.drop (p-v.raw.length) =
      (v.raw++[b])++s.buffer.buf.drop (p+1) := by
    rw [← hbytes,← htake]
    have hcap : s.offset ≤ s.buffer.buf.length := by
      rw [hl.offset]
      omega
    rw [← List.drop_append_of_le_length (by rw [List.length_take]; omega),List.take_append_drop]
  simp only [Reader.wordAt,Reader.to,hdrop,Nat.add_sub_cancel,show p-(p-v.raw.length) =
    v.raw.length by omega]
  exact decode_append _ _ _ (by simp)

def countLine (b : UInt8) (line : ℕ) : ℕ := if b = 10 then line+1 else line

/-- A round inside the loaded bytes is a round on the next byte of the file. -/
theorem Loaded.round (hl : Loaded f s) (h : Fits f p v) (hb : f[p]? = some b) (hp : p < s.offset)
    (again : UInt8 → Flags → ℕ → Reader → Except Fault (Rc × Reader)) (ch : UInt8) (line : ℕ) :
    tokenRound again ch v.flags (p-v.raw.length) (s.to p v.args line) =
      match v.step b with
      | .inl (rc,args) => .ok (rc,s.to (p+1) args (countLine b line))
      | .inr v' =>
        again b v'.flags (p+1-v'.raw.length) (s.to (p+1) v'.args (countLine b line)) := by
  have hcap : s.offset ≤ s.buffer.buf.length := by
    rw [hl.offset]
    omega
  have hbuf : s.buffer.buf[p]? = some b := by
    have := congrArg (·[p]?) hl.bytes
    simpa [List.getElem?_take,hp,hb] using this
  have hnext : next (s.to p v.args line) ch = .ok (b,s.to (p+1) v.args (countLine b line)) := by
    simp [next,Reader.to,hp,hbuf,countLine]
  have hword := fun line => hl.wordAt h hb hp v.args line
  have hle := h.le
  rw [tokenRound,hnext,ok_bind]
  simp only [Scan.step]
  have hargs : (s.to (p+1) v.args (countLine b line)).args = v.args := rfl
  rw [hargs]
  cases hstep : v.flags.step b (v.args = []) with
  | ret rc => rfl
  | go fl move =>
    have hstart : Move.start (p-v.raw.length) (p+1) move = p+1-(move.raw v.raw b).length := by
      cases move <;> simp [Move.start,Move.raw]
    simp only [Reader.to] at hstart ⊢
    rw [hstart]
  | word fl rc =>
    cases rc with
    | some rc =>
      simp only [hword]
      rfl
    | none =>
      simp only [hword,List.length_append,List.length_singleton,
        show p+1-(v.raw.length+1) = p-v.raw.length by omega]
      rfl

/-- Inside the buffer the loop only makes rounds. -/
theorem tokenLoop_round (s : Reader) (fuel : ℕ) (ch : UInt8) (fl : Flags) (start : ℕ)
    (h0 : s.buffer.pos ≠ 0) (hcap : s.buffer.pos < s.buffer.buf.length) :
    tokenLoop (fuel+1) ch fl start s = tokenRound (tokenLoop fuel) ch fl start s := by
  have hno : ¬(s.buffer.pos ≥ s.buffer.buf.length ∨ s.buffer.pos = 0) := by omega
  simp only [tokenLoop,hno,if_false,ok_bind]

theorem Fits.step (h : Fits f p v) (hb : f[p]? = some b) {v' : Scan} (hs : v.step b = .inr v') :
    Fits f (p+1) v' := by
  unfold Scan.step at hs
  cases hstep : v.flags.step b (v.args = []) with
  | ret rc => simp [hstep] at hs
  | go fl move =>
    simp only [hstep,Sum.inr.injEq] at hs
    exact hs ▸ h.push hb move fl v.args
  | word fl rc =>
    cases rc with
    | some rc => simp [hstep] at hs
    | none =>
      simp only [hstep,Sum.inr.injEq] at hs
      exact hs ▸ h.push hb .keep fl _

/-- The first of the loaded bytes from `p` on. -/
theorem Loaded.first (hl : Loaded f s) {t : List UInt8} (ht : (f.take s.offset).drop p = b::t) :
    f[p]? = some b ∧ (f.take s.offset).drop (p+1) = t ∧ p+1+t.length = s.offset := by
  have hget : (f.take s.offset)[p]? = some b := by
    have := congrArg List.head? ht
    simpa using this
  have hrest : (f.take s.offset).drop (p+1) = t := by
    have := congrArg List.tail ht
    simpa using this
  have hoffset : s.offset ≤ f.length := by
    rw [hl.offset]
    omega
  have hlen : p+1+t.length = s.offset := by
    have := congrArg List.length ht
    rw [List.length_drop,List.length_take,List.length_cons] at this
    omega
  rw [List.getElem?_take_of_lt (by omega)] at hget
  exact ⟨hget,hrest,hlen⟩

/-- A call that starts inside the loaded bytes: it returns there, or comes to their end. -/
theorem Loaded.call (hl : Loaded f s) {t : List UInt8} (ht : (f.take s.offset).drop p = t)
    (hne : t ≠ []) (h : Fits f p v) (fuel : ℕ) (hfuel : t.length ≤ fuel) (ch : UInt8) (line : ℕ) :
    ∃ line', match v.call t with
      | .inl (rc,args,rest) =>
        tokenRound (tokenLoop fuel) ch v.flags (p-v.raw.length) (s.to p v.args line) =
          .ok (rc,s.to (s.offset-rest.length) args line')
      | .inr v' => v'.raw.length ≤ s.offset ∧
        ∃ last, t.getLast? = some last ∧
        tokenRound (tokenLoop fuel) ch v.flags (p-v.raw.length) (s.to p v.args line) =
          tokenLoop (fuel+1-t.length) last v'.flags (s.offset-v'.raw.length)
            (s.to s.offset v'.args line') := by
  induction t generalizing p v fuel ch line with
  | nil => exact (hne rfl).elim
  | cons b t ih =>
    have ⟨hb,hrest,hlen⟩ := hl.first ht
    have hp : p < s.offset := by omega
    have hround := hl.round h hb hp (tokenLoop fuel) ch line
    cases hs : v.step b with
    | inl r =>
      refine ⟨countLine b line,?_⟩
      simp only [Scan.call,hs] at hround ⊢
      rw [hround,show s.offset-t.length = p+1 by omega]
    | inr v' =>
      have hf := h.step hb hs
      simp only [Scan.call,hs] at hround ⊢
      rw [hround]
      cases t with
      | nil =>
        have he : p+1 = s.offset := by simpa using hlen
        refine ⟨countLine b line,?_⟩
        simp only [Scan.call]
        exact ⟨he ▸ hf.le,b,rfl,by simp [he]⟩
      | cons c t =>
        have hcap : s.offset ≤ s.buffer.buf.length := by
          rw [hl.offset]
          omega
        simp only [List.length_cons] at hlen hfuel
        obtain ⟨fuel,rfl⟩ : ∃ n, fuel = n+1 := ⟨fuel-1,by omega⟩
        have hloop := tokenLoop_round (s.to (p+1) v'.args (countLine b line)) fuel b v'.flags
          (p+1-v'.raw.length) (by simp [Reader.to]) (by simp only [Reader.to]; omega)
        rw [hloop]
        have hfuel' : (c::t).length ≤ fuel := by simpa using hfuel
        have ⟨line',hih⟩ := ih hrest (by simp) hf fuel hfuel' b (countLine b line)
        refine ⟨line',?_⟩
        cases hc : v'.call (c::t) with
        | inl r =>
          simp only [hc] at hih ⊢
          exact hih
        | inr v'' =>
          simp only [hc] at hih ⊢
          have ⟨h1,last,h2,h3⟩ := hih
          refine ⟨h1,last,by simpa using h2,?_⟩
          rw [h3]
          simp only [List.length_cons]
          rw [show fuel+1-(t.length+1) = fuel+1+1-(t.length+1+1) by omega]

/-- The bytes left by a call are the last ones. -/
theorem Scan.call_rest {v : Scan} {t rest : List UInt8} {rc : Rc} {args : List (List UInt8)}
    (h : v.call t = .inl (rc,args,rest)) :
    rest.length < t.length ∧ t.drop (t.length-rest.length) = rest := by
  induction t generalizing v with
  | nil => cases h
  | cons b t ih =>
    simp only [Scan.call] at h
    cases hs : v.step b with
    | inl r =>
      simp only [hs,Sum.inl.injEq,Prod.mk.injEq] at h
      obtain ⟨_,_,rfl⟩ := h
      simp
    | inr v' =>
      simp only [hs] at h
      have ⟨h1,h2⟩ := ih h
      simp only [List.length_cons]
      refine ⟨by omega,?_⟩
      rw [show t.length+1-rest.length = t.length-rest.length+1 by omega,List.drop_succ_cons]
      exact h2

/-- The results are those of one call and of what is left behind it. -/
theorem Scan.results_call (v : Scan) (pos : ℕ) (t : List UInt8) :
    v.results pos t = match v.call t with
      | .inl (rc,args,rest) =>
        if rc = .error then ([⟨rc,args,pos+t.length-rest.length⟩],none)
        else (⟨rc,args,pos+t.length-rest.length⟩::
            (Scan.results { } (pos+t.length-rest.length) rest).1,
          (Scan.results { } (pos+t.length-rest.length) rest).2)
      | .inr v' => ([],some v') := by
  induction t generalizing v pos with
  | nil => rfl
  | cons b t ih =>
    simp only [Scan.results,Scan.call]
    cases hs : v.step b with
    | inl r => simp only [List.length_cons,show pos+(t.length+1)-t.length = pos+1 by omega]
    | inr v' =>
      simp only [ih v' (pos+1),List.length_cons]
      cases hc : v'.call t with
      | inl r => simp only [show pos+1+t.length-r.2.2.length = pos+(t.length+1)-r.2.2.length by omega]
      | inr v'' => rfl

/-- The last byte is the one last seen, or a call has returned at it. -/
def LastSeen (t : List UInt8) (last : UInt8) : Prop :=
  t.getLast? = some last ∨ ∃ b v r, t.getLast? = some b ∧ Scan.step v b = .inl r

theorem LastSeen.of_drop {t rest : List UInt8} {k : ℕ} (h : t.drop k = rest) (hne : rest ≠ [])
    {last : UInt8} (hl : LastSeen rest last) : LastSeen t last := by
  have he : t.getLast? = rest.getLast? := by
    have hlt : k < t.length := by
      by_contra hn
      exact hne (h ▸ List.drop_eq_nil_of_le (by omega))
    rw [← h,List.getLast?_drop,if_neg (by omega)]
  cases hl with
  | inl hl => exact .inl (he.trans hl)
  | inr hl =>
    have ⟨b,v,r,hb,hs⟩ := hl
    exact .inr ⟨b,v,r,he.trans hb,hs⟩

theorem Scan.call_last {v : Scan} {t : List UInt8} {rc : Rc} {args : List (List UInt8)}
    (h : v.call t = .inl (rc,args,[])) (last : UInt8) : LastSeen t last := by
  induction t generalizing v with
  | nil => cases h
  | cons b t ih =>
    simp only [Scan.call] at h
    cases hs : v.step b with
    | inl r =>
      simp only [hs,Sum.inl.injEq,Prod.mk.injEq] at h
      rw [h.2.2]
      exact .inr ⟨b,v,r,rfl,hs⟩
    | inr v' =>
      simp only [hs] at h
      have hne : t ≠ [] := by
        intro he
        rw [he] at h
        cases h
      exact LastSeen.of_drop (t := b::t) (k := 1) rfl hne (ih h)

/-- The result a round returns with. -/
def Act.rc : Act → Option Rc
  | go _ _ => none
  | word _ rc => rc
  | ret rc => some rc

theorem Flags.space_rc (v : Flags) (b : UInt8) (empty : Bool) :
    (v.space b empty).rc ≠ some .fileDone := by
  unfold Flags.space
  split_ifs <;> simp [Act.rc]

theorem Flags.inWord_rc (v : Flags) (b : UInt8) : (v.inWord b).rc ≠ some .fileDone := by
  unfold Flags.inWord
  dsimp only
  split_ifs <;> simp [Act.rc]

/-- No byte ends the file. -/
theorem Flags.step_rc (v : Flags) (b : UInt8) (empty : Bool) :
    (v.step b empty).rc ≠ some .fileDone := by
  unfold Flags.step
  generalize (if b = 10 then { v with sharpComment := false } else v) = w
  dsimp only
  split_ifs
  · simp [Act.rc]
  · simp [Act.rc]
  · simp [Act.rc]
  · simp [Act.rc]
  · simp [Act.rc]
  · exact Flags.space_rc _ _ _
  · simp [Act.rc]
  · exact Flags.space_rc _ _ _
  · exact Flags.inWord_rc _ _

theorem Scan.step_rc {v : Scan} {b : UInt8} {rc : Rc} {args : List (List UInt8)}
    (h : v.step b = .inl (rc,args)) : (v.flags.step b (v.args = [])).rc = some rc := by
  unfold Scan.step at h
  cases hs : v.flags.step b (v.args = []) with
  | go fl move => simp [hs] at h
  | ret r =>
    simp only [hs,Sum.inl.injEq,Prod.mk.injEq] at h
    simp [Act.rc,h.1]
  | word fl r =>
    cases r with
    | none => simp [hs] at h
    | some r =>
      simp only [hs,Sum.inl.injEq,Prod.mk.injEq] at h
      simp [Act.rc,h.1]

theorem Scan.call_ne_fileDone {v : Scan} {t rest : List UInt8} {rc : Rc} {args : List (List UInt8)}
    (h : v.call t = .inl (rc,args,rest)) : rc ≠ .fileDone := by
  induction t generalizing v with
  | nil => cases h
  | cons b t ih =>
    simp only [Scan.call] at h
    cases hs : v.step b with
    | inl r =>
      simp only [hs,Sum.inl.injEq,Prod.mk.injEq] at h
      intro hrc
      exact Flags.step_rc _ _ _ ((Scan.step_rc hs).trans (by rw [h.1,hrc]))
    | inr v' =>
      simp only [hs] at h
      exact ih h

/-- What calls over loaded bytes come to: all results if there is an error, and otherwise the end
of the bytes with the state of the last call. -/
def Ends (s : Reader) (t : List UInt8) (x : Except Fault (List Event)) :
    List Event × Option Scan → Prop
  | (es,none) => x = .ok es
  | (es,some v) => v.raw.length ≤ s.offset ∧ ∃ k last line n,
      s.buffer.buf.length+2 ≤ k+s.offset ∧ LastSeen t last ∧
      x = (tokenLoop k last v.flags (s.offset-v.raw.length) (s.to s.offset v.args line) >>=
        record (calls n) >>= fun rest => .ok (es++rest))

/-- One result more in front. -/
theorem Ends.cons {t rest : List UInt8} {n : ℕ} {x : Except Fault (List Event)}
    {r : List Event × Option Scan} (h : Ends s rest x r) (hdrop : t.drop n = rest) (hrest : rest ≠ [])
    (e : Event) : Ends s t (x >>= fun es => .ok (e::es)) (e::r.1,r.2) := by
  obtain ⟨es,o⟩ := r
  cases o with
  | none =>
    simp only [Ends] at h ⊢
    rw [h,ok_bind]
  | some v =>
    have ⟨h1,k,last,line,n',h2,h3,h4⟩ := h
    refine ⟨h1,k,last,line,n',h2,h3.of_drop hdrop hrest,?_⟩
    rw [h4]
    cases (tokenLoop k last v.flags (s.offset-v.raw.length)
      (s.to s.offset v.args line) >>= record (NgToken.calls n')) <;> rfl

/-- The calls over the loaded bytes have the results of these bytes. -/
theorem Loaded.calls (hl : Loaded f s) {t : List UInt8} (ht : (f.take s.offset).drop p = t)
    (hne : t ≠ []) {n : ℕ} (hn : t.length ≤ n) (ch : UInt8) (line : ℕ) :
    Ends s t (tokenRound (tokenLoop (s.buffer.buf.length+1)) ch { } p (s.to p [] line) >>=
      record (NgToken.calls n)) (Scan.results { } p t) := by
  induction hk : t.length using Nat.strong_induction_on generalizing t p n ch line with
  | _ k ih =>
    subst hk
    have hcap : s.offset ≤ s.buffer.buf.length ∧ s.offset ≤ f.length := by
      rw [hl.offset]
      omega
    have hlen : p+t.length = s.offset := by
      have h1 := congrArg List.length ht
      have h2 : 0 < t.length := List.length_pos_iff.mpr hne
      rw [List.length_drop,List.length_take] at h1
      omega
    have ⟨line',hcall⟩ := hl.call ht hne (fits_start f p) (s.buffer.buf.length+1) (by omega) ch line
    simp only [List.length_nil,Nat.sub_zero] at hcall
    rw [Scan.results_call]
    cases hc : Scan.call { } t with
    | inr v =>
      simp only [hc] at hcall ⊢
      have ⟨h1,last,h2,h3⟩ := hcall
      refine ⟨h1,s.buffer.buf.length+1+1-t.length,last,line',n,by omega,.inl h2,?_⟩
      rw [h3]
      cases (tokenLoop (s.buffer.buf.length+1+1-t.length) last v.flags (s.offset-v.raw.length)
        (s.to s.offset v.args line') >>= record (NgToken.calls n)) <;> rfl
    | inl r =>
      obtain ⟨rc,args,rest⟩ := r
      simp only [hc] at hcall ⊢
      have ⟨hlt,hdrop⟩ := Scan.call_rest hc
      have hdone := Scan.call_ne_fileDone hc
      rw [hcall,ok_bind,hlen]
      by_cases herr : rc = .error
      · simp [herr,record,Ends,Reader.to]
      · have hrec : record (NgToken.calls n) (rc,s.to (s.offset-rest.length) args line') =
            (NgToken.calls n (s.to (s.offset-rest.length) args line') >>= fun es =>
              .ok (⟨rc,args,s.offset-rest.length⟩::es)) := by
          simp [record,herr,hdone,Reader.to]
        obtain ⟨n,rfl⟩ : ∃ n', n = n'+1 := ⟨n-1,by omega⟩
        have hread : readToken (s.to (s.offset-rest.length) args line') =
            tokenLoop (s.buffer.buf.length+2) 0 { } (s.offset-rest.length)
              (s.to (s.offset-rest.length) [] line') := rfl
        rw [hrec,if_neg herr,NgToken.calls,hread]
        by_cases hrest : rest = []
        · subst hrest
          simp only [List.length_nil,Nat.sub_zero] at hread ⊢
          refine ⟨by simp,s.buffer.buf.length+2,0,line',n,by omega,Scan.call_last hc 0,?_⟩
          simp [Scan.results]
        · -- the next call starts inside the loaded bytes
          have hpos : 0 < rest.length := List.length_pos_iff.mpr hrest
          have hdrop' : (f.take s.offset).drop (s.offset-rest.length) = rest := by
            rw [show s.offset-rest.length = p+(t.length-rest.length) by omega,← List.drop_drop,ht,
              hdrop]
          have hloop := tokenLoop_round (s.to (s.offset-rest.length) [] line') (s.buffer.buf.length+1) 0
            { } (s.offset-rest.length)
            (by simp only [Reader.to]; omega) (by simp only [Reader.to]; omega)
          have hih := ih rest.length hlt hdrop' hrest (n := n) (by omega) 0 line' rfl
          rw [hloop]
          exact hih.cons hdrop hrest _

/-- The reader of a file just opened once its buffer has been filled. -/
def loaded (cap : ℕ) (f : List UInt8) : Reader where
  file := { content := f, offset := min f.length cap }
  offset := min f.length cap
  buffer := { buf := f.take (min f.length cap)++(List.replicate cap 0).drop (min f.length cap) }

theorem loaded_spec (cap : ℕ) (f : List UInt8) :
    Loaded f (loaded cap f) ∧ (loaded cap f).buffer.buf.length = cap := by
  have hlen : (loaded cap f).buffer.buf.length = cap := by
    simp only [loaded,List.length_append,List.length_take,List.length_drop,List.length_replicate]
    omega
  refine ⟨⟨rfl,by rw [hlen]; rfl,?_⟩,hlen⟩
  exact List.take_left' (by simp [loaded])

/-- The first call fills the buffer. -/
theorem readToken_opened {cap : ℕ} (hf : f ≠ []) :
    readToken (opened cap f) =
      tokenRound (tokenLoop (cap+1)) 0 { } 0 ((loaded cap f).to 0 [] 0) := by
  have hlen : 0 < f.length := List.length_pos_iff.mpr hf
  have hbytes : (f.take (min f.length cap)).length = min f.length cap := by simp
  have hread : read ⟨f,0⟩ ⟨0,List.replicate cap 0⟩ (min f.length cap) =
      .ok (some (min f.length cap),⟨f,min f.length cap⟩,(loaded cap f).buffer) := by
    have hle : 0 ≤ min f.length cap ∧ min f.length cap ≤ (List.replicate cap (0 : UInt8)).length := by
      simp
    have hne : ¬(f.take (min f.length cap) = [] ∧ 0 < min f.length cap) := by
      intro ⟨h1,h2⟩
      rw [h1] at hbytes
      simp only [List.length_nil] at hbytes
      omega
    rw [read,if_pos hle]
    simp only [List.drop_zero,Nat.sub_zero,hne,if_false,hbytes,Nat.zero_add,List.take_zero,
      List.nil_append,loaded]
  have hrefill : refill (opened cap f) 0 = .ok (.inr 0,(loaded cap f).to 0 [] 0) := by
    simp only [refill,opened,Nat.sub_zero,show ¬f.length = 0 by omega,if_false,gt_iff_lt,
      Nat.lt_irrefl,ok_bind,List.length_replicate,hread,ne_eq,not_true_eq_false,Nat.zero_add]
    rfl
  have hstart : (opened cap f).buffer.buf.length = cap := by simp [opened]
  have hloop : tokenLoop (cap+2) 0 { } 0 (opened cap f) =
      tokenRound (tokenLoop (cap+1)) 0 { } 0 ((loaded cap f).to 0 [] 0) := by
    have hpos : (opened cap f).buffer.pos ≥ (opened cap f).buffer.buf.length ∨
        (opened cap f).buffer.pos = 0 := .inr rfl
    rw [tokenLoop,if_pos hpos,hrefill,ok_bind]
  have hread : readToken (opened cap f) = tokenLoop (cap+2) 0 { } 0 (opened cap f) := by
    rw [readToken,hstart]
    rfl
  rw [hread,hloop]

/-- The calls on a file that is not empty have the results of the bytes that fit the buffer. -/
theorem stream_ends {cap : ℕ} (hcap : 0 < cap) (hf : f ≠ []) :
    Ends (loaded cap f) (f.take cap) (stream cap f) (Scan.results { } 0 (f.take cap)) := by
  have ⟨hl,hbuf⟩ := loaded_spec cap f
  have htake : (f.take (loaded cap f).offset).drop 0 = f.take cap := by
    simp only [loaded,List.drop_zero]
    rw [Nat.min_comm,← List.take_take,List.take_length]
  have hne : f.take cap ≠ [] := by
    simp [hf]
    omega
  have hlen : (f.take cap).length ≤ cap+1 := by
    rw [List.length_take]
    omega
  have h := hl.calls htake hne hlen 0 0
  rw [hbuf,← readToken_opened hf] at h
  exact h

end RecycleBin.NgToken
