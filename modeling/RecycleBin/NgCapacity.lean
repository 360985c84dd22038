import RecycleBin.NgBuffer

/-! When the capacity of the buffer does not matter. What differs is what happens at the end of
the buffer and at the end of the file: bytes are read behind the buffer, and the last byte is seen
again behind the file. -/
namespace RecycleBin.NgToken

/-- What a caller sees of a result. -/
def Event.outcome (e : Event) : Rc × List (List UInt8) := (e.rc,e.args)

/-- The outcomes are those of the bytes of the file, and no round has been made on a byte behind
them. -/
def Faithful (cap : ℕ) (f : List UInt8) : Prop :=
  ∃ es, stream cap f = .ok es ∧ es.map Event.outcome = (tokens f).map Event.outcome ∧
    ∀ e ∈ es, e.pos ≤ f.length

/-- With either capacity there are the outcomes that the bytes of the file determine. -/
def Independent (f : List UInt8) (c d : ℕ) : Prop := Faithful c f ∧ Faithful d f

/-- The file is empty, it is as long as the buffer, or there is an error in the bytes that fit. -/
def Whole (cap : ℕ) (f : List UInt8) : Prop :=
  f = [] ∨ cap = f.length ∨ (Scan.results { } 0 (f.take cap)).2 = none

/-- The buffer ends where no byte of a word has been seen, at least as many bytes are left, and
an error comes next. -/
def Halted (cap : ℕ) (f : List UInt8) : Prop :=
  ∃ v pos, (Scan.results { } 0 (f.take cap)).2 = some v ∧ v.raw = [] ∧ 2*cap ≤ f.length ∧
    v.results cap (f.drop cap) = ([⟨.error,v.args,pos⟩],none)

theorem Scan.results_append (v : Scan) (pos : ℕ) (t u : List UInt8) :
    v.results pos (t++u) = match v.results pos t with
      | (es,none) => (es,none)
      | (es,some v') => (es++(v'.results (pos+t.length) u).1,(v'.results (pos+t.length) u).2) := by
  induction t generalizing v pos with
  | nil => simp [Scan.results]
  | cons b t ih =>
    simp only [List.cons_append,Scan.results,List.length_cons]
    cases hs : v.step b with
    | inr v' => simp only [ih,show pos+1+t.length = pos+(t.length+1) by omega]
    | inl r =>
      by_cases herr : r.1 = .error
      · simp only [herr,if_true]
      · simp only [herr,if_false,ih,show pos+1+t.length = pos+(t.length+1) by omega]
        cases hr : Scan.results { } (pos+1) t with
        | mk es o => cases o <;> simp

theorem Scan.results_pos (v : Scan) (pos : ℕ) (t : List UInt8) :
    ∀ e ∈ (v.results pos t).1, e.pos ≤ pos+t.length := by
  induction t generalizing v pos with
  | nil => simp [Scan.results]
  | cons b t ih =>
    intro e he
    have hlen : (b::t).length = t.length+1 := rfl
    simp only [Scan.results] at he
    cases hs : v.step b with
    | inr v' =>
      have := ih v' (pos+1) e (by simpa [hs] using he)
      omega
    | inl r =>
      by_cases herr : r.1 = .error
      · have he' : e = ⟨.error,r.2,pos+1⟩ := by simpa [hs,herr] using he
        rw [he']
        simp only
        omega
      · have he' : e = ⟨r.1,r.2,pos+1⟩ ∨ e ∈ (Scan.results { } (pos+1) t).1 := by
          simpa [hs,herr] using he
        cases he' with
        | inl h =>
          rw [h]
          simp only
          omega
        | inr h =>
          have := ih { } (pos+1) e h
          omega

/-- An error in the bytes that fit is the error of the file. -/
theorem tokens_of_none {f : List UInt8} {cap : ℕ} {es : List Event}
    (h : Scan.results { } 0 (f.take cap) = (es,none)) : tokens f = es := by
  have happ := Scan.results_append { } 0 (f.take cap) (f.drop cap)
  rw [List.take_append_drop,h] at happ
  simp [tokens,happ]

variable {f : List UInt8} {s : Reader} {cap : ℕ} {v : Scan}

theorem record_ok {again : Reader → Except Fault (List Event)} {r : Rc × Reader}
    {es : List Event} (h : record again r = .ok es) :
    ∃ rest, es = ⟨r.1,r.2.args,r.2.buffer.pos⟩::rest := by
  unfold record at h
  by_cases hr : r.1 = .error ∨ r.1 = .fileDone
  · rw [if_pos hr] at h
    exact ⟨[],by simpa using h.symm⟩
  · rw [if_neg hr] at h
    cases ha : again r.2 with
    | error e => simp [ha,Bind.bind,Except.bind] at h
    | ok rest => exact ⟨rest,by simpa [ha,Bind.bind,Except.bind] using h.symm⟩

theorem next_ok {ch : UInt8} {c : UInt8 × Reader} (h : next s ch = .ok c) :
    c.2.buffer.pos = s.buffer.pos+1 ∧ c.2.file = s.file ∧ c.2.offset = s.offset := by
  unfold next at h
  by_cases hlt : s.buffer.pos < s.offset
  · cases hb : s.buffer.buf[s.buffer.pos]? with
    | none => simp [hlt,hb,Bind.bind,Except.bind] at h
    | some b =>
      simp only [hlt,if_true,hb,ok_bind,Except.ok.injEq] at h
      simp [← h]
  · simp only [hlt,if_false,ok_bind,Except.ok.injEq] at h
    simp [← h]

/-- There is nothing left to read. -/
def Drained (s : Reader) : Prop := s.file.content.length-s.offset = 0

theorem tokenRound_pos {again : UInt8 → Flags → ℕ → Reader → Except Fault (Rc × Reader)}
    (hagain : ∀ {ch fl start s r}, Drained s → again ch fl start s = .ok r →
      s.buffer.pos ≤ r.2.buffer.pos)
    {ch : UInt8} {fl : Flags} {start : ℕ} {r : Rc × Reader} (hsize : Drained s)
    (h : tokenRound again ch fl start s = .ok r) : s.buffer.pos < r.2.buffer.pos := by
  unfold tokenRound at h
  cases hn : next s ch with
  | error e => simp [hn,Bind.bind,Except.bind] at h
  | ok c =>
    have ⟨hpos,hfile,hoff⟩ := next_ok hn
    have hsize' : Drained c.2 := by
      rw [Drained,hfile,hoff]
      exact hsize
    simp only [hn,ok_bind] at h
    cases hstep : fl.step c.1 (c.2.args = []) with
    | ret rc =>
      simp only [hstep,Except.ok.injEq] at h
      simp [← h,hpos]
    | go fl' move =>
      simp only [hstep] at h
      have := hagain hsize' h
      omega
    | word fl' rc =>
      cases rc with
      | some rc =>
        simp only [hstep,Except.ok.injEq] at h
        simp [← h,hpos]
      | none =>
        simp only [hstep] at h
        have := hagain (s := { c.2 with args := c.2.args++[c.2.wordAt start] }) hsize' h
        simp only at this
        omega

/-- With nothing left to read the position only grows. -/
theorem tokenLoop_pos {fuel : ℕ} {ch : UInt8} {fl : Flags} {start : ℕ} {r : Rc × Reader}
    (hsize : Drained s) (h : tokenLoop fuel ch fl start s = .ok r) :
    s.buffer.pos ≤ r.2.buffer.pos := by
  induction fuel generalizing ch fl start s r with
  | zero => simp [tokenLoop] at h
  | succ fuel ih =>
    rw [tokenLoop] at h
    by_cases hend : s.buffer.pos ≥ s.buffer.buf.length ∨ s.buffer.pos = 0
    · have hrefill : refill s start = .ok (.inl .fileDone,s) := by
        unfold refill
        exact if_pos hsize
      simp only [hend,if_true,hrefill,ok_bind,Except.ok.injEq] at h
      simp [← h]
    · simp only [hend,if_false,ok_bind] at h
      exact le_of_lt (tokenRound_pos ih hsize h)

/-- The buffer is full and the file is at its end. -/
theorem tokenLoop_done {k : ℕ} {ch : UInt8} {fl : Flags} {start : ℕ}
    (hfull : s.buffer.pos ≥ s.buffer.buf.length) (hsize : Drained s) :
    tokenLoop (k+1) ch fl start s = .ok (.fileDone,s) := by
  have hrefill : refill s start = .ok (.inl .fileDone,s) := by
    unfold refill
    exact if_pos hsize
  simp only [tokenLoop,hfull,true_or,if_true,hrefill,ok_bind]

/-- The buffer is full, and the bytes that are wanted next are read behind it. -/
theorem refill_full {n : ℕ} (hcap : 0 < s.buffer.buf.length)
    (hfull : s.buffer.pos = s.buffer.buf.length) (hn : n ≤ s.buffer.buf.length)
    (hsize : ¬Drained s) :
    refill s (s.buffer.pos-n) =
      if n = 0 ∧ s.buffer.buf.length ≤ s.file.content.length-s.offset then .ok (.inl .error,s)
      else .error .panic := by
  have hleft : ¬s.file.content.length-s.offset = 0 := hsize
  simp only [refill,hleft,if_false,show s.buffer.pos-(s.buffer.pos-n) = n by omega]
  by_cases hzero : n = 0
  · subst hzero
    simp only [gt_iff_lt,Nat.lt_irrefl,if_false,ok_bind,Nat.sub_zero,true_and]
    by_cases hroom : s.buffer.buf.length ≤ s.file.content.length-s.offset
    · -- no byte is asked for, and the number read is not that of the buffer
      have hread : read s.file s.buffer (min (s.file.content.length-s.offset) s.buffer.buf.length) =
          .ok (some 0,s.file,s.buffer) := by
        simp only [read,hfull,hroom,le_refl,and_self,min_eq_right,if_true,Nat.sub_self,
          List.take_zero,lt_irrefl,and_false,if_false,List.length_nil,Nat.add_zero,List.append_nil,
          List.take_append_drop]
        rw [← hfull]
      rw [if_pos hroom]
      simp only [hread,ok_bind]
      rw [if_pos (by omega)]
    · have hread : read s.file s.buffer (min (s.file.content.length-s.offset) s.buffer.buf.length) =
          .error .panic := by
        unfold read
        rw [if_neg (by omega)]
      rw [if_neg hroom]
      simp only [hread]
      rfl
  · simp only [hzero,false_and,if_false,show n > 0 by omega,if_true]
    cases hs : s.buffer.shrink (s.buffer.pos-n) n with
    | error e =>
      have he : e = .panic := by
        unfold Buffer.shrink at hs
        split_ifs at hs
        simpa using hs.symm
      rw [he]
      rfl
    | ok b =>
      -- the slice of the buffer that is read into begins behind its end
      have hb : b.pos = s.buffer.pos ∧ b.buf.length = s.buffer.buf.length := by
        unfold Buffer.shrink at hs
        split_ifs at hs with hle
        simp only [Except.ok.injEq] at hs
        rw [← hs]
        simp only [List.length_append,List.length_drop,List.length_take,true_and]
        omega
      have hread : read s.file b (min (s.file.content.length-s.offset) (b.buf.length-n)) =
          .error .panic := by
        unfold read
        rw [if_neg (by omega)]
      simp only [ok_bind,hread]
      rfl

theorem tokenLoop_full (k : ℕ) (ch : UInt8) (fl : Flags) {n : ℕ} (hcap : 0 < s.buffer.buf.length)
    (hfull : s.buffer.pos = s.buffer.buf.length) (hn : n ≤ s.buffer.buf.length)
    (hsize : ¬Drained s) :
    tokenLoop (k+1) ch fl (s.buffer.pos-n) s =
      if n = 0 ∧ s.buffer.buf.length ≤ s.file.content.length-s.offset then .ok (.error,s)
      else .error .panic := by
  have hend : s.buffer.pos ≥ s.buffer.buf.length ∨ s.buffer.pos = 0 := .inl (by omega)
  rw [tokenLoop,if_pos hend,refill_full hcap hfull hn hsize]
  split_ifs <;> rfl

/-- What the calls come to when the bytes in the buffer are all used up. -/
theorem stream_rest (hcap : 0 < cap) (hf : f ≠ []) {es : List Event}
    (h : Scan.results { } 0 (f.take cap) = (es,some v)) :
    ∃ k last line n, v.raw.length ≤ min f.length cap ∧ cap+2 ≤ k+min f.length cap ∧
      LastSeen (f.take cap) last ∧
      stream cap f = (tokenLoop k last v.flags (min f.length cap-v.raw.length)
        ((loaded cap f).to (min f.length cap) v.args line) >>= record (calls n) >>= fun rest =>
          .ok (es++rest)) := by
  have hends := stream_ends hcap hf
  rw [h] at hends
  have ⟨h1,k,last,line,n,h2,h3,h4⟩ := hends
  rw [(loaded_spec cap f).2] at h2
  exact ⟨k,last,line,n,h1,h2,h3,h4⟩

theorem stream_of_none (hcap : 0 < cap) (hf : f ≠ []) {es : List Event}
    (h : Scan.results { } 0 (f.take cap) = (es,none)) : stream cap f = .ok es := by
  have hends := stream_ends hcap hf
  rwa [h] at hends

theorem stream_nil : stream cap [] = .ok [⟨.fileDone,[],0⟩] := by
  have hread : readToken (opened cap []) = .ok (.fileDone,opened cap []) := by
    simp [readToken,tokenLoop,refill,opened,ok_bind]
  simp only [stream,calls,hread,ok_bind,record,or_true,if_true]
  rfl

/-- The buffer holds the file exactly. -/
theorem stream_fit (hf : f ≠ []) {es : List Event}
    (h : Scan.results { } 0 f = (es,some v)) :
    stream f.length f = .ok (es++[⟨.fileDone,v.args,f.length⟩]) := by
  have hlen : 0 < f.length := List.length_pos_iff.mpr hf
  have hres : Scan.results { } 0 (f.take f.length) = (es,some v) := by rwa [List.take_length]
  have ⟨k,last,line,n,_,hk,_,hs⟩ := stream_rest hlen hf hres
  obtain ⟨k,rfl⟩ : ∃ k', k = k'+1 := ⟨k-1,by omega⟩
  have hbuf := (loaded_spec f.length f).2
  rw [hs,tokenLoop_done (by simp [Reader.to,hbuf]) (by simp [Drained,Reader.to,loaded]),ok_bind]
  simp [record,Reader.to]

/-- The file goes on behind the buffer. -/
theorem stream_long (hcap : 0 < cap) (hlt : cap < f.length) {es : List Event}
    (h : Scan.results { } 0 (f.take cap) = (es,some v)) :
    stream cap f =
      if v.raw = [] ∧ 2*cap ≤ f.length then .ok (es++[⟨.error,v.args,cap⟩])
      else .error .panic := by
  have hf : f ≠ [] := List.length_pos_iff.mp (by omega)
  have ⟨k,last,line,n,hle,hk,_,hs⟩ := stream_rest hcap hf h
  have hmin : min f.length cap = cap := by omega
  rw [hmin] at hle hk hs
  obtain ⟨k,rfl⟩ : ∃ k', k = k'+1 := ⟨k-1,by omega⟩
  have hbuf := (loaded_spec cap f).2
  have hfull := tokenLoop_full (s := (loaded cap f).to cap v.args line) k last v.flags
    (n := v.raw.length) (by simp [Reader.to,hbuf,hcap])
    (by simp [Reader.to,hbuf]) (by simp [Reader.to,hbuf,hle])
    (by simp only [Drained,Reader.to,loaded,hmin]; omega)
  have hleft : cap ≤ f.length-cap ↔ 2*cap ≤ f.length := by omega
  simp only [Reader.to,hbuf,List.length_eq_zero_iff] at hfull hs
  simp only [loaded,hmin,hleft] at hfull hs
  rw [hs,hfull]
  split_ifs
  · simp [record,ok_bind]
  · rfl

/-- Behind the end of the file the last byte is seen again. -/
theorem stream_short (hcap : f.length < cap) (hf : f ≠ []) {es es' : List Event}
    (h : Scan.results { } 0 (f.take cap) = (es,some v)) (hs : stream cap f = .ok es') :
    ∃ e ∈ es', f.length < e.pos := by
  have hlen : 0 < f.length := List.length_pos_iff.mpr hf
  obtain ⟨k,last,line,n,_,hk,_,hstream⟩ := stream_rest (by omega) hf h
  have hmin : min f.length cap = f.length := by omega
  rw [hmin] at hk hstream
  obtain ⟨k,rfl⟩ : ∃ k', k = k'+1 := ⟨k-1,by omega⟩
  have hbuf := (loaded_spec cap f).2
  rw [hstream,tokenLoop_round _ _ _ _ _ (by simp only [Reader.to]; omega)
    (by simp only [Reader.to,hbuf]; omega)] at hs
  cases hr : tokenRound (tokenLoop k) last v.flags (f.length-v.raw.length)
      ((loaded cap f).to f.length v.args line) with
  | error e => simp [hr,Bind.bind,Except.bind] at hs
  | ok r =>
    have hdrained : Drained ((loaded cap f).to f.length v.args line) := by
      simp [Drained,Reader.to,loaded,hmin]
    have hpos := tokenRound_pos tokenLoop_pos hdrained hr
    rw [hr,ok_bind] at hs
    cases hrec : record (calls n) r with
    | error e => simp [hrec,Bind.bind,Except.bind] at hs
    | ok rest =>
      obtain ⟨rest',hrest⟩ := record_ok hrec
      rw [hrec,ok_bind,Except.ok.injEq] at hs
      refine ⟨⟨r.1,r.2.args,r.2.buffer.pos⟩,?_,hpos⟩
      rw [← hs,hrest]
      simp

/-- The results of a file that goes on behind the buffer. -/
theorem tokens_long (hlt : cap < f.length) {es : List Event}
    (h : Scan.results { } 0 (f.take cap) = (es,some v)) :
    tokens f = match v.results cap (f.drop cap) with
      | (es',none) => es++es'
      | (es',some v') => es++es'++[⟨.fileDone,v'.args,f.length⟩] := by
  have happ := Scan.results_append { } 0 (f.take cap) (f.drop cap)
  have hlen : 0+(f.take cap).length = cap := by
    rw [List.length_take]
    omega
  rw [List.take_append_drop,h,hlen] at happ
  dsimp only at happ
  unfold tokens
  rw [happ]
  cases hr : v.results cap (f.drop cap) with
  | mk es' o => cases o <;> simp only

/-- After the bytes in the buffer one error more is right only if the file has it there. -/
theorem halted_outcome (hlt : cap < f.length) {es : List Event}
    (h : Scan.results { } 0 (f.take cap) = (es,some v)) :
    (es++[(⟨.error,v.args,cap⟩ : Event)]).map Event.outcome = (tokens f).map Event.outcome ↔
      ∃ pos, v.results cap (f.drop cap) = ([⟨.error,v.args,pos⟩],none) := by
  rw [tokens_long hlt h]
  cases hr : v.results cap (f.drop cap) with
  | mk es' o =>
    cases o with
    | none =>
      simp only [List.map_append,List.append_cancel_left_eq,Prod.mk.injEq,and_true]
      constructor
      · intro he
        have ⟨e,he',hout⟩ := List.map_eq_singleton_iff.mp he.symm
        simp only [Event.outcome,Prod.mk.injEq] at hout
        exact ⟨e.pos,by rw [he',← hout.1,← hout.2]⟩
      · intro ⟨pos,he⟩
        rw [he]
        rfl
    | some v' =>
      simp only [List.map_append,List.append_assoc,List.append_cancel_left_eq,Prod.mk.injEq,
        reduceCtorEq,and_false,exists_const,iff_false]
      intro he
      have hlast := congrArg List.getLast? he
      simp [Event.outcome] at hlast

theorem results_take_pos {es : List Event} {o : Option Scan}
    (h : Scan.results { } 0 (f.take cap) = (es,o)) : ∀ e ∈ es, e.pos ≤ min cap f.length := by
  intro e he
  have hpos := Scan.results_pos { } 0 (f.take cap)
  rw [h] at hpos
  have := hpos e he
  rw [List.length_take] at this
  omega

/-- With one event more, at a position in the file. -/
theorem results_snoc_pos {es : List Event} {o : Option Scan} {e' : Event}
    (h : Scan.results { } 0 (f.take cap) = (es,o)) (he' : e'.pos ≤ f.length) :
    ∀ e ∈ es++[e'], e.pos ≤ f.length := by
  intro e he
  cases List.mem_append.mp he with
  | inl he =>
    have := results_take_pos h e he
    omega
  | inr he => rwa [List.mem_singleton.mp he]

/-- After an error in the bytes in the buffer there is no call. -/
theorem faithful_of_none (hcap : 0 < cap) (hf : f ≠ []) {es : List Event}
    (h : Scan.results { } 0 (f.take cap) = (es,none)) : Faithful cap f := by
  refine ⟨es,stream_of_none hcap hf h,by rw [tokens_of_none h],?_⟩
  intro e he
  have := results_take_pos h e he
  omega

theorem faithful_fit (hf : f ≠ []) {es : List Event} (h : Scan.results { } 0 f = (es,some v)) :
    Faithful f.length f := by
  have htake : Scan.results { } 0 (f.take f.length) = (es,some v) := by rwa [List.take_length]
  exact ⟨_,stream_fit hf h,by simp [tokens,h],results_snoc_pos htake (Nat.le_refl _)⟩

theorem not_faithful_short (hcap : f.length < cap) (hf : f ≠ []) {es : List Event}
    (h : Scan.results { } 0 (f.take cap) = (es,some v)) : ¬Faithful cap f := by
  intro ⟨es',hs,_,hle⟩
  have ⟨e,he,hlt⟩ := stream_short hcap hf h hs
  have := hle e he
  omega

theorem halted_iff {es : List Event} (h : Scan.results { } 0 (f.take cap) = (es,some v)) :
    Halted cap f ↔ (v.raw = [] ∧ 2*cap ≤ f.length) ∧
      ∃ pos, v.results cap (f.drop cap) = ([⟨.error,v.args,pos⟩],none) := by
  constructor
  · intro ⟨w,pos,hw,hraw,hle,hr⟩
    have hvw : v = w := by simpa [h] using hw
    exact ⟨⟨hvw ▸ hraw,hle⟩,pos,hvw ▸ hr⟩
  · intro ⟨⟨hraw,hle⟩,pos,hr⟩
    exact ⟨v,pos,by rw [h],hraw,hle,hr⟩

theorem faithful_long_iff (hcap : 0 < cap) (hlt : cap < f.length) {es : List Event}
    (h : Scan.results { } 0 (f.take cap) = (es,some v)) : Faithful cap f ↔ Halted cap f := by
  simp only [halted_iff h,Faithful,stream_long hcap hlt h]
  split_ifs with hcond
  · rw [← halted_outcome hlt h]
    constructor
    · intro ⟨es',hes,hout,_⟩
      rw [Except.ok.injEq] at hes
      exact ⟨hcond,hes ▸ hout⟩
    · intro ⟨_,hout⟩
      exact ⟨_,rfl,hout,results_snoc_pos h hlt.le⟩
  · simp [hcond]

/-- Repeated calls have the outcomes of the bytes of the file only if no call comes to the end of
the buffer or of the file, but for a file as long as the buffer and for an error at the end of the
buffer that happens to be right. -/
theorem faithful_iff (hcap : 0 < cap) : Faithful cap f ↔ Whole cap f ∨ Halted cap f := by
  by_cases hf : f = []
  · subst hf
    have hnil : Faithful cap [] := ⟨_,stream_nil,rfl,by simp⟩
    exact ⟨fun _ => .inl (.inl rfl),fun _ => hnil⟩
  cases hres : Scan.results { } 0 (f.take cap) with
  | mk es o =>
    cases o with
    | none =>
      exact ⟨fun _ => .inl (.inr (.inr (by rw [hres]))),fun _ => faithful_of_none hcap hf hres⟩
    | some v =>
      have hwhole : cap ≠ f.length → ¬Whole cap f := by
        intro hne hw
        rcases hw with h | h | h
        · exact hf h
        · exact hne h
        · simp [hres] at h
      rcases lt_trichotomy cap f.length with hlt | heq | hgt
      · simp only [hwhole hlt.ne,false_or,faithful_long_iff hcap hlt hres]
      · have hgood : Faithful cap f := by
          rw [heq,List.take_length] at hres
          exact heq ▸ faithful_fit hf hres
        exact ⟨fun _ => .inl (.inr (.inl heq)),fun _ => hgood⟩
      · have hhalt : ¬Halted cap f := by
          intro ⟨_,_,_,_,hle,_⟩
          omega
        simp only [hwhole hgt.ne',hhalt,not_faithful_short hgt hf hres,or_self]

/-- Two buffers give the outcomes that the bytes determine if and only if each of them holds the
file exactly, meets an error in the bytes it holds, or stops at one that comes right behind them. -/
theorem independent_iff (f : List UInt8) (c d : ℕ) (hc : 0 < c) (hd : 0 < d) :
    Independent f c d ↔ (Whole c f ∨ Halted c f) ∧ (Whole d f ∨ Halted d f) := by
  rw [Independent,faithful_iff hc,faithful_iff hd]

/-- `a;{` has its error in the bytes of either buffer. -/
theorem independent_error : Independent [97,59,123] 3 8 :=
  (independent_iff [97,59,123] 3 8 (by decide) (by decide)).mpr
    ⟨.inl (.inr (.inr rfl)),.inl (.inr (.inr rfl))⟩

/-- Every word fits, with its quotes and with a backslash before each byte. -/
def Roomy (f : List UInt8) (cap : ℕ) : Prop := ∀ e ∈ tokens f, ∀ w ∈ e.args, 2*w.length+2 < cap

/-- The file `b "a"` ends with its last word in a buffer of five bytes; in one of six bytes the
quote is seen twice. -/
theorem not_independent_quote :
    ¬∀ f c d, Roomy f c → Roomy f d → Independent f c d := by
  intro h
  have htokens : tokens [98,32,34,97,34] = [⟨.fileDone,[[98],[97]],5⟩] := by rfl
  have hroom : ∀ cap, 5 ≤ cap → Roomy [98,32,34,97,34] cap := by
    intro cap hcap e he w hw
    rw [htokens,List.mem_singleton] at he
    have hone : w.length = 1 := by
      rw [he] at hw
      simp only [List.mem_cons,List.not_mem_nil,or_false] at hw
      cases hw with
      | inl hw => rw [hw]; rfl
      | inr hw => rw [hw]; rfl
    omega
  have ⟨_,es,hs,hout,_⟩ := h [98,32,34,97,34] 5 6 (hroom 5 (by omega)) (hroom 6 (by omega))
  have hstream : stream 6 [98,32,34,97,34] = .ok [⟨.error,[[98],[97]],6⟩] := by rfl
  rw [hstream,Except.ok.injEq] at hs
  rw [htokens,← hs] at hout
  exact absurd hout (by decide)

end RecycleBin.NgToken
