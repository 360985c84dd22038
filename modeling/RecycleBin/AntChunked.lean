import RecycleBin.AntHttp

/-! The chunked body. `http_read_body` remembers between two calls what is missing of the
chunk under way; a size line must have arrived as a whole when it looks for it. -/
namespace RecycleBin
namespace AntHttp
open AntHash (Bytes cstr)
open AntVisited (isspace isdigit)
open AntBuf hiding Bytes
open AntSocket hiding Bytes
open CString

/-! ### Encoding -/

/-- The hexadecimal numerals of a number. -/
structure Numeral (n : ℕ) where
  digits : Bytes
  ne_nil : digits ≠ []
  hex : ∀ b ∈ digits,(hexDigit b).isSome = true
  value : hexValue 0 digits = n

/-- The size line of a chunk. -/
def Numeral.line {n : ℕ} (x : Numeral n) : Bytes := x.digits++crlf

structure Chunk where
  data : Bytes
  ne_nil : data ≠ []
  size : Numeral data.length

def Chunk.bytes (c : Chunk) : Bytes := c.size.line++(c.data++crlf)

/-- The chunks of a body, and the zero chunk. -/
structure Body where
  chunks : List Chunk
  last : Numeral 0

/-- What is sent from a chunk on. -/
def encode (last : Numeral 0) (cs : List Chunk) : Bytes := cs.flatMap Chunk.bytes++(last.line++crlf)

def dataOf (cs : List Chunk) : Bytes := cs.flatMap Chunk.data

def Body.bytes (b : Body) : Bytes := encode b.last b.chunks

def Body.data (b : Body) : Bytes := dataOf b.chunks

/-! ### Size lines -/

theorem find_crlf_none {t : Bytes} (h : 10 ∉ t) : find crlf t = none := by
  induction t with
  | nil => rfl
  | cons b t ih =>
    have hrest : 10 ∉ t := fun ht => h (List.mem_cons_of_mem b ht)
    have hno : crlf.isPrefixOf (b::t) = false :=
      isPrefixOf_crlf (p := []) fun h10 => hrest (List.mem_of_head? h10.2)
    rw [find_cons hno,ih hrest]
    rfl

theorem find_crlf_append {d : Bytes} (h : 13 ∉ d) (r : Bytes) :
    find crlf (d++crlf++r) = some d.length := by
  induction d with
  | nil => rfl
  | cons b d ih =>
    have hb : b ≠ 13 := fun hb => h (by simp [hb])
    have hrest : 13 ∉ d := fun hd => h (List.mem_cons_of_mem b hd)
    have hno : crlf.isPrefixOf (b::(d++crlf++r)) = false :=
      isPrefixOf_crlf (p := []) fun h13 => hb h13.1
    show find crlf (b::(d++crlf++r)) = _
    rw [find_cons hno,ih hrest]
    rfl

namespace Numeral
variable {n : ℕ} (x : Numeral n)

theorem not_mem_digits : 0 ∉ x.digits ∧ 10 ∉ x.digits ∧ 13 ∉ x.digits :=
  ⟨fun h => (hexDigit_ne 0 (x.hex 0 h)).1 rfl,fun h => (hexDigit_ne 10 (x.hex 10 h)).2.1 rfl,
    fun h => (hexDigit_ne 13 (x.hex 13 h)).2.2.1 rfl⟩

theorem length_line : x.line.length = x.digits.length+2 := List.length_append

theorem line_ne_nil : x.line ≠ [] := List.append_ne_nil_of_right_ne_nil _ (List.cons_ne_nil _ _)

theorem zero_not_mem_line : 0 ∉ x.line := fun h =>
  (List.mem_append.mp h).elim x.not_mem_digits.1 (by decide)

/-- A size line that can be seen is found. -/
theorem strstr_line {m : ℕ} (hm : x.line.length ≤ m) (r : Bytes) :
    strstr ((x.line++r).take m) crlf = some x.digits.length := by
  have htake : (x.line++r).take m = x.line++r.take (m-x.line.length) := by
    rw [List.take_append,List.take_of_length_le hm]
  rw [strstr,htake,cstr_append x.zero_not_mem_line]
  exact find_crlf_append x.not_mem_digits.2.2 _

/-- A part of a size line ends before its LF. -/
theorem strstr_part {m : ℕ} (hm : m < x.line.length) (r : Bytes) :
    strstr ((x.line++r).take m) crlf = none := by
  have hline : x.line = x.digits++[13]++[10] := by simp [line,crlf]
  have htake : (x.line++r).take m = (x.digits++[13]).take m := by
    rw [List.take_append_of_le_length hm.le,hline,List.take_append_of_le_length]
    rw [length_line] at hm
    simp only [List.length_append,List.length_singleton]
    omega
  apply find_crlf_none
  intro h10
  have hmem := List.mem_of_mem_take ((List.takeWhile_prefix _).subset (htake ▸ h10))
  exact (List.mem_append.mp hmem).elim x.not_mem_digits.2.1 (by decide)

theorem strtoul16_line (hn : n < 2^64) : strtoul16 (cstr x.line) = n := by
  have hline : cstr x.line = x.digits++13::[10] := by
    rw [line,cstr_append x.not_mem_digits.1]
    rfl
  rw [hline,strtoul16_numeral x.ne_nil x.hex (by rw [x.value]; exact hn),x.value]

end Numeral

/-! ### One pass of the loop -/

section Pass
variable {mem : Memory} {http : HttpInfo} {s : Sock}

/-- The bytes a peek of a size line shows from position `p` on. -/
def visible (s : Sock) (p : ℕ) : ℕ := min 127 (s.avail p)

theorem visible_skips {t : Sock} {k : ℕ} (h : Skips s k t) (p : ℕ) :
    visible t p = visible s (k+p) := by
  rw [visible,visible,h.avail]

/-- A size line that is seen as a whole is read. -/
theorem chunkSize_line {n : ℕ} {x : Numeral n} {r : Bytes} (hs : s.Sound)
    (hhead : http.chunkhead = 0) (hstream : s.stream = x.line++r) (hn : n < 2^31)
    (hseen : x.line.length ≤ visible s 0) :
    ∃ t,chunkSize http s =
        .ok (if n = 0 then .done else .next,{ http with chunkhead := n },t) ∧
      Skips s x.line.length t := by
  have hne : s.stream ≠ [] := by
    rw [hstream]
    exact List.append_ne_nil_of_left_ne_nil x.line_ne_nil _
  obtain ⟨t,ht,hskip,-⟩ := sockRead_spec hs hne 127
  have hts : t.stream = x.line++r := by rw [hskip.stream,List.drop_zero,hstream]
  have hlen : x.digits.length+2 ≤ t.stream.length := by
    rw [hts,List.length_append,x.length_line]
    omega
  obtain ⟨u,hu,hskip'⟩ := readnBlock_spec (hskip.sound hs) hlen
  have htake : t.stream.take (x.digits.length+2) = x.line := by
    rw [hts,← x.length_line,List.take_left]
  refine ⟨u,?_,?_⟩
  · have hpos : strstr (s.stream.take (min 127 (s.avail 0))) crlf = some x.digits.length := by
      rw [hstream]
      exact x.strstr_line hseen r
    rw [chunkSize,if_neg (not_not_intro hhead)]
    simp only [ht,ok_bind,hpos,readSize,hu,htake,received,x.strtoul16_line (by omega),
      toInt_of_lt hn,Nat.cast_eq_zero]
    rfl
  · rw [x.length_line,← Nat.zero_add (x.digits.length+2)]
    exact hskip.trans hskip'

/-- A size line that is not seen as a whole ends the body. -/
theorem chunkSize_part {n : ℕ} {x : Numeral n} {r : Bytes} (hs : s.Sound)
    (hhead : http.chunkhead = 0) (hstream : s.stream = x.line++r)
    (hpart : visible s 0 < x.line.length) :
    ∃ t,chunkSize http s = .ok (.done,http,t) ∧ Skips s 0 t := by
  have hne : s.stream ≠ [] := by
    rw [hstream]
    exact List.append_ne_nil_of_left_ne_nil x.line_ne_nil _
  obtain ⟨t,ht,hskip,-⟩ := sockRead_spec hs hne 127
  have hpos : strstr (s.stream.take (min 127 (s.avail 0))) crlf = none := by
    rw [hstream]
    exact x.strstr_part hpart r
  refine ⟨t,?_,hskip⟩
  rw [chunkSize,if_neg (not_not_intro hhead)]
  simp only [ht,ok_bind,hpos]
  rfl

/-- The page holds `done`. -/
structure Page (b : Buf) (done : Bytes) : Prop where
  valid : b.Valid
  content : b.content = done.map some
  ncurr : b.ncurr = done.length

theorem appendPage_spec (hmem : ∀ n < 2^31,mem.grants n = true) {done bs : Bytes}
    (hpage : Page http.page done) (hlen : done.length+bs.length < 2^30) :
    ∃ b,appendPage mem http bs = .ok { http with page := b } ∧ Page b (done++bs) := by
  by_cases hbs : bs = []
  · refine ⟨http.page,if_pos hbs,?_⟩
    rw [hbs,List.append_nil]
    exact hpage
  · have hfit : http.page.ncurr+bs.length < 2^30 := by rw [hpage.ncurr]; exact hlen
    obtain ⟨b,hb,hvalid,hcontent,hncurr⟩ := antBufAppend_of_lt hpage.valid hmem hfit
    refine ⟨b,?_,hvalid,?_,?_⟩
    · rw [appendPage,if_neg hbs,hb]
      rfl
    · rw [hcontent,hpage.content,List.map_append]
    · rw [hncurr,hpage.ncurr,List.length_append]

theorem chunkEnd_zero {x : Read} {u : Sock} (h : http.chunkhead = 0)
    (hread : readnBlock s 2 = .ok (x,u)) : chunkEnd http s = .ok u := by
  rw [chunkEnd,if_pos h,hread]
  rfl

theorem chunkData_eq {x : Read} {bs : Bytes} {b : Buf} {t u : Sock}
    (hgrant : mem.grants (toSize http.chunkhead) = true)
    (hread : readnNonblock s http.chunkhead.toNat = .ok (x,t)) (hx : received x = some bs)
    (hb : appendPage mem http bs = .ok { http with page := b })
    (hend : chunkEnd { http with page := b,chunkhead := http.chunkhead-bs.length } t = .ok u) :
    chunkData mem http s = .ok (if bs = [] then .ret 0 else .next,
      { http with page := b,chunkhead := http.chunkhead-bs.length },u) := by
  rw [chunkData,if_neg (by rw [hgrant]; exact Bool.noConfusion)]
  simp only [hread,ok_bind,hx,hb,hend]
  rfl

/-- All that is missing has come, and the CRLF behind it. -/
theorem chunkData_all {missing r : Bytes} {b : Buf} {t : Sock}
    (hgrant : mem.grants (toSize http.chunkhead) = true) (hhead : http.chunkhead = missing.length)
    (hne : missing ≠ []) (hread : readnNonblock s missing.length = .ok (.bytes missing,t))
    (hb : appendPage mem http missing = .ok { http with page := b }) (ht : t.Sound)
    (hstream : t.stream = crlf++r) :
    ∃ u,chunkData mem http s = .ok (.next,{ http with page := b,chunkhead := 0 },u) ∧
      Skips t 2 u := by
  have hcrlf : 2 ≤ t.stream.length := by
    rw [hstream,List.length_append]
    exact Nat.le_add_right _ _
  obtain ⟨u,hu,hskip⟩ := readnBlock_spec ht hcrlf
  have hzero : http.chunkhead-missing.length = 0 := by rw [hhead,sub_self]
  have hend : chunkEnd { http with page := b,chunkhead := http.chunkhead-missing.length } t = .ok u :=
    chunkEnd_zero hzero hu
  have hcount : http.chunkhead.toNat = missing.length := by rw [hhead,Int.toNat_natCast]
  refine ⟨u,?_,hskip⟩
  rw [chunkData_eq hgrant (by rw [hcount]; exact hread) rfl hb hend,hzero,if_neg hne]

/-- A timeout has cut off what is missing after `k` bytes. -/
theorem chunkData_part {missing : Bytes} {k : ℕ} {b : Buf} {t : Sock}
    (hgrant : mem.grants (toSize http.chunkhead) = true) (hhead : http.chunkhead = missing.length)
    (hk : k < missing.length)
    (hread : readnNonblock s missing.length = .ok (.timeout (missing.take k),t))
    (hb : appendPage mem http (missing.take k) = .ok { http with page := b }) :
    chunkData mem http s = .ok (if k = 0 then .ret 0 else .next,
      { http with page := b,chunkhead := (missing.drop k).length },t) := by
  have hsub : http.chunkhead-(missing.take k).length = (missing.drop k).length := by
    rw [hhead,List.length_take_of_le hk.le,List.length_drop]
    omega
  have hend : chunkEnd { http with page := b,chunkhead := http.chunkhead-(missing.take k).length } t =
      .ok t := by
    apply if_neg
    show ¬http.chunkhead-(missing.take k).length = 0
    rw [hsub,List.length_drop]
    omega
  have hcount : http.chunkhead.toNat = missing.length := by rw [hhead,Int.toNat_natCast]
  have hne : missing ≠ [] := List.length_pos_iff.mp (Nat.zero_lt_of_lt hk)
  have hempty : missing.take k = [] ↔ k = 0 := by simp [hne]
  rw [chunkData_eq hgrant (by rw [hcount]; exact hread) rfl hb hend,hsub]
  simp only [hempty]

/-- The data of a chunk: all that is missing and the CRLF, or what came before a timeout. -/
theorem chunkData_spec (hmem : ∀ n < 2^31,mem.grants n = true) {missing r done : Bytes}
    (hs : s.Sound) (hhead : http.chunkhead = missing.length) (hne : missing ≠ [])
    (hstream : s.stream = missing++(crlf++r)) (hpage : Page http.page done)
    (hlen : done.length+missing.length < 2^30) :
    ∃ (k : ℕ) (b : Buf) (t : Sock),k ≤ missing.length ∧
      chunkData mem http s = .ok (if k = 0 then .ret 0 else .next,
        { http with page := b,chunkhead := (missing.drop k).length },t) ∧
      Page b (done++missing.take k) ∧ (k < missing.length → t.buffer = []) ∧
      Skips s (if k = missing.length then k+2 else k) t := by
  have hgrant : mem.grants (toSize http.chunkhead) = true := by
    apply hmem
    rw [hhead,toSize]
    omega
  have hfit : missing.length ≤ s.stream.length := by
    rw [hstream,List.length_append]
    exact Nat.le_add_right _ _
  have htake : ∀ k ≤ missing.length,s.stream.take k = missing.take k := by
    intro k hk
    rw [hstream,List.take_append_of_le_length hk]
  have happend : ∀ k,∃ b,appendPage mem http (missing.take k) = .ok { http with page := b } ∧
      Page b (done++missing.take k) := by
    intro k
    apply appendPage_spec hmem hpage
    rw [List.length_take]
    omega
  have hread := readnNonblock_spec hs hfit
  cases hr : readnNonblock s missing.length with
  | error e =>
    rw [hr] at hread
    exact hread.elim
  | ok x =>
    obtain ⟨x,t⟩ := x
    rw [hr] at hread
    cases x with
    | failed => exact hread.elim
    | bytes bs =>
      obtain ⟨hbs,hskip⟩ := hread
      obtain ⟨b,hb,hb'⟩ := happend missing.length
      rw [List.nil_append,htake _ (Nat.le_refl _),List.take_length] at hbs
      rw [List.take_length] at hb
      rw [hbs] at hr
      have ht : t.stream = crlf++r := by rw [hskip.stream,hstream,List.drop_left]
      obtain ⟨u,hu,hskip'⟩ := chunkData_all hgrant hhead hne hr hb (hskip.sound hs) ht
      refine ⟨missing.length,b,u,Nat.le_refl _,?_,hb',fun h => absurd h (Nat.lt_irrefl _),?_⟩
      · rw [hu,if_neg (List.length_pos_iff.mpr hne).ne',List.drop_length]
        rfl
      · rw [if_pos rfl]
        exact hskip.trans hskip'
    | timeout bs =>
      obtain ⟨k,hk,hbs,hskip,hbuf⟩ := hread
      obtain ⟨b,hb,hb'⟩ := happend k
      rw [List.nil_append,htake _ hk.le] at hbs
      rw [hbs] at hr
      refine ⟨k,b,t,hk.le,chunkData_part hgrant hhead hk hr hb,hb',fun _ => hbuf,?_⟩
      rw [if_neg hk.ne]
      exact hskip

end Pass
/-! ### The loop -/

section Loop
variable {mem : Memory} {last : Numeral 0}

/-- What is missing of a chunk, with the CRLF behind it. -/
def rest (missing : Bytes) : Bytes := if missing = [] then [] else missing++crlf

/-- The size lines from position `p` on are seen as a whole. -/
def Whole (last : Numeral 0) (s : Sock) : ℕ → List Chunk → Prop
  | p, [] => last.line.length ≤ visible s p
  | p, c::cs => c.size.line.length ≤ visible s p ∧ Whole last s (p+c.bytes.length) cs

instance Whole.decidable (last : Numeral 0) (s : Sock) : ∀ p cs,Decidable (Whole last s p cs)
  | p, [] => inferInstanceAs (Decidable (last.line.length ≤ visible s p))
  | p, c::cs =>
    have := Whole.decidable last s (p+c.bytes.length) cs
    inferInstanceAs (Decidable (c.size.line.length ≤ visible s p ∧ Whole last s (p+c.bytes.length) cs))

theorem Whole.skips {s t : Sock} {k : ℕ} (h : Skips s k t) (cs : List Chunk) : ∀ p,
    Whole last t p cs ↔ Whole last s (k+p) cs := by
  induction cs with
  | nil =>
    intro p
    rw [Whole,Whole,visible_skips h]
  | cons c cs ih =>
    intro p
    rw [Whole,Whole,visible_skips h,ih,Nat.add_assoc]

/-- At the head of the loop `missing` is to come of a chunk, and then the chunks `cs`; the
page holds `done`. -/
structure At (last : Numeral 0) (http : HttpInfo) (s : Sock) (missing : Bytes) (cs : List Chunk)
    (done : Bytes) : Prop where
  sound : s.Sound
  chunksize : http.chunksize = 0
  readBody : http.status.readBody = false
  chunkhead : http.chunkhead = missing.length
  stream : s.stream = rest missing++encode last cs
  page : Page http.page done
  small : done.length+missing.length+(dataOf cs).length < 2^30

/-- The loop leaves with the chunk under way at the end of what has arrived, or at the end of
the body, or before a size line that it does not see. -/
def Ends (last : Numeral 0) (total : Bytes) (whole : Prop) (arrivals : ℕ) : Part → Prop
  | .ok (.ret _,http,s) => ∃ missing cs done,missing ≠ [] ∧ At last http s missing cs done ∧
      done++missing++dataOf cs = total ∧ s.buffer = [] ∧ s.arrivals.length ≤ arrivals ∧
        (Whole last s (rest missing).length cs ↔ whole)
  | .ok (.done,http,s) =>
      whole ∧ Page http.page total ∧ s.stream = crlf ∨ ¬whole ∧ 2 < s.stream.length
  | _ => False

theorem Ends.mono {total : Bytes} {whole whole' : Prop} {a a' : ℕ} {x : Part}
    (h : Ends last total whole a x) (hw : whole ↔ whole') (ha : a ≤ a') :
    Ends last total whole' a' x := by
  have hwhole : whole = whole' := propext hw
  subst hwhole
  cases x with
  | error e => exact h
  | ok r =>
    obtain ⟨flow,http,s⟩ := r
    cases flow with
    | next => exact h
    | done => exact h
    | ret rc =>
      obtain ⟨missing,cs,done,hne,hat,htotal,hbuf,harr,hwhole⟩ := h
      exact ⟨missing,cs,done,hne,hat,htotal,hbuf,harr.trans ha,hwhole⟩

theorem chunkLoop_next {n : ℕ} {http http' : HttpInfo} {s t : Sock}
    (h : chunkSize http s = .ok (.next,http',t)) :
    chunkLoop mem (n+1) http s = (chunkData mem http' t >>= fun r =>
      if r.1 ≠ .next then pure r else chunkLoop mem n r.2.1 r.2.2) := by
  rw [chunkLoop,h]
  rfl

theorem chunkLoop_done {n : ℕ} {http http' : HttpInfo} {s t : Sock}
    (h : chunkSize http s = .ok (.done,http',t)) :
    chunkLoop mem (n+1) http s = .ok (.done,http',t) := by
  rw [chunkLoop,h]
  rfl

/-- What is missing once `k` more bytes have come, and the CRLF behind the last of them. -/
theorem rest_drop {missing : Bytes} (hne : missing ≠ []) {k : ℕ} (hk : k ≤ missing.length) :
    (rest missing).drop (if k = missing.length then k+2 else k) = rest (missing.drop k) := by
  rw [rest,if_neg hne,rest]
  by_cases hall : k = missing.length
  · rw [if_pos hall,hall,List.drop_length,if_pos rfl]
    apply List.drop_of_length_le
    exact List.length_append.le
  · have hdrop : missing.drop k ≠ [] := by
      rw [Ne,List.drop_eq_nil_iff]
      omega
    rw [if_neg hall,if_neg hdrop,List.drop_append_of_le_length hk]

/-- The pass of a chunk under way. -/
theorem ends_data (hmem : ∀ n < 2^31,mem.grants n = true) {n : ℕ} {http : HttpInfo} {s : Sock}
    {missing done : Bytes} {cs : List Chunk} (h : At last http s missing cs done)
    (hne : missing ≠ []) (hn : s.stream.length < n+1)
    (ih : ∀ {http s missing cs done},At last http s missing cs done → s.stream.length < n →
      Ends last (done++missing++dataOf cs) (Whole last s (rest missing).length cs)
        s.arrivals.length (chunkLoop mem n http s)) :
    Ends last (done++missing++dataOf cs) (Whole last s (rest missing).length cs) s.arrivals.length
      (chunkData mem http s >>= fun r =>
        if r.1 ≠ .next then pure r else chunkLoop mem n r.2.1 r.2.2) := by
  have hstream : s.stream = missing++(crlf++encode last cs) := by
    rw [h.stream,rest,if_neg hne,List.append_assoc]
  have hlen : done.length+missing.length < 2^30 := by
    have := h.small
    omega
  obtain ⟨k,b,t,hk,hdata,hpage,hbuf,hskip⟩ :=
    chunkData_spec hmem h.sound h.chunkhead hne hstream h.page hlen
  let j := if k = missing.length then k+2 else k
  have hrest : (rest missing).drop j = rest (missing.drop k) := rest_drop hne hk
  have hj : j ≤ (rest missing).length := by
    rw [rest,if_neg hne,List.length_append]
    show (if k = missing.length then k+2 else k) ≤ missing.length+2
    split <;> omega
  let http' : HttpInfo := { http with page := b,chunkhead := (missing.drop k).length }
  have hat : At last http' t (missing.drop k) cs (done++missing.take k) := by
    refine ⟨hskip.sound h.sound,h.chunksize,h.readBody,rfl,?_,hpage,?_⟩
    · rw [hskip.stream,h.stream,List.drop_append_of_le_length hj,hrest]
    · rw [List.length_append,List.length_take_of_le hk,List.length_drop]
      have := h.small
      omega
  have htotal : done++missing.take k++missing.drop k++dataOf cs = done++missing++dataOf cs := by
    rw [List.append_assoc done,List.take_append_drop]
  have hwhole : Whole last t (rest (missing.drop k)).length cs ↔
      Whole last s (rest missing).length cs := by
    rw [Whole.skips hskip,← hrest,List.length_drop,Nat.add_sub_cancel' hj]
  rw [hdata,ok_bind]
  by_cases hk0 : k = 0
  · rw [if_pos hk0,if_pos (by exact Flow.noConfusion)]
    have hlt : k < missing.length := hk0 ▸ List.length_pos_iff.mpr hne
    have hdrop : missing.drop k ≠ [] := by
      rw [hk0]
      exact hne
    exact ⟨_,cs,_,hdrop,hat,htotal,hbuf hlt,hskip.arrivals.length_le,hwhole⟩
  · have hjpos : 0 < j := by
      show 0 < if k = missing.length then k+2 else k
      split <;> omega
    have hfuel : t.stream.length < n := by
      have := hskip.le
      rw [hskip.stream,List.length_drop]
      show s.stream.length-j < n
      omega
    rw [if_neg hk0,if_neg (by exact fun h => h rfl),← htotal]
    exact (ih hat hfuel).mono hwhole hskip.arrivals.length_le

/-- A size line that is not seen as a whole ends the body before it. -/
theorem ends_part {m n a : ℕ} {x : Numeral m} {http : HttpInfo} {s : Sock} {r total : Bytes}
    {whole : Prop} (hs : s.Sound) (hhead : http.chunkhead = 0) (hstream : s.stream = x.line++r)
    (hr : 0 < r.length) (hpart : visible s 0 < x.line.length) (hwhole : ¬whole) :
    Ends last total whole a (chunkLoop mem (n+1) http s) := by
  obtain ⟨t,ht,hskip⟩ := chunkSize_part hs hhead hstream hpart
  rw [chunkLoop_done ht]
  refine .inr ⟨hwhole,?_⟩
  rw [hskip.stream,hstream,List.drop_zero,List.length_append,x.length_line]
  omega

theorem At.stream_cons {http : HttpInfo} {s : Sock} {done : Bytes} {c : Chunk} {cs : List Chunk}
    (h : At last http s [] (c::cs) done) :
    s.stream = c.size.line++((c.data++crlf)++encode last cs) := by
  rw [h.stream,encode,List.flatMap_cons,Chunk.bytes]
  simp [rest,encode]

/-- A size line that is seen as a whole opens its chunk. -/
theorem At.opened {http : HttpInfo} {s : Sock} {done : Bytes} {c : Chunk} {cs : List Chunk}
    (h : At last http s [] (c::cs) done) (hseen : c.size.line.length ≤ visible s 0) :
    ∃ t,chunkSize http s = .ok (.next,{ http with chunkhead := c.data.length },t) ∧
      At last { http with chunkhead := c.data.length } t c.data cs done ∧
      (Whole last t (rest c.data).length cs ↔ Whole last s (rest []).length (c::cs)) ∧
      Skips s c.size.line.length t := by
  have hhead : http.chunkhead = 0 := h.chunkhead
  have hstream := h.stream_cons
  have hsmall := h.small
  have hdata : dataOf (c::cs) = c.data++dataOf cs := List.flatMap_cons
  rw [hdata,List.length_append,List.length_nil] at hsmall
  obtain ⟨t,ht,hskip⟩ := chunkSize_line h.sound hhead hstream (by omega) hseen
  have hpos := List.length_pos_iff.mpr c.ne_nil
  rw [if_neg hpos.ne'] at ht
  have hrest : rest c.data = c.data++crlf := if_neg c.ne_nil
  refine ⟨t,ht,?_,?_,hskip⟩
  · refine ⟨hskip.sound h.sound,h.chunksize,h.readBody,rfl,?_,h.page,by omega⟩
    rw [hskip.stream,hstream,List.drop_left,hrest]
  · have hlen : c.bytes.length = c.size.line.length+(rest c.data).length := by
      rw [Chunk.bytes,List.length_append,hrest]
    have hnil : rest [] = [] := if_pos rfl
    rw [Whole.skips hskip,Whole,hnil,List.length_nil,Nat.zero_add,hlen]
    exact ⟨fun hw => ⟨hseen,hw⟩,fun hw => hw.2⟩

theorem chunkLoop_spec (hmem : ∀ n < 2^31,mem.grants n = true) (n : ℕ) :
    ∀ {http : HttpInfo} {s : Sock} {missing done : Bytes} {cs : List Chunk},
      At last http s missing cs done → s.stream.length < n →
        Ends last (done++missing++dataOf cs) (Whole last s (rest missing).length cs)
          s.arrivals.length (chunkLoop mem n http s) := by
  induction n with
  | zero => exact fun _ h => absurd h (Nat.not_lt_zero _)
  | succ n ih =>
    intro http s missing done cs h hn
    by_cases hne : missing = []
    · -- a size line is next
      subst hne
      have hhead : http.chunkhead = 0 := h.chunkhead
      cases cs with
      | nil =>
        have hstream : s.stream = last.line++crlf := h.stream
        by_cases hseen : last.line.length ≤ visible s 0
        · obtain ⟨t,ht,hskip⟩ := chunkSize_line h.sound hhead hstream (by omega) hseen
          rw [if_pos rfl] at ht
          rw [chunkLoop_done ht]
          refine .inl ⟨hseen,?_,?_⟩
          · rw [dataOf,List.flatMap_nil,List.append_nil,List.append_nil]
            exact h.page
          · rw [hskip.stream,hstream,List.drop_left]
        · exact ends_part h.sound hhead hstream (by decide) (Nat.lt_of_not_le hseen) hseen
      | cons c cs =>
        have hstream := h.stream_cons
        by_cases hseen : c.size.line.length ≤ visible s 0
        · obtain ⟨t,ht,hat,hwhole,hskip⟩ := h.opened hseen
          have hfuel : t.stream.length < n+1 := by
            rw [hskip.stream,List.length_drop]
            omega
          have htotal : done++c.data++dataOf cs = done++[]++dataOf (c::cs) := by
            rw [dataOf,dataOf,List.flatMap_cons,List.append_nil,List.append_assoc]
          rw [chunkLoop_next ht,← htotal]
          exact (ends_data hmem hat c.ne_nil hfuel ih).mono hwhole hskip.arrivals.length_le
        · refine ends_part h.sound hhead hstream ?_ (Nat.lt_of_not_le hseen) fun hw => hseen hw.1
          rw [List.length_append,List.length_append]
          exact Nat.lt_of_lt_of_le (List.length_pos_iff.mpr c.ne_nil) (by omega)
    · have hhead : http.chunkhead ≠ 0 := by
        rw [h.chunkhead]
        have := List.length_pos_iff.mpr hne
        omega
      rw [chunkLoop_next (if_pos hhead)]
      exact ends_data hmem h hne hn ih

end Loop
/-! ### Downloads -/

section Download
variable {mem : Memory} {last : Numeral 0}

def bodyCall (mem : Memory) (http : HttpInfo) (s : Sock) : Except Stop (HttpInfo × Sock) :=
  (httpReadBody mem http s).map Prod.snd

/-- The body is read, or a chunk is under way at the end of what has arrived, or the body was
taken to be read before a size line. -/
def Progress (last : Numeral 0) (total : Bytes) (whole : Prop) (http : HttpInfo) (s : Sock) : Prop :=
  (∃ missing cs done,At last http s missing cs done ∧ done++missing++dataOf cs = total ∧
    s.buffer = [] ∧ (Whole last s (rest missing).length cs ↔ whole)) ∨
  http.status.readBody = true ∧
    (whole ∧ Page http.page total ∧ s.stream = crlf ∨ ¬whole ∧ 2 < s.stream.length)

theorem bodyCall_read {http : HttpInfo} (s : Sock) (h : http.status.readBody = true) :
    bodyCall mem http s = .ok (http,s) := by
  rw [bodyCall,httpReadBody,if_pos h]
  rfl

theorem bodyCall_loop {http : HttpInfo} {s : Sock} (hread : http.status.readBody = false)
    (hchunk : http.chunksize = 0) : bodyCall mem http s =
      (chunkLoop mem (s.stream.length+1) http s >>= fun r =>
        match r.1 with
        | .ret _ => pure r.2
        | _ => pure ({ r.2.1 with status := { r.2.1.status with readBody := true } },r.2.2)) := by
  rw [bodyCall,httpReadBody,if_neg (by simp [hread]),readBody,if_pos hchunk]
  cases chunkLoop mem (s.stream.length+1) http s with
  | error e => rfl
  | ok r =>
    obtain ⟨flow,http',t⟩ := r
    cases flow <;> rfl

/-- A segment arrives and is read. -/
theorem Progress.step (hmem : ∀ n < 2^31,mem.grants n = true) {total : Bytes} {whole : Prop}
    {http : HttpInfo} {s t : Sock} (h : Progress last total whole http s) (ht : s.deliver = some t) :
    ∃ http' u,bodyCall mem http t = .ok (http',u) ∧ Progress last total whole http' u ∧
      (http'.status.readBody = true ∨
        http.status.readBody = false ∧ u.arrivals.length < s.arrivals.length) := by
  cases h with
  | inr h =>
    refine ⟨http,t,bodyCall_read t h.1,.inr ?_,.inl h.1⟩
    rw [deliver_stream ht]
    exact h
  | inl h =>
    obtain ⟨missing,cs,done,hat,htotal,hbuf,hwhole⟩ := h
    obtain ⟨hskip,hlt⟩ := deliver_skips hbuf ht
    have hat' : At last http t missing cs done :=
      ⟨hskip.sound hat.sound,hat.chunksize,hat.readBody,hat.chunkhead,
        hskip.stream.trans hat.stream,hat.page,hat.small⟩
    have hwhole' : Whole last t (rest missing).length cs ↔ whole := by
      rw [Whole.skips hskip,Nat.zero_add]
      exact hwhole
    have hends := (chunkLoop_spec hmem _ hat' (Nat.lt_succ_self _)).mono hwhole' (Nat.le_refl _)
    rw [bodyCall_loop hat.readBody hat.chunksize]
    cases hloop : chunkLoop mem (t.stream.length+1) http t with
    | error e =>
      rw [hloop] at hends
      exact hends.elim
    | ok r =>
      obtain ⟨flow,http',u⟩ := r
      rw [hloop] at hends
      cases flow with
      | next => exact hends.elim
      | done =>
        rw [htotal] at hends
        exact ⟨_,u,rfl,.inr ⟨rfl,hends⟩,.inl rfl⟩
      | ret rc =>
        obtain ⟨missing',cs',done',hne,hat₂,htotal₂,hbuf₂,harr₂,hwhole₂⟩ := hends
        exact ⟨http',u,rfl,.inl ⟨missing',cs',done',hat₂,htotal₂.trans htotal,hbuf₂,hwhole₂⟩,
          .inr ⟨hat.readBody,Nat.lt_of_le_of_lt harr₂ hlt⟩⟩

/-- When nothing more is to come, the body is read. -/
theorem Progress.read_of_none {total : Bytes} {whole : Prop} {http : HttpInfo} {s : Sock}
    (h : Progress last total whole http s) (hd : s.deliver = none) :
    http.status.readBody = true := by
  cases h with
  | inr h => exact h.1
  | inl h =>
    obtain ⟨missing,cs,done,hat,-,hbuf,-⟩ := h
    have hnil : segments s.arrivals = [] := by
      by_contra hne
      obtain ⟨t,ht⟩ := deliver_data s.arrivals rfl hat.sound hne
      rw [hd] at ht
      cases ht
    have hstream := hat.stream
    rw [Sock.stream,hbuf,hnil,encode] at hstream
    have hlen := congrArg List.length hstream
    simp only [List.length_append,List.flatten_nil,List.append_nil,List.length_nil,
      last.length_line] at hlen
    omega

theorem Progress.run (hmem : ∀ n < 2^31,mem.grants n = true) {total : Bytes} {whole : Prop}
    (n : ℕ) : ∀ {http : HttpInfo} {s : Sock},Progress last total whole http s →
      ∃ http' t,afterEach (bodyCall mem) n http s = .ok (http',t) ∧
        Progress last total whole http' t ∧
          (http.status.readBody = true ∨ s.arrivals.length ≤ n → http'.status.readBody = true) := by
  induction n with
  | zero =>
    intro http s h
    refine ⟨http,s,rfl,h,fun hor => hor.elim id fun hlen => h.read_of_none ?_⟩
    rw [Sock.deliver,List.length_eq_zero_iff.mp (Nat.le_zero.mp hlen)]
    rfl
  | succ n ih =>
    intro http s h
    rw [afterEach]
    cases hd : s.deliver with
    | none => exact ⟨http,s,rfl,h,fun _ => h.read_of_none hd⟩
    | some t =>
      obtain ⟨http₁,u,hcall,hprogress,hless⟩ := h.step hmem hd
      obtain ⟨http',v,hrun,hprogress',hread⟩ := ih hprogress
      refine ⟨http',v,?_,hprogress',fun hor => hread ?_⟩
      · simp only [hcall,ok_bind]
        exact hrun
      · cases hless with
        | inl hread₁ => exact .inl hread₁
        | inr hlt =>
          cases hor with
          | inl hread => exact absurd hread (by rw [hlt.1]; exact Bool.false_ne_true)
          | inr hlen => exact .inr (Nat.le_of_lt_succ (Nat.lt_of_lt_of_le hlt.2 hlen))

/-- What the head of a chunked response leaves: the framing, and no body yet. -/
structure Chunked (http : HttpInfo) : Prop where
  chunksize : http.chunksize = 0
  chunkhead : http.chunkhead = 0
  readBody : http.status.readBody = false
  page : Page http.page []

/-- The delivery of a body on a connection that does not fail. -/
structure Delivery (b : Body) (s : Sock) : Prop where
  buffer : s.buffer = []
  stream : s.stream = b.bytes
  sound : s.Sound

/-- When ANT_READ_BODY is set the page holds the data, and what is left of the body is the
CRLF behind the size line of the zero chunk. -/
def Delivers (mem : Memory) (b : Body) (http : HttpInfo) (s : Sock) : Prop :=
  ∀ n http' t,afterEach (bodyCall mem) n http s = .ok (http',t) → http'.status.readBody = true →
    http'.page.content = b.data.map some ∧ t.stream = crlf

theorem Progress.start {b : Body} {http : HttpInfo} {s : Sock} (hhttp : Chunked http)
    (hs : Delivery b s) (hsmall : b.data.length < 2^30) :
    Progress b.last b.data (Whole b.last s 0 b.chunks) http s := by
  refine .inl ⟨[],b.chunks,[],⟨hs.sound,hhttp.chunksize,hhttp.readBody,hhttp.chunkhead,hs.stream,
    hhttp.page,?_⟩,rfl,hs.buffer,Iff.rfl⟩
  rw [List.length_nil,Nat.zero_add]
  exact hsmall

/-- The body is delivered right exactly when every size line arrives in one segment, within
the bytes of a peek. The call behind the last segment ends it in any case. -/
theorem delivers_iff_whole (hmem : ∀ n < 2^31,mem.grants n = true) {b : Body} {http : HttpInfo}
    {s : Sock} (hhttp : Chunked http) (hs : Delivery b s) (hsmall : b.data.length < 2^30) :
    (Delivers mem b http s ↔ Whole b.last s 0 b.chunks) ∧
      ∃ http' t,afterEach (bodyCall mem) s.arrivals.length http s = .ok (http',t) ∧
        http'.status.readBody = true := by
  have hstart := Progress.start hhttp hs hsmall
  obtain ⟨http₁,t₁,hrun₁,hprogress₁,hread₁⟩ := hstart.run hmem s.arrivals.length
  have hread := hread₁ (.inr (Nat.le_refl _))
  refine ⟨⟨fun h => ?_,fun hwhole n http' t hrun hread' => ?_⟩,http₁,t₁,hrun₁,hread⟩
  · obtain ⟨-,hstream⟩ := h _ _ _ hrun₁ hread
    cases hprogress₁ with
    | inl hat =>
      obtain ⟨_,_,_,hat,-⟩ := hat
      rw [hat.readBody] at hread
      cases hread
    | inr hend =>
      cases hend.2 with
      | inl hfull => exact hfull.1
      | inr hpart =>
        rw [hstream] at hpart
        exact absurd hpart.2 (by decide)
  · obtain ⟨http₂,t₂,hrun₂,hprogress₂,-⟩ := hstart.run hmem n
    rw [hrun] at hrun₂
    cases hrun₂
    cases hprogress₂ with
    | inl hat =>
      obtain ⟨_,_,_,hat,-⟩ := hat
      rw [hat.readBody] at hread'
      exact nomatch hread'
    | inr hend =>
      cases hend.2 with
      | inl hfull => exact ⟨hfull.2.1.content,hfull.2.2⟩
      | inr hpart => exact absurd hwhole hpart.1

/-- A download whose head announced a chunked body. -/
def announced : HttpInfo :=
  { httpNew plenty [] with filesize := -1,chunksize := 0,httpCode := 200,status := ⟨true,true,false⟩ }

theorem announced_chunked : Chunked announced := ⟨rfl,rfl,rfl,antBufNew_valid plenty,rfl,rfl⟩

/-- The body "3", "abc", "0". -/
def abc : Body :=
  ⟨[⟨ascii "abc",by decide,
      ⟨[51],by decide,List.all_eq_true.mp rfl,by decide⟩⟩],
    ⟨[48],by decide,List.all_eq_true.mp rfl,by decide⟩⟩

/-- It arrives in one segment, or with the first size line split. -/
def abcWhole : Sock := ⟨[],[.data 51 (ascii "\x0d\nabc\x0d\n0\x0d\n\x0d\n")],false⟩

def abcSplit : Sock := ⟨[],[.data 51 [13],.data 10 (ascii "abc\x0d\n0\x0d\n\x0d\n")],false⟩

theorem delivers_abc : Delivers plenty abc announced abcWhole :=
  (delivers_iff_whole plenty_grants announced_chunked ⟨rfl,by decide,by decide⟩ (by decide)).1.mpr
    (by decide)

/-- The LF of a size line arrives later: the body ends before its first chunk. -/
theorem not_delivers_split : Chunked announced ∧ Delivery abc abcSplit ∧
    ¬Delivers plenty abc announced abcSplit := by
  refine ⟨announced_chunked,⟨rfl,by decide,by decide⟩,fun h => ?_⟩
  have hrun : afterEach (bodyCall plenty) 1 announced abcSplit =
      .ok ({ announced with status := ⟨true,true,true⟩ },{ abcSplit with
        buffer := [51,13],arrivals := [.data 10 (ascii "abc\x0d\n0\x0d\n\x0d\n")] }) := by
    decide
  exact absurd (h 1 _ _ hrun rfl).2 (by decide)

end Download
end AntHttp
end RecycleBin
