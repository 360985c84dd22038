import RecycleBin.TorHttp

/-!
# A request that arrives in pieces

`http_read_head` peeks at what is queued and counts it in `rblen`, but the buffer of the
next call is zeroed again: once a part of the head has been seen, the head is never found.
-/

namespace RecycleBin
namespace TorHttp

open AntHash AntVisited CString

variable {isDir : Bytes → Bool}

/-! ## The lines of a head -/

/-- The append that would write behind `fname`: a directory name of 4095 bytes. -/
def Overflows (isDir : Bytes → Bool) (fname p : Bytes) : Prop :=
  p.length < MAX_URL_SIZE-fname.length ∧ isDir (fname++p) = true ∧
    (fname++p).getLast? ≠ some 47 ∧ MAX_URL_SIZE ≤ (fname++p).length+1

/-- A field line `process_line` takes: any but a `Referer` that overflows the name. -/
def FieldTakes (isDir : Bytes → Bool) (http : Http) (line : Bytes) : Prop :=
  let tag := line.takeWhile (· ≠ 58)
  let p := ((line.dropWhile (· ≠ 58)).tail).dropWhile isspace
  58 ∈ line → strcaseeq tag (ascii "Connection") = false →
    strcaseeq tag (ascii "Referer") = true → 47 ∈ dropScheme p →
      ¬Overflows isDir http.fname (refererPath http.fname p)

/-- A request line `process_line` takes: `get`, blanks, a `/` and more behind it. -/
def RequestTakes (line : Bytes) : Prop :=
  startsWith (ascii "get") line = true ∧ (line.drop 3).head? = some 32 ∧
    ∃ c r, (line.drop 3).dropWhile (· = 32) = 47::c::r ∧ c ≠ 32

/-- A non-empty line `process_line` takes. -/
def Takes (isDir : Bytes → Bool) (http : Http) (line : Bytes) (n : ℕ) : Prop :=
  if n = 0 then RequestTakes line else FieldTakes isDir http line

/-- The lines up to the first empty one are taken. -/
inductive Legible (isDir : Bytes → Bool) : Http → Bytes → ℕ → Prop
  | stop {http : Http} {s : Bytes} {n : ℕ} : (nextLine s).1 = [] → Legible isDir http s n
  | line {http http' : Http} {s : Bytes} {n : ℕ} : (nextLine s).1 ≠ [] →
      Takes isDir http (nextLine s).1 n →
      processLine isDir http (nextLine s).1 n = .ok (1,http') →
      Legible isDir http' (nextLine s).2 (n+1) → Legible isDir http s n

theorem scanPath_isSome_iff {s : Bytes} : (∃ path, scanPath s = some path) ↔
    s.head? = some 32 ∧ ∃ c r, s.dropWhile (· = 32) = 47::c::r ∧ c ≠ 32 := by
  constructor
  · rintro ⟨path,h⟩
    simp only [scanPath] at h
    split_ifs at h with hshape hempty
    push Not at hshape
    refine ⟨hshape.1,?_⟩
    rcases hr : s.dropWhile (· = 32) with _ | ⟨b,_ | ⟨c,r⟩⟩
    · rw [hr] at hshape
      cases hshape.2
    · rw [hr] at hempty
      exact absurd rfl hempty
    · rw [hr] at hshape hempty
      obtain ⟨-,hb⟩ := hshape
      cases hb
      refine ⟨c,r,hr,?_⟩
      rintro rfl
      exact hempty rfl
  · rintro ⟨hhead,c,r,hr,hc⟩
    have htake : ((47::c::r).tail.takeWhile (· ≠ 32)).take 3800 =
        c::(r.takeWhile (· ≠ 32)).take 3799 := by
      simp [hc]
    refine ⟨c::(r.takeWhile (· ≠ 32)).take 3799,?_⟩
    simp only [scanPath,hr,hhead,htake]
    simp

theorem appendName_ok_iff {fname p : Bytes} :
    (∃ name, appendName isDir fname p = .ok name) ↔ ¬Overflows isDir fname p := by
  have htake : p.length < MAX_URL_SIZE-fname.length →
      p.take (MAX_URL_SIZE-fname.length-1) = p := by
    intro hlt
    exact List.take_of_length_le (by omega)
  simp only [appendName,Overflows]
  by_cases hlt : p.length < MAX_URL_SIZE-fname.length
  · rw [htake hlt]
    split_ifs with hdir hroom
    · exact iff_of_true ⟨_,rfl⟩ (fun h => absurd h.2.2.2 (by omega))
    · refine iff_of_false ?_ (not_not.mpr ⟨hdir.1,hdir.2.1,hdir.2.2,by omega⟩)
      rintro ⟨name,h⟩
      cases h
    · exact iff_of_true ⟨_,rfl⟩ (fun h => hdir ⟨h.1,h.2.1,h.2.2.1⟩)
  · rw [if_neg (fun h => hlt h.1)]
    exact iff_of_true ⟨_,rfl⟩ (fun h => hlt h.1)

theorem requestLine_iff {http : Http} {line : Bytes} :
    (∃ http', requestLine http line = .ok (1,http')) ↔ RequestTakes line := by
  rw [requestLine,RequestTakes,← scanPath_isSome_iff]
  split_ifs with hget
  · cases hscan : scanPath (line.drop 3) with
    | none => simp
    | some path => simp [hget]
  · simp [hget]

theorem referer_ok_iff {http : Http} {p : Bytes} :
    (∃ http', referer isDir http p = .ok http') ↔
      (47 ∈ dropScheme p → ¬Overflows isDir http.fname (refererPath http.fname p)) := by
  rw [referer]
  split_ifs with hslash
  · rw [← appendName_ok_iff]
    constructor
    · rintro ⟨http',h⟩ -
      obtain ⟨name,hname,-⟩ := bind_eq_ok.mp h
      exact ⟨name,hname⟩
    · intro h
      obtain ⟨name,hname⟩ := h hslash
      exact ⟨_,by rw [hname,ok_bind]⟩
  · exact iff_of_true ⟨http,rfl⟩ (fun h => absurd h hslash)

theorem field_ok_iff {http : Http} {tag p : Bytes} :
    (∃ http', field isDir http tag p = .ok http') ↔
      (strcaseeq tag (ascii "Connection") = false → strcaseeq tag (ascii "Referer") = true →
        47 ∈ dropScheme p → ¬Overflows isDir http.fname (refererPath http.fname p)) := by
  rw [field]
  split_ifs with hconn hkeep href
  · exact iff_of_true ⟨_,rfl⟩ (fun h => by rw [hconn] at h; cases h)
  · exact iff_of_true ⟨_,rfl⟩ (fun h => by rw [hconn] at h; cases h)
  · rw [referer_ok_iff]
    exact ⟨fun h _ _ => h,fun h => h (by simpa using hconn) href⟩
  · exact iff_of_true ⟨_,rfl⟩ (fun _ h => absurd h href)

/-- `process_line` takes a line, or fails, and returns 0 only for the empty one. -/
theorem processLine_iff {http : Http} {line : Bytes} {n : ℕ} (hline : line ≠ []) :
    (∃ http', processLine isDir http line n = .ok (1,http')) ↔ Takes isDir http line n := by
  rw [processLine,if_neg hline,Takes]
  split_ifs with hn hcolon
  · exact requestLine_iff
  · have hfield : ∀ x : Except Fault Http,
        (∃ http', (x >>= fun http => (.ok (1,http) : Except Fault (ℤ × Http))) = .ok (1,http')) ↔
          ∃ http', x = .ok http' := by
      intro x
      cases x with
      | error e => simp
      | ok a => simp
    simp only [FieldTakes,hcolon,true_implies]
    rw [hfield,field_ok_iff]
  · exact iff_of_true ⟨http,rfl⟩ (fun h => absurd h hcolon)

theorem processLine_ne_zero {http http' : Http} {line : Bytes} {n : ℕ} {rc : ℤ}
    (hline : line ≠ []) (h : processLine isDir http line n = .ok (rc,http')) : rc = 1 ∨ rc = -1 := by
  rw [processLine,if_neg hline] at h
  split_ifs at h with hn hcolon
  · rw [requestLine] at h
    split_ifs at h
    split at h <;> cases h
    · exact Or.inl rfl
    · exact Or.inr rfl
  · obtain ⟨http₁,-,h⟩ := bind_eq_ok.mp h
    cases h
    exact Or.inl rfl
  · cases h
    exact Or.inl rfl

/-- Every turn of the loop that takes a line shortens the text. -/
theorem nextLine_lt {s : Bytes} (h : (nextLine s).1 ≠ []) : (nextLine s).2.length < s.length := by
  have hsplit : ∀ t : Bytes, (t.takeWhile (· ≠ 10)).length+(t.dropWhile (· ≠ 10)).length = t.length := by
    intro t
    rw [← List.length_append,List.takeWhile_append_dropWhile]
  obtain ⟨t,ht,hle⟩ : ∃ t : Bytes, (if s.head? = some 10 then s.tail else s) = t ∧ t.length ≤ s.length := by
    refine ⟨_,rfl,?_⟩
    split_ifs
    · rw [List.length_tail]
      exact Nat.sub_le _ _
    · exact le_rfl
  have hlen := hsplit t
  simp only [nextLine,ht] at h ⊢
  split_ifs at h ⊢ with hrest hcr
  · have hpos : 0 < (t.takeWhile (· ≠ 10)).length := List.length_pos_iff.mpr h
    change 0 < s.length
    omega
  · have hpos : 0 < (t.takeWhile (· ≠ 10)).dropLast.length := List.length_pos_iff.mpr h
    rw [List.length_dropLast] at hpos
    change (t.dropWhile (· ≠ 10)).length < s.length
    omega
  · have hpos : 0 < (t.takeWhile (· ≠ 10)).length := List.length_pos_iff.mpr h
    change (t.dropWhile (· ≠ 10)).tail.length < s.length
    rw [List.length_tail]
    omega

theorem headLoop_iff (fuel : ℕ) : ∀ {http : Http} {s : Bytes} {n : ℕ}, s.length < fuel →
    ((∃ http', headLoop isDir fuel http s n = .ok (0,http')) ↔ Legible isDir http s n) := by
  induction fuel with
  | zero => exact fun h => absurd h (Nat.not_lt_zero _)
  | succ fuel ih =>
    intro http s n hlt
    by_cases hline : (nextLine s).1 = []
    · refine iff_of_true ⟨http,?_⟩ (.stop hline)
      simp [headLoop,processLine,hline]
    have hnext := nextLine_lt hline
    cases hp : processLine isDir http (nextLine s).1 n with
    | error e =>
      refine iff_of_false ?_ ?_
      · rintro ⟨http',h⟩
        rw [headLoop,hp] at h
        cases h
      · rintro (hstop | ⟨-,-,hone,-⟩)
        · exact hline hstop
        · rw [hp] at hone
          cases hone
    | ok r =>
      obtain ⟨rc,http₁⟩ := r
      rcases processLine_ne_zero hline hp with rfl | rfl
      · have hstep : headLoop isDir (fuel+1) http s n =
            headLoop isDir fuel http₁ (nextLine s).2 (n+1) := by
          rw [headLoop,hp]
          rfl
        rw [hstep,ih (by omega)]
        constructor
        · exact .line hline ((processLine_iff hline).mp ⟨http₁,hp⟩) hp
        · rintro (hstop | ⟨-,-,hone,hrest⟩)
          · exact absurd hstop hline
          · rw [hp] at hone
            cases hone
            exact hrest
      · refine iff_of_false ?_ ?_
        · rintro ⟨http',h⟩
          rw [headLoop,hp] at h
          cases h
        · rintro (hstop | ⟨-,-,hone,-⟩)
          · exact hline hstop
          · rw [hp] at hone
            cases hone

/-! ## Arrival in segments -/

/-- A header block: all bytes up to its first empty line, shorter than the buffer. -/
structure HeaderBlock where
  bytes : Bytes
  ends : find crlfcrlf bytes = some (bytes.length-4)
  short : bytes.length < TOR_BUFSIZE

/-- A way to split the block into the segments in which it arrives. -/
structure Split (block : HeaderBlock) where
  segs : List Bytes
  nonempty : ∀ seg ∈ segs, seg ≠ []
  joined : segs.flatten = block.bytes

/-- `http_read_head` after each arrival, on what is queued then; `rc` is the result of the
last call. -/
def arrive (isDir : Bytes → Bool) : List Bytes → ℤ → Http → Bytes →
    Except Fault (ℤ × Http × Bytes)
  | [],rc,http,queue => .ok (rc,http,queue)
  | seg::segs,_,http,queue => do
    let r ← httpReadHead isDir http (queue++seg)
    arrive isDir segs r.1 r.2.1 r.2.2

/-- The call made on the complete block succeeds and leaves `path`, `fname` and `conn` as
one call on the whole block does. -/
def Insensitive (isDir : Bytes → Bool) (d : DataDir) (block : HeaderBlock) (segs : List Bytes) :
    Prop :=
  ∃ http queue rc http' queue', arrive isDir segs (-1) (httpNew d) [] = .ok (0,http,queue) ∧
    httpReadHead isDir (httpNew d) block.bytes = .ok (rc,http',queue') ∧
    http.path = http'.path ∧ http.fname = http'.fname ∧ http.conn = http'.conn

theorem peek_le {queue bs : Bytes} {len : ℕ} (h : peek queue len = some bs) : bs.length ≤ len := by
  rw [peek] at h
  split_ifs at h
  cases h
  exact List.length_take_le _ _

/-- With anything counted before, the buffer starts with a NUL. -/
theorem httpReadHead_again (isDir : Bytes → Bool) {http : Http} (queue : Bytes) (hpos : 0 < http.rblen)
    (hle : http.rblen ≤ TOR_BUFSIZE) :
    ∃ http', httpReadHead isDir http queue = .ok (-1,http',queue) ∧ 0 < http'.rblen ∧
      http'.rblen ≤ TOR_BUFSIZE := by
  rw [httpReadHead,if_neg (not_lt.mpr hle)]
  cases hpeek : peek queue (TOR_BUFSIZE-http.rblen) with
  | none => exact ⟨http,rfl,hpos,hle⟩
  | some bs =>
    have hbs := peek_le hpeek
    obtain ⟨k,hk⟩ : ∃ k, http.rblen = k+1 := ⟨http.rblen-1,by omega⟩
    have hbuf : List.replicate http.rblen 0++bs = 0::(List.replicate k 0++bs) := by
      rw [hk,List.replicate_succ,List.cons_append]
    have hnone : strstr (0::(List.replicate k 0++bs)) crlfcrlf = none := rfl
    have hsum : (http.rblen+bs.length)%2^14 = http.rblen+bs.length := by
      rw [TOR_BUFSIZE] at hbs hle
      exact Nat.mod_eq_of_lt (by omega)
    simp only [hbuf,hnone]
    rw [if_pos (Or.inr List.mem_cons_self)]
    refine ⟨_,rfl,?_,?_⟩
    · simp only [hsum]
      omega
    · simp only [hsum]
      omega

/-- So no later call finds the head. -/
theorem arrive_again (isDir : Bytes → Bool) (segs : List Bytes) :
    ∀ {http : Http} (queue : Bytes), 0 < http.rblen →
    http.rblen ≤ TOR_BUFSIZE →
    ∃ http' queue', arrive isDir segs (-1) http queue = .ok (-1,http',queue') := by
  induction segs with
  | nil => exact fun _ _ _ => ⟨_,_,rfl⟩
  | cons seg segs ih =>
    intro http queue hpos hle
    obtain ⟨http₁,hcall,hpos₁,hle₁⟩ := httpReadHead_again isDir (queue++seg) hpos hle
    rw [arrive,hcall,ok_bind]
    exact ih _ hpos₁ hle₁

theorem cstr_length_lt {s : Bytes} (h : 0 ∈ s) : (cstr s).length < s.length := by
  have hprefix : cstr s <+: s := List.takeWhile_prefix _
  rcases hprefix.length_le.lt_or_eq with hlt | heq
  · exact hlt
  · rw [← hprefix.eq_of_length heq] at h
    have hzero := List.mem_takeWhile_imp h
    simp at hzero

/-- What `strstr` sees of a block, if it is not all of it, holds no empty line. -/
theorem strstr_part (block : HeaderBlock) {s : Bytes} (hs : cstr s <+: block.bytes)
    (hlt : (cstr s).length < block.bytes.length) : strstr s crlfcrlf = none := by
  have hlen : block.bytes.length-4+crlfcrlf.length ≤ block.bytes.length := find_le _ block.ends
  rw [strstr,List.prefix_iff_eq_take.mp hs]
  refine find_take_none block.ends ?_
  have hfour : crlfcrlf.length = 4 := rfl
  omega

theorem httpReadHead_part (isDir : Bytes → Bool) (d : DataDir) (block : HeaderBlock) {queue : Bytes} (hne : queue ≠ [])
    (hpart : queue <+: block.bytes) (hlt : queue.length < block.bytes.length) :
    ∃ http', httpReadHead isDir (httpNew d) queue = .ok (-1,http',queue) ∧ 0 < http'.rblen ∧
      http'.rblen ≤ TOR_BUFSIZE := by
  have hshort := block.short
  have hpeek : peek queue (TOR_BUFSIZE-(httpNew d).rblen) = some queue := by
    rw [peek,if_neg hne]
    exact congrArg some (List.take_of_length_le (by simp only [httpNew]; omega))
  have hcstr : cstr queue <+: queue := List.takeWhile_prefix _
  have hnone : strstr queue crlfcrlf = none :=
    strstr_part block (hcstr.trans hpart) (hcstr.length_le.trans_lt hlt)
  have hpos : 0 < queue.length := List.length_pos_iff.mpr hne
  have hbuf : List.replicate (httpNew d).rblen 0++queue = queue := rfl
  have hmod : ((httpNew d).rblen+queue.length)%2^14 = queue.length := by
    rw [TOR_BUFSIZE] at hshort
    simp only [httpNew,Nat.zero_add]
    exact Nat.mod_eq_of_lt (by omega)
  rw [httpReadHead,if_neg (by simp [httpNew]),hpeek]
  simp only [hbuf,hnone,hmod]
  rw [if_pos (Or.inl (by omega))]
  exact ⟨_,rfl,hpos,by simp only; omega⟩

/-- One call on the whole block succeeds where its lines are taken. -/
theorem httpReadHead_whole (d : DataDir) (block : HeaderBlock) :
    (∃ http queue, httpReadHead isDir (httpNew d) block.bytes = .ok (0,http,queue)) ↔
      0 ∉ block.bytes ∧ Legible isDir (httpNew d) block.bytes 0 := by
  have hshort := block.short
  have hfour : block.bytes.length-4+crlfcrlf.length ≤ block.bytes.length := find_le _ block.ends
  have hcrlf : crlfcrlf.length = 4 := rfl
  have hne : block.bytes ≠ [] := by
    intro h
    rw [h] at hfour
    simp [hcrlf] at hfour
  have hpeek : peek block.bytes (TOR_BUFSIZE-(httpNew d).rblen) = some block.bytes := by
    rw [peek,if_neg hne]
    exact congrArg some (List.take_of_length_le (by simp only [httpNew]; omega))
  have hbuf : List.replicate (httpNew d).rblen 0++block.bytes = block.bytes := rfl
  rw [httpReadHead,if_neg (by simp [httpNew]),hpeek]
  simp only [hbuf]
  by_cases hnul : 0 ∈ block.bytes
  · have hcstr : cstr block.bytes <+: block.bytes := List.takeWhile_prefix _
    rw [strstr_part block hcstr (cstr_length_lt hnul)]
    simp only
    rw [if_pos (Or.inr hnul)]
    simp [hnul]
  · have hfound : strstr block.bytes crlfcrlf = some (block.bytes.length-4) := by
      rw [strstr,cstr_of_noNul hnul,block.ends]
    have htake : block.bytes.take (block.bytes.length-4+4) = block.bytes :=
      List.take_of_length_le (by omega)
    rw [hfound]
    simp only [htake,cstr_of_noNul hnul]
    rw [if_pos hshort,← headLoop_iff (block.bytes.length+1) (Nat.lt_succ_self _)]
    constructor
    · rintro ⟨http,queue,h⟩
      obtain ⟨⟨rc,http₁⟩,hr,h⟩ := bind_eq_ok.mp h
      simp only [Except.ok.injEq,Prod.mk.injEq] at h
      exact ⟨hnul,http₁,by rw [hr,h.1]⟩
    · rintro ⟨-,http,h⟩
      exact ⟨http,_,by rw [h]; rfl⟩

theorem HeaderBlock.four_le (block : HeaderBlock) : 4 ≤ block.bytes.length := by
  have h : block.bytes.length-4+crlfcrlf.length ≤ block.bytes.length := find_le _ block.ends
  have hcrlf : crlfcrlf.length = 4 := rfl
  omega

/-- More than one segment: the first call counts a part of the block. -/
theorem not_insensitive_parts (d : DataDir) (block : HeaderBlock) {seg seg' : Bytes}
    {segs : List Bytes} (hne : seg ≠ []) (hne' : seg' ≠ [])
    (hjoin : (seg::seg'::segs).flatten = block.bytes) :
    ¬Insensitive isDir d block (seg::seg'::segs) := by
  rintro ⟨http,queue,rc,http',queue',hrun,-⟩
  have hpart : seg <+: block.bytes := ⟨(seg'::segs).flatten,by rw [← hjoin]; rfl⟩
  have hlt : seg.length < block.bytes.length := by
    have hpos := List.length_pos_iff.mpr hne'
    rw [← hjoin]
    simp only [List.flatten_cons,List.length_append]
    omega
  obtain ⟨http₁,hcall,hpos,hle⟩ := httpReadHead_part isDir d block hne hpart hlt
  obtain ⟨http₂,queue₂,hlast⟩ :=
    arrive_again isDir (seg'::segs) seg hpos hle
  rw [arrive,List.nil_append,hcall,ok_bind,hlast] at hrun
  simp at hrun

theorem insensitive_whole_iff (d : DataDir) (block : HeaderBlock) :
    Insensitive isDir d block [block.bytes] ↔
      0 ∉ block.bytes ∧ Legible isDir (httpNew d) block.bytes 0 := by
  rw [← httpReadHead_whole]
  constructor
  · rintro ⟨http,queue,rc,http',queue',hrun,-⟩
    rw [arrive,List.nil_append] at hrun
    obtain ⟨⟨rc₁,http₁,queue₁⟩,hcall,hrun⟩ := bind_eq_ok.mp hrun
    rw [arrive] at hrun
    simp only [Except.ok.injEq,Prod.mk.injEq] at hrun
    exact ⟨http₁,queue₁,by rw [hcall,hrun.1]⟩
  · rintro ⟨http,queue,hcall⟩
    refine ⟨http,queue,0,http,queue,?_,hcall,rfl,rfl,rfl⟩
    rw [arrive,List.nil_append,hcall]
    rfl

/-- Reading a head is insensitive to fragmentation exactly where there is none. -/
theorem headInsensitive_iff (d : DataDir) (block : HeaderBlock) (split : Split block) :
    Insensitive isDir d block split.segs ↔
      split.segs = [block.bytes] ∧ 0 ∉ block.bytes ∧ Legible isDir (httpNew d) block.bytes 0 := by
  obtain ⟨segs,hnonempty,hjoin⟩ := split
  rcases segs with _ | ⟨seg,_ | ⟨seg',segs⟩⟩
  · have hfour := block.four_le
    rw [← hjoin] at hfour
    exact absurd hfour (by decide)
  · have hseg : seg = block.bytes := by simpa using hjoin
    subst hseg
    rw [insensitive_whole_iff]
    exact ⟨fun h => ⟨rfl,h⟩,fun h => h.2⟩
  · refine iff_of_false (not_insensitive_parts d block (hnonempty seg (by simp))
      (hnonempty seg' (by simp)) hjoin) ?_
    rintro ⟨h,-⟩
    simp at h

/-- The request `GET /a`. -/
def getA : HeaderBlock where
  bytes := ascii "GET /a"++crlfcrlf
  ends := by decide
  short := by decide

def here : DataDir where
  name := ascii "./"
  noNul := by decide
  fits := by decide

/-- The request line first, the empty line behind it. -/
def getASplit : Split getA where
  segs := [ascii "GET /a",crlfcrlf]
  nonempty := by decide
  joined := by decide

/-- A block that is read in one segment and never in two. -/
theorem not_insensitive_getA :
    ¬∀ (isDir : Bytes → Bool) (d : DataDir) (block : HeaderBlock) (split : Split block),
      0 ∉ block.bytes → Legible isDir (httpNew d) block.bytes 0 →
        Insensitive isDir d block split.segs := by
  intro h
  have hlegible : Legible (fun _ => false) (httpNew here) getA.bytes 0 := by
    have hline : processLine (fun _ => false) (httpNew here) (nextLine getA.bytes).1 0 =
        .ok (1,⟨ascii "a",ascii "./",false,0⟩) := by decide
    refine .line (by decide) ?_ hline (.stop (by decide))
    exact ⟨by decide,by decide,97,[],by decide,by decide⟩
  refine not_insensitive_parts here getA ?_ ?_ getASplit.joined
    (h (fun _ => false) here getA getASplit (by decide) hlegible)
  · decide
  · decide

end TorHttp
end RecycleBin
