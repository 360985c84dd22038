import RecycleBin.AntHttp

/-! The head of a response. It is parsed when the first bytes that arrive contain all of it,
and not at all when they do not. -/
namespace RecycleBin
namespace AntHttp
open AntHash (Bytes cstr)
open AntVisited (isspace isdigit)
open AntBuf hiding Bytes
open AntSocket hiding Bytes
open CString

/-! ### What the head sets -/

/-- The fields a head determines. -/
structure Fields where
  httpCode : ℤ
  filesize : ℤ
  chunksize : ℤ
  location : Bytes
  isgzip : Bool
  close : Bool
  cookies : Option Bytes
  deriving DecidableEq

def HttpInfo.fields (http : HttpInfo) : Fields :=
  ⟨http.httpCode,http.filesize,http.chunksize,http.location,http.isgzip,http.close,http.cookies⟩

/-- The fields of the head are as they were, and so is how far the reads are. -/
structure Same (http http' : HttpInfo) : Prop where
  fields : http'.fields = http.fields
  linecount : http'.linecount = http.linecount
  status : http'.status = http.status

theorem Same.refl (http : HttpInfo) : Same http http := ⟨rfl,rfl,rfl⟩

theorem Same.chunkhead (http : HttpInfo) (n : ℤ) : Same http { http with chunkhead := n } :=
  ⟨rfl,rfl,rfl⟩

theorem Same.trans {a b c : HttpInfo} (h : Same a b) (h' : Same b c) : Same a c :=
  ⟨h'.fields.trans h.fields,h'.linecount.trans h.linecount,h'.status.trans h.status⟩

/-! ### The body keeps the head -/

/-- A part of `http_read_body` that returns keeps the head. -/
def Kept (http : HttpInfo) (x : Part) : Prop := ∀ flow http' t,x = .ok (flow,http',t) → Same http http'

namespace Kept
variable {http http' : HttpInfo} {α : Type}

theorem ok (flow : Flow) (s : Sock) (h : Same http http') : Kept http (.ok (flow,http',s)) := by
  intro _ _ _ hx
  cases hx
  exact h

theorem bind {x : Except Stop α} {f : α → Part} (h : ∀ a,x = .ok a → Kept http (f a)) :
    Kept http (x >>= f) := by
  cases x with
  | error e => exact fun _ _ _ h => nomatch h
  | ok a => exact h a rfl

theorem trans {x : Part} (hs : Same http http') (h : Kept http' x) : Kept http x :=
  fun flow http'' t hx => hs.trans (h flow http'' t hx)

end Kept

section Frame
variable {mem : Memory} {http : HttpInfo} {s : Sock}

theorem appendPage_same {bs : Bytes} {http' : HttpInfo} (h : appendPage mem http bs = .ok http') :
    Same http http' := by
  rw [appendPage] at h
  split at h
  · cases h
    exact .refl http
  · obtain ⟨r,-,h⟩ := bind_eq_ok.mp h
    cases h
    exact ⟨rfl,rfl,rfl⟩

theorem readSize_kept (len : ℕ) : Kept http (readSize http s len) := by
  apply Kept.bind
  intro ⟨r,t⟩ _
  cases r with
  | failed => exact .ok _ _ (.refl http)
  | bytes line => exact .ok _ _ (.chunkhead http _)
  | timeout line => exact .ok _ _ (.chunkhead http _)

theorem chunkSize_kept : Kept http (chunkSize http s) := by
  rw [chunkSize]
  split
  · exact .ok _ _ (.refl http)
  · apply Kept.bind
    intro ⟨r,t⟩ _
    cases r with
    | again => exact .ok _ _ (.refl http)
    | failed => exact .ok _ _ (.refl http)
    | bytes line =>
      dsimp only
      split
      · exact .ok _ _ (.refl http)
      · exact readSize_kept _

theorem chunkData_kept : Kept http (chunkData mem http s) := by
  rw [chunkData]
  split
  · exact .ok _ _ (.refl http)
  · apply Kept.bind
    intro ⟨r,t⟩ _
    dsimp only
    split
    · exact .ok _ _ (.refl http)
    · apply Kept.bind
      intro http' h
      apply Kept.bind
      intro t _
      have hsame := appendPage_same h
      exact .ok _ _ ⟨hsame.fields,hsame.linecount,hsame.status⟩

theorem chunkLoop_kept (n : ℕ) : ∀ {http : HttpInfo} {s : Sock},Kept http (chunkLoop mem n http s) := by
  induction n with
  | zero => exact fun _ _ _ h => nomatch h
  | succ n ih =>
    intro http s
    apply Kept.bind
    intro ⟨flow,http',t⟩ hsize
    have hsame := chunkSize_kept _ _ _ hsize
    dsimp only
    split
    · exact .ok _ _ hsame
    · apply Kept.trans hsame
      apply Kept.bind
      intro ⟨flow,http'',u⟩ hdata
      have hsame' := chunkData_kept _ _ _ hdata
      dsimp only
      split
      · exact .ok _ _ hsame'
      · exact ih.trans hsame'

theorem lengthBody_kept : Kept http (lengthBody mem http s) := by
  rw [lengthBody]
  dsimp only
  split
  · exact .ok _ _ (.refl http)
  · apply Kept.bind
    intro ⟨r,t⟩ _
    dsimp only
    split
    · exact .ok _ _ (.refl http)
    · apply Kept.bind
      intro http' h
      exact .ok _ _ (appendPage_same h)

theorem closeLoop_kept (n : ℕ) : ∀ {http : HttpInfo} {s : Sock},Kept http (closeLoop mem n http s) := by
  induction n with
  | zero => exact fun _ _ _ h => nomatch h
  | succ n ih =>
    intro http s
    apply Kept.bind
    intro ⟨r,t⟩ _
    dsimp only
    split
    · exact .ok _ _ ⟨rfl,rfl,rfl⟩
    · split
      · exact .ok _ _ ⟨rfl,rfl,rfl⟩
      · apply Kept.bind
        intro http' h
        have hsame := appendPage_same h
        exact ih.trans ⟨hsame.fields,hsame.linecount,hsame.status⟩

theorem readBody_kept : Kept http (readBody mem http s) := by
  rw [readBody]
  split
  · exact chunkLoop_kept _
  split
  · exact lengthBody_kept
  split
  · exact closeLoop_kept _
  · exact .ok _ _ (.refl http)

/-- `http_read_body` keeps the head. -/
theorem httpReadBody_kept {rc : ℤ} {http' : HttpInfo} {t : Sock}
    (h : httpReadBody mem http s = .ok (rc,http',t)) :
    http'.fields = http.fields ∧ http'.status.readHead = http.status.readHead ∧
      http'.linecount = http.linecount := by
  rw [httpReadBody] at h
  split at h
  · cases h
    exact ⟨rfl,rfl,rfl⟩
  · obtain ⟨⟨flow,http₁,u⟩,hr,h⟩ := bind_eq_ok.mp h
    have hsame := readBody_kept _ _ _ hr
    have hstatus := congrArg Status.readHead hsame.status
    dsimp only at h
    split at h
    · cases h
      exact ⟨hsame.fields,hstatus,hsame.linecount⟩
    · cases h
      exact ⟨hsame.fields,hstatus,hsame.linecount⟩

end Frame
/-! ### Heads -/

/-- A line of a head, short enough for the buffer it is copied into. -/
structure Line where
  text : Bytes
  ne_nil : text ≠ []
  noNul : 0 ∉ text
  noCrlf : find crlf text = none
  short : text.length < 1024

/-- The lines, and the empty line. -/
def headBytes (ls : List Line) : Bytes := ls.flatMap (fun l => l.text++crlf)++crlf

theorem headBytes_cons (l : Line) (ls : List Line) :
    headBytes (l::ls) = l.text++(crlf++headBytes ls) := by
  simp [headBytes]

/-- The head of a response: a status line with a code of three digits, and header lines,
shorter than a peek. -/
structure Head where
  version : Bytes
  code : Bytes
  reason : Bytes
  statusLine : Line
  fieldLines : List Line
  version_word : ∀ b ∈ version,isspace b = false
  code_digits : ∀ b ∈ code,isdigit b = true
  code_length : code.length = 3
  code_head : code.head? ≠ some 48
  reason_head : ∀ b,reason.head? = some b → isdigit b = false
  text : statusLine.text = version++32::(code++reason)
  short : (headBytes (statusLine::fieldLines)).length < bufsiz

def Head.lines (h : Head) : List Line := h.statusLine::h.fieldLines

def Head.bytes (h : Head) : Bytes := headBytes h.lines

/-! ### Where a head ends -/

/-- No CRLF starts in a line, nor one with the CR behind it. -/
theorem Line.not_crlf {b : UInt8} {t r : Bytes} (h : find crlf (b::t) = none) :
    ¬(b = 13 ∧ (t++13::r).head? = some 10) := by
  rintro ⟨hb,hhead⟩
  cases t with
  | nil => exact absurd (Option.some.inj hhead) (by decide)
  | cons c t =>
    have hc : c = 10 := Option.some.inj hhead
    rw [hb,hc] at h
    cases h

theorem find_crlf_tail {b : UInt8} {t : Bytes} (h : find crlf (b::t) = none) : find crlf t = none := by
  cases hp : crlf.isPrefixOf (b::t) with
  | true =>
    rw [find,hp] at h
    cases h
  | false =>
    rw [find_cons hp] at h
    exact Option.map_eq_none_iff.mp h

/-- The search for the end of the head passes over a line. -/
theorem find_line (r t : Bytes) : find crlf t = none →
    find (crlf++crlf) (t++(crlf++r)) = (find (crlf++crlf) (crlf++r)).map (·+t.length) := by
  induction t with
  | nil =>
    intro _
    simp
  | cons b t ih =>
    intro h
    have hp := isPrefixOf_crlf (p := crlf) (Line.not_crlf (r := 10::r) h)
    show find (crlf++crlf) (b::(t++13::10::r)) = _
    rw [find_cons hp]
    show (find (crlf++crlf) (t++(crlf++r))).map _ = _
    rw [ih (find_crlf_tail h),Option.map_map]
    rfl

/-- It passes over a CRLF that no other one follows. -/
theorem find_crlf {r : Bytes} (hr : crlf.isPrefixOf r = false) :
    find (crlf++crlf) (crlf++r) = (find (crlf++crlf) r).map (·+2) := by
  have h₁ : (crlf++crlf).isPrefixOf (13::10::r) = false := hr
  have h₂ : (crlf++crlf).isPrefixOf (10::r) = false := rfl
  show find (crlf++crlf) (13::10::r) = _
  rw [find_cons h₁,find_cons h₂,Option.map_map]
  rfl

/-- A line does not start with a CRLF. -/
theorem Line.not_isPrefixOf (l : Line) (r : Bytes) : crlf.isPrefixOf (l.text++(crlf++r)) = false := by
  cases ht : l.text with
  | nil => exact absurd ht l.ne_nil
  | cons b t =>
    have h := l.noCrlf
    rw [ht] at h
    exact isPrefixOf_crlf (p := []) (Line.not_crlf (r := 10::r) h)

/-- The head ends at the first empty line. -/
theorem find_headBytes (ls : List Line) : ∀ l : Line,
    find (crlf++crlf) (headBytes (l::ls)) = some ((headBytes (l::ls)).length-4) := by
  induction ls with
  | nil =>
    intro l
    have hlen : (headBytes [l]).length = l.text.length+4 := by simp [headBytes,crlf]
    have hend : find (crlf++crlf) (crlf++headBytes []) = some 0 := rfl
    rw [hlen,headBytes_cons,find_line _ _ l.noCrlf,hend]
    simp
  | cons l' ls ih =>
    intro l
    have hlen : 4 ≤ (headBytes (l'::ls)).length := by
      simp [headBytes,crlf]
      omega
    have hp : crlf.isPrefixOf (headBytes (l'::ls)) = false := by
      rw [headBytes_cons]
      exact l'.not_isPrefixOf _
    have hlen' : (headBytes (l::l'::ls)).length = l.text.length+2+(headBytes (l'::ls)).length := by
      rw [headBytes_cons,List.length_append,List.length_append,← Nat.add_assoc]
      rfl
    rw [hlen',headBytes_cons,find_line _ _ l.noCrlf,find_crlf hp,ih,Option.map_some,Option.map_some]
    congr 1
    omega

theorem length_le_headBytes (ls : List Line) : ls.length ≤ (headBytes ls).length := by
  induction ls with
  | nil => exact Nat.zero_le _
  | cons l ls ih =>
    rw [headBytes_cons,List.length_append,List.length_append,List.length_cons]
    have : crlf.length = 2 := rfl
    omega

theorem headBytes_noNul (ls : List Line) : 0 ∉ headBytes ls := by
  intro h
  cases List.mem_append.mp h with
  | inl h =>
    obtain ⟨l,-,hl⟩ := List.mem_flatMap.mp h
    exact (List.mem_append.mp hl).elim l.noNul (by decide)
  | inr h => exact absurd h (by decide)

variable (h : Head)

theorem Head.noNul : 0 ∉ h.bytes := headBytes_noNul _

theorem Head.four_le : 4 ≤ h.bytes.length := by
  show 4 ≤ (headBytes (h.statusLine::h.fieldLines)).length
  simp [headBytes,crlf]
  omega

/-- A response that starts with the whole head. -/
theorem Head.findHead_whole (r : Bytes) (m : ℕ) (hm : h.bytes.length ≤ m) :
    findHead ((h.bytes++r).take m) = .ok (some (h.bytes.length-4)) := by
  have htake : (h.bytes++r).take m = h.bytes++r.take (m-h.bytes.length) := by
    rw [List.take_append,List.take_of_length_le hm]
  have hfind := find_append (cstr (r.take (m-h.bytes.length))) _ (find_headBytes h.fieldLines h.statusLine)
  have hstr : strstr (h.bytes++r.take (m-h.bytes.length)) (crlf++crlf) =
      some (h.bytes.length-4) := by
    rw [strstr,cstr_append h.noNul]
    exact hfind
  rw [findHead,htake,hstr]

/-- A response that ends inside of the head. -/
theorem Head.findHead_part (r : Bytes) {m : ℕ} (hm : m < h.bytes.length) :
    findHead ((h.bytes++r).take m) = .ok none := by
  have htake : (h.bytes++r).take m = h.bytes.take m := List.take_append_of_le_length hm.le
  have hlen := h.four_le
  have hnone : strstr (h.bytes.take m) (crlf++crlf) = none := by
    rw [strstr,cstr_of_noNul fun h0 => h.noNul (List.mem_of_mem_take h0)]
    apply find_take_none (find_headBytes h.fieldLines h.statusLine)
    show m < h.bytes.length-4+4
    omega
  have hshort : ¬(bufsiz ≤ (h.bytes.take m).length ∧ 0 ∉ h.bytes.take m) := by
    have := h.short
    rw [List.length_take]
    show ¬(bufsiz ≤ min m h.bytes.length ∧ _)
    intro hor
    have : bufsiz ≤ h.bytes.length := Nat.le_trans hor.1 (Nat.min_le_right _ _)
    exact absurd h.short (Nat.not_lt_of_le this)
  rw [findHead,htake,hnone]
  exact if_neg hshort

/-! ### What the lines set -/

/-- One line of the head. -/
def parseLine (mem : Memory) (http : HttpInfo) (l : Line) : HttpInfo :=
  let http := (processLine mem http l.text http.linecount).2
  { http with linecount := http.linecount+1 }

def parse (mem : Memory) (http : HttpInfo) (ls : List Line) : HttpInfo :=
  { ls.foldl (parseLine mem) http with endHeader := true }

theorem copyLine_line (r t : Bytes) : ∀ {line : Bytes},0 ∉ t → find crlf t = none →
    line.length+t.length < 1024 → copyLine line (t++(crlf++r)) = .ok (line++t,r) := by
  induction t with
  | nil =>
    intro line _ _ hlen
    rw [List.length_nil,Nat.add_zero] at hlen
    show copyLine line (13::10::r) = _
    rw [copyLine,if_neg (Nat.not_le_of_lt hlen),if_pos ⟨rfl,rfl⟩,List.append_nil]
    rfl
  | cons b t ih =>
    intro line h0 hcrlf hlen
    rw [List.length_cons] at hlen
    have hb : b ≠ 0 := fun hb => h0 (by simp [hb])
    have ht : 0 ∉ t := fun ht => h0 (List.mem_cons_of_mem b ht)
    have hlen' : (line++[b]).length+t.length < 1024 := by
      rw [List.length_append,List.length_singleton]
      omega
    show copyLine line (b::(t++13::10::r)) = _
    rw [copyLine,if_neg (by omega),if_neg (Line.not_crlf hcrlf),if_neg hb]
    show copyLine (line++[b]) (t++(crlf++r)) = _
    rw [ih ht (find_crlf_tail hcrlf) hlen',List.append_assoc]
    rfl

/-- No line of a header ends the head or sets the status code. -/
theorem processField_frame (mem : Memory) (http : HttpInfo) (tag p : Bytes) :
    (processField mem http tag p).1 ≠ 0 ∧
      (processField mem http tag p).2.httpCode = http.httpCode := by
  rw [processField]
  by_cases h1 : strcaseeq tag (ascii "Location")
  · rw [if_pos h1]
    exact ⟨one_ne_zero,rfl⟩
  rw [if_neg h1]
  by_cases h2 : strcaseeq tag (ascii "Content-Length") ∧ http.filesize = -1
  · rw [if_pos h2]
    exact ⟨one_ne_zero,rfl⟩
  rw [if_neg h2]
  by_cases h3 : strcaseeq tag (ascii "Transfer-Encoding") ∧ AntVisited.startsWith (ascii "chunked") p
  · rw [if_pos h3]
    exact ⟨one_ne_zero,rfl⟩
  rw [if_neg h3]
  by_cases h4 : strcaseeq tag (ascii "Content-Encoding")
  · rw [if_pos h4]
    refine ⟨one_ne_zero,?_⟩
    show (if _ then _ else http).httpCode = _
    split <;> rfl
  rw [if_neg h4]
  by_cases h5 : strcaseeq tag (ascii "Set-Cookie")
  · rw [if_pos h5]
    cases http.cookies with
    | none =>
      refine ⟨one_ne_zero,?_⟩
      show (if _ then _ else http).httpCode = _
      split <;> rfl
    | some tmp =>
      dsimp only
      split
      · exact ⟨one_ne_zero,rfl⟩
      · refine ⟨?_,rfl⟩
        show (-1 : ℤ) ≠ 0
        decide
  rw [if_neg h5]
  by_cases h6 : strcaseeq tag (ascii "Connection")
  · rw [if_pos h6]
    refine ⟨one_ne_zero,?_⟩
    show (if _ then _ else http).httpCode = _
    split <;> rfl
  · rw [if_neg h6]
    exact ⟨one_ne_zero,rfl⟩

theorem processField_ne_zero (mem : Memory) (http : HttpInfo) (tag p : Bytes) :
    (processField mem http tag p).1 ≠ 0 := (processField_frame mem http tag p).1

theorem processLine_ne_zero (mem : Memory) (http : HttpInfo) {line : Bytes} (h : line ≠ []) (n : ℕ) :
    (processLine mem http line n).1 ≠ 0 := by
  rw [processLine,if_neg h]
  split
  · exact one_ne_zero
  · split
    · exact one_ne_zero
    · exact processField_ne_zero _ _ _ _

/-- The loop takes the lines one by one. -/
theorem headLoop_headBytes (mem : Memory) (ls : List Line) : ∀ {http : HttpInfo} {n : ℕ},
    ls.length < n → headLoop mem n http (headBytes ls) = .ok (parse mem http ls) := by
  induction ls with
  | nil =>
    intro http n hn
    obtain ⟨m,rfl⟩ : ∃ m,n = m+1 := ⟨n-1,by omega⟩
    have hcopy : copyLine [] (headBytes []) = .ok ([],[]) := rfl
    rw [headLoop,hcopy]
    rfl
  | cons l ls ih =>
    intro http n hn
    obtain ⟨m,rfl⟩ : ∃ m,n = m+1 := ⟨n-1,by omega⟩
    have hcopy : copyLine [] (headBytes (l::ls)) = .ok (l.text,headBytes ls) := by
      have hlen : ([] : Bytes).length+l.text.length < 1024 := by
        rw [List.length_nil,Nat.zero_add]
        exact l.short
      rw [headBytes_cons,copyLine_line _ _ l.noNul l.noCrlf hlen]
      rfl
    have herr := processLine_ne_zero mem http l.ne_nil http.linecount
    rw [headLoop,hcopy]
    simp only [ok_bind]
    rw [if_neg herr]
    exact ih (Nat.lt_of_succ_lt_succ hn)

/-! ### The code -/

theorem processField_httpCode (mem : Memory) (http : HttpInfo) (tag p : Bytes) :
    (processField mem http tag p).2.httpCode = http.httpCode := (processField_frame mem http tag p).2

/-- Only the first line sets the code. -/
theorem processLine_httpCode (mem : Memory) (http : HttpInfo) (line : Bytes) {n : ℕ} (hn : n ≠ 0) :
    (processLine mem http line n).2.httpCode = http.httpCode := by
  rw [processLine]
  split
  · rfl
  · split
    · rfl
    · exact processField_httpCode _ _ _ _

theorem foldl_httpCode (mem : Memory) (ls : List Line) : ∀ {http : HttpInfo},http.linecount ≠ 0 →
    (ls.foldl (parseLine mem) http).httpCode = http.httpCode ∧
      (ls.foldl (parseLine mem) http).linecount ≠ 0 := by
  induction ls with
  | nil => exact fun h => ⟨rfl,h⟩
  | cons l ls ih =>
    intro http h
    have hnext : (parseLine mem http l).linecount ≠ 0 := Nat.succ_ne_zero _
    obtain ⟨hcode,hcount⟩ := ih hnext
    exact ⟨hcode.trans (processLine_httpCode mem http l.text h),hcount⟩

/-- The status line gives a code of three digits. -/
theorem Head.exists_code : ∃ n : ℕ,0 < n ∧ n < 1000 ∧
    strtol (h.statusLine.text.dropWhile fun b => !isspace b) = n := by
  obtain ⟨a,b,c,hcode⟩ := List.length_eq_three.mp h.code_length
  have hdigits := h.code_digits
  rw [hcode] at hdigits
  obtain ⟨hplus,hminus,hspace,ha,hpos⟩ := isdigit_spec a (hdigits a (by simp))
  obtain ⟨-,-,-,hb,-⟩ := isdigit_spec b (hdigits b (by simp))
  obtain ⟨-,-,-,hc,-⟩ := isdigit_spec c (hdigits c (by simp))
  have ha0 := hpos fun ha48 => h.code_head (by rw [hcode,ha48]; rfl)
  have hword : h.statusLine.text.dropWhile (fun b => !isspace b) = 32::(h.code++h.reason) := by
    rw [h.text,List.dropWhile_append_of_pos fun b hb => by simp [h.version_word b hb]]
    rfl
  have hspaces : (32::(h.code++h.reason)).dropWhile isspace = h.code++h.reason := by
    have h32 : isspace 32 = true := by decide
    rw [List.dropWhile_cons_of_pos h32,hcode]
    simp [hspace]
  have hsign : takeSign (h.code++h.reason) = (false,h.code++h.reason) := by
    rw [hcode]
    simp [takeSign,hplus,hminus]
  have hdigit : (h.code++h.reason).takeWhile isdigit = h.code := by
    rw [List.takeWhile_append_of_pos h.code_digits]
    cases hr : h.reason with
    | nil => exact List.append_nil _
    | cons d r =>
      have hd := h.reason_head d (by rw [hr]; rfl)
      rw [List.takeWhile_cons_of_neg (by simp [hd]),List.append_nil]
  refine ⟨10*(10*(a.toNat-48)+(b.toNat-48))+(c.toNat-48),by omega,by omega,?_⟩
  rw [hword,strtol,hspaces,hsign]
  simp only [hdigit]
  rw [hcode]
  simp only [List.foldl_cons,List.foldl_nil,Bool.false_eq_true,if_false]
  omega

theorem Head.httpCode_eq (mem : Memory) {http : HttpInfo} (hcount : http.linecount = 0) :
    (parse mem http h.lines).httpCode =
      toInt (strtol (h.statusLine.text.dropWhile fun b => !isspace b)) := by
  have hnext : (parseLine mem http h.statusLine).linecount ≠ 0 := Nat.succ_ne_zero _
  obtain ⟨hfold,-⟩ := foldl_httpCode mem h.fieldLines hnext
  show ((h.fieldLines.foldl (parseLine mem) (parseLine mem http h.statusLine)).httpCode) = _
  rw [hfold,parseLine,hcount]
  show (processLine mem http h.statusLine.text 0).2.httpCode = _
  rw [processLine,if_neg h.statusLine.ne_nil,if_pos rfl]

theorem Head.httpCode_ne_zero (mem : Memory) {http : HttpInfo} (hcount : http.linecount = 0) :
    (parse mem http h.lines).httpCode ≠ 0 := by
  obtain ⟨n,hpos,hlt,hn⟩ := h.exists_code
  rw [h.httpCode_eq mem hcount,hn,toInt_of_lt (by omega)]
  omega

/-! ### Reads -/

section Reads
variable {mem : Memory} {http : HttpInfo} {s : Sock}

/-- The framing is unknown before a head is read. -/
def unframed (http : HttpInfo) : HttpInfo := { http with filesize := -1,chunksize := -1 }

variable {h}

/-- A head that has arrived is parsed. -/
theorem httpReadHead_whole {r : Bytes} (hs : s.Sound) (hread : http.status.readHead = false)
    (hstream : s.stream = h.bytes++r) (hseen : h.bytes.length ≤ s.avail 0) :
    ∃ t,httpReadHead mem http s = .ok (0,readHeadDone (parse mem (unframed http) h.lines),t) ∧
      Skips s h.bytes.length t := by
  have hpos := h.four_le
  have hne : s.stream ≠ [] := by
    rw [hstream]
    exact List.append_ne_nil_of_left_ne_nil (List.length_pos_iff.mp (by omega)) _
  obtain ⟨t,ht,hskip,hbuf,hblen⟩ := sockRead_spec hs hne bufsiz
  have hm : h.bytes.length ≤ min bufsiz (s.avail 0) := Nat.le_min.mpr ⟨h.short.le,hseen⟩
  have hfind := h.findHead_whole r _ hm
  rw [← hstream] at hfind
  have hlen : h.bytes.length-4+4 = h.bytes.length := by omega
  obtain ⟨u,hu,hskip'⟩ := readnNonblock_buffer (s := t) (n := h.bytes.length) (by omega)
    (by rw [hblen]; exact hseen)
  have htake : t.buffer.take h.bytes.length = h.bytes := by
    rw [hbuf,List.take_take,Nat.min_eq_left hseen,hstream,List.take_left]
  have hloop : headLoop mem (h.bytes.length+1) (unframed http) (headBytes h.lines) =
      .ok (parse mem (unframed http) h.lines) :=
    headLoop_headBytes mem h.lines (Nat.lt_succ_of_le (length_le_headBytes h.lines))
  refine ⟨u,?_,?_⟩
  · rw [httpReadHead,if_neg (by rw [hread]; exact Bool.false_ne_true)]
    simp only [ht,ok_bind,hfind,ofFault,hlen,hu,received,htake]
    show (ofFault (headLoop mem (h.bytes.length+1) (unframed http) (headBytes h.lines)) >>= _) = _
    rw [hloop]
    rfl
  · rw [← Nat.zero_add h.bytes.length]
    exact hskip.trans hskip'

/-- A head that has arrived in part is taken to be read. -/
theorem httpReadHead_part {r : Bytes} (hs : s.Sound) (hread : http.status.readHead = false)
    (hne : s.stream ≠ []) (hstream : s.stream = h.bytes++r) (hpart : s.avail 0 < h.bytes.length) :
    ∃ t,httpReadHead mem http s = .ok (0,readHeadDone (unframed http),t) ∧ Skips s 0 t := by
  obtain ⟨t,ht,hskip,-,-⟩ := sockRead_spec hs hne bufsiz
  have hm : min bufsiz (s.avail 0) < h.bytes.length := Nat.lt_of_le_of_lt (Nat.min_le_right _ _) hpart
  have hfind := h.findHead_part r hm
  rw [← hstream] at hfind
  refine ⟨t,?_,hskip⟩
  rw [httpReadHead,if_neg (by rw [hread]; exact Bool.false_ne_true)]
  simp only [ht,ok_bind,hfind,ofFault]
  rfl

/-- One `do_read` of the event loop, until the page is handed over. -/
def readCall (mem : Memory) (http : HttpInfo) (s : Sock) : Except Stop (HttpInfo × Sock) :=
  if http.dump then .ok (http,s) else (doRead mem http s).map Prod.snd

/-- What `do_read` does behind the head. -/
theorem doRead_kept {http₁ : HttpInfo} {t : Sock} {rc : ℤ} {x : Option Bytes × HttpInfo × Sock}
    (hhead : httpReadHead mem http s = .ok (rc,http₁,t)) (hx : doRead mem http s = .ok x) :
    x.2.1.fields = http₁.fields ∧ x.2.1.status.readHead = http₁.status.readHead ∧
      x.2.1.linecount = http₁.linecount := by
  rw [doRead,hhead] at hx
  simp only [ok_bind] at hx
  split at hx
  · obtain ⟨⟨rc',http₂,u⟩,hbody,hx⟩ := bind_eq_ok.mp hx
    cases hx
    exact httpReadBody_kept hbody
  split at hx
  · cases hx
    exact ⟨rfl,rfl,rfl⟩
  · cases hx
    exact ⟨rfl,rfl,rfl⟩

/-- The first call that finds the head undone. -/
theorem readCall_first {http₁ http' : HttpInfo} {t u : Sock} {rc : ℤ}
    (hread : http.status.readHead = false) (hhead : httpReadHead mem http s = .ok (rc,http₁,t))
    (h : readCall mem http s = .ok (http',u)) :
    http'.fields = http₁.fields ∧ http'.status.readHead = http₁.status.readHead := by
  have hdump : http.dump = false := by simp [HttpInfo.dump,hread]
  rw [readCall,hdump,if_neg Bool.false_ne_true] at h
  cases hx : doRead mem http s with
  | error e =>
    rw [hx] at h
    cases h
  | ok x =>
    obtain ⟨url,http₂,v⟩ := x
    rw [hx] at h
    cases h
    have hkept := doRead_kept hhead hx
    exact ⟨hkept.1,hkept.2.1⟩

/-- Once the head counts as read no call changes its fields. -/
theorem readCall_kept {http' : HttpInfo} {u : Sock} (hread : http.status.readHead = true)
    (h : readCall mem http s = .ok (http',u)) :
    http'.fields = http.fields ∧ http'.status.readHead = true := by
  rw [readCall] at h
  split at h
  · cases h
    exact ⟨rfl,hread⟩
  · have hhead : httpReadHead mem http s = .ok (0,http,s) := if_pos hread
    cases hx : doRead mem http s with
    | error e =>
      rw [hx] at h
      cases h
    | ok x =>
      obtain ⟨url,http₂,v⟩ := x
      rw [hx] at h
      cases h
      have hkept := doRead_kept hhead hx
      exact ⟨hkept.1,hkept.2.1.trans hread⟩

theorem afterEach_kept (n : ℕ) : ∀ {http http' : HttpInfo} {s u : Sock},
    http.status.readHead = true → afterEach (readCall mem) n http s = .ok (http',u) →
      http'.fields = http.fields := by
  induction n with
  | zero =>
    intro http http' s u _ h
    cases h
    rfl
  | succ n ih =>
    intro http http' s u hread h
    rw [afterEach] at h
    split at h
    · cases h
      rfl
    · obtain ⟨⟨http₁,t⟩,hcall,h⟩ := bind_eq_ok.mp h
      have hkept := readCall_kept hread hcall
      exact (ih hkept.2 h).trans hkept.1

/-- A call that does nothing, after each segment. -/
theorem afterEach_const {call : HttpInfo → Sock → Except Stop (HttpInfo × Sock)}
    (hcall : ∀ s,call http s = .ok (http,s)) (n : ℕ) : ∀ {s : Sock},s.Sound →
      s.arrivals.length ≤ n → ∃ t,afterEach call n http s = .ok (http,t) ∧ segments t.arrivals = [] := by
  induction n with
  | zero =>
    intro s _ hn
    refine ⟨s,rfl,?_⟩
    rw [List.length_eq_zero_iff.mp (Nat.le_zero.mp hn)]
    rfl
  | succ n ih =>
    intro s hs hn
    cases hd : s.deliver with
    | none =>
      refine ⟨s,by rw [afterEach,hd],?_⟩
      by_contra hne
      obtain ⟨t,ht⟩ := deliver_data s.arrivals rfl hs hne
      rw [hd] at ht
      cases ht
    | some t =>
      obtain ⟨-,hsuffix,hlt,-⟩ := deliverFrom_some _ hd
      obtain ⟨u,hu,hempty⟩ := ih (s := t) (fun he => hs (hsuffix.subset he))
        (Nat.le_of_lt_succ (Nat.lt_of_lt_of_le hlt hn))
      refine ⟨u,?_,hempty⟩
      rw [afterEach,hd]
      simp only [hcall,ok_bind]
      exact hu

end Reads
/-! ### Fragmentation -/

/-- A fresh `http_info` whose request is sent. -/
def fresh (mem : Memory) (url : Bytes) : HttpInfo := httpSendHead (httpNew mem url)

/-- A response with this head arrives on a connection that does not fail. -/
structure Arrives (h : Head) (s : Sock) : Prop where
  buffer : s.buffer = []
  stream : h.bytes <+: s.stream
  sound : s.Sound

/-- After any number of segments with a `do_read` behind each, when the whole head has
arrived, the fields are those the head gives in one segment. -/
def Insensitive (mem : Memory) (url : Bytes) (h : Head) (s : Sock) : Prop :=
  ∀ n http t,afterEach (readCall mem) n (fresh mem url) s = .ok (http,t) →
    h.bytes.length+(segments t.arrivals).flatten.length ≤ s.stream.length →
      ∃ rc whole u,httpReadHead mem (fresh mem url) ⟨h.bytes,[],false⟩ = .ok (rc,whole,u) ∧
        http.fields = whole.fields

section Arrives
variable {mem : Memory} {url : Bytes} {h : Head} {s : Sock}

/-- The first segment of what arrives. -/
theorem Arrives.deliver (hs : Arrives h s) :
    ∃ t r,s.deliver = some t ∧ Skips s 0 t ∧ t.stream = h.bytes++r := by
  obtain ⟨r,hr⟩ := hs.stream
  have hpos := h.four_le
  have hne : s.stream ≠ [] := by
    rw [← hr]
    exact List.append_ne_nil_of_left_ne_nil (List.length_pos_iff.mp (by omega)) _
  have hsegs : segments s.arrivals ≠ [] := fun hnil => hne (by
    rw [Sock.stream,hs.buffer,hnil]
    rfl)
  obtain ⟨t,ht⟩ := deliver_data s.arrivals rfl hs.sound hsegs
  obtain ⟨hskip,-⟩ := deliver_skips hs.buffer ht
  exact ⟨t,r,ht,hskip,hskip.stream.trans hr.symm⟩

/-- The head in one segment. -/
theorem httpReadHead_alone (mem : Memory) (url : Bytes) (h : Head) :
    ∃ v,httpReadHead mem (fresh mem url) ⟨h.bytes,[],false⟩ =
      .ok (0,readHeadDone (parse mem (unframed (fresh mem url)) h.lines),v) := by
  have hpos := h.four_le
  have hone : (⟨h.bytes,[],false⟩ : Sock).avail 0 = h.bytes.length := by
    rw [Sock.avail,availFrom,if_pos (by show 0 < h.bytes.length; omega)]
    rfl
  obtain ⟨v,hwhole,-⟩ : ∃ v,httpReadHead mem (fresh mem url) ⟨h.bytes,[],false⟩ =
      .ok (0,readHeadDone (parse mem (unframed (fresh mem url)) h.lines),v) ∧ Skips _ _ v :=
    httpReadHead_whole (r := []) List.not_mem_nil rfl rfl hone.ge
  exact ⟨v,hwhole⟩

/-- After a first segment with a part of the head nothing of it is read any more. -/
theorem afterEach_part (mem : Memory) (url : Bytes) (hs : Arrives h s)
    (hpart : s.avail 0 < h.bytes.length) :
    ∃ n w,afterEach (readCall mem) n (fresh mem url) s =
      .ok (readHeadDone (unframed (fresh mem url)),w) ∧ segments w.arrivals = [] := by
  obtain ⟨t,r,ht,hskip,htr⟩ := hs.deliver
  have hpos := h.four_le
  have hne : t.stream ≠ [] := by
    rw [htr]
    exact List.append_ne_nil_of_left_ne_nil (List.length_pos_iff.mp (by omega)) _
  have hread : (fresh mem url).status.readHead = false := rfl
  obtain ⟨u,hhead,hskip'⟩ := httpReadHead_part (hskip.sound hs.sound) hread hne htr
    (by rwa [hskip.avail])
  let http := readHeadDone (unframed (fresh mem url))
  have hfirst : readCall mem (fresh mem url) t = .ok (http,u) := by
    rw [readCall,if_neg (by exact Bool.false_ne_true),doRead,hhead]
    rfl
  have hconst : ∀ s,readCall mem http s = .ok (http,s) := fun _ => rfl
  obtain ⟨w,hrun,hempty⟩ := afterEach_const hconst u.arrivals.length
    (hskip'.sound (hskip.sound hs.sound)) (Nat.le_refl _)
  refine ⟨u.arrivals.length+1,w,?_,hempty⟩
  rw [afterEach,ht]
  simp only [hfirst,ok_bind]
  exact hrun

/-- After a first segment with the whole head the fields are those of the head. -/
theorem afterEach_whole (hs : Arrives h s) (hseen : h.bytes.length ≤ s.avail 0) {n : ℕ}
    {http : HttpInfo} {x : Sock}
    (hrun : afterEach (readCall mem) (n+1) (fresh mem url) s = .ok (http,x)) :
    http.fields = (readHeadDone (parse mem (unframed (fresh mem url)) h.lines)).fields := by
  obtain ⟨t,r,ht,hskip,htr⟩ := hs.deliver
  have hread : (fresh mem url).status.readHead = false := rfl
  rw [afterEach,ht] at hrun
  obtain ⟨⟨http₁,u⟩,hcall,hrun⟩ := bind_eq_ok.mp hrun
  obtain ⟨w,hhead,-⟩ : ∃ w,httpReadHead mem (fresh mem url) t =
      .ok (0,readHeadDone (parse mem (unframed (fresh mem url)) h.lines),w) ∧ Skips _ _ w :=
    httpReadHead_whole (hskip.sound hs.sound) hread htr (by rw [hskip.avail]; exact hseen)
  obtain ⟨hfields,hdone⟩ := readCall_first hread hhead hcall
  exact (afterEach_kept n hdone hrun).trans hfields

end Arrives

/-- The reads do not depend on the fragmentation exactly when the first segment holds the
whole head. -/
theorem insensitive_iff {mem : Memory} {url : Bytes} {h : Head} {s : Sock} (hs : Arrives h s) :
    Insensitive mem url h s ↔ h.bytes.length ≤ s.avail 0 := by
  obtain ⟨v,hwhole⟩ := httpReadHead_alone mem url h
  obtain ⟨r,hr⟩ := hs.stream
  constructor
  · intro hall
    by_contra hpart
    obtain ⟨n,w,hrun,hempty⟩ := afterEach_part mem url hs (Nat.lt_of_not_le hpart)
    obtain ⟨rc,whole,x,hwhole',hfields⟩ := hall _ _ _ hrun (by
      rw [hempty,← hr,List.length_append]
      exact Nat.le_add_right _ _)
    rw [hwhole] at hwhole'
    cases hwhole'
    have hcode : (parse mem (unframed (fresh mem url)) h.lines).httpCode ≠ 0 :=
      h.httpCode_ne_zero mem rfl
    exact hcode (congrArg Fields.httpCode hfields).symm
  · intro hseen n http x hrun harrived
    refine ⟨_,_,v,hwhole,?_⟩
    cases n with
    | zero =>
      cases hrun
      have hpos := h.four_le
      have hlen : s.stream.length = (segments s.arrivals).flatten.length := by
        rw [Sock.stream,hs.buffer,List.nil_append]
      omega
    | succ n => exact afterEach_whole hs hseen hrun

theorem http11_word : ∀ b ∈ ascii "HTTP/1.1",isspace b = false := by
  have hall : (ascii "HTTP/1.1").all (fun b => isspace b = false) = true := by decide
  exact fun b hb => of_decide_eq_true (List.all_eq_true.mp hall b hb)

/-- "HTTP/1.1 200 OK" with a length. -/
def okHead : Head where
  version := ascii "HTTP/1.1"
  code := ascii "200"
  reason := ascii " OK"
  statusLine := ⟨ascii "HTTP/1.1 200 OK",by decide,by decide,by decide,by decide⟩
  fieldLines := [⟨ascii "Content-Length: 5",by decide,by decide,by decide,by decide⟩]
  version_word := http11_word
  code_digits := List.all_eq_true.mp (by decide)
  code_length := by decide
  code_head := by decide
  reason_head := fun b hb => by cases hb; rfl
  text := by decide
  short := by decide

/-- It arrives with the body, or in two segments. -/
def okWhole : Sock :=
  ⟨[],[.data 72 (ascii "TTP/1.1 200 OK\x0d\nContent-Length: 5\x0d\n\x0d\nhel"),.data 108 [111]],false⟩

def okSplit : Sock :=
  ⟨[],[.data 72 (ascii "TTP/1.1 200 OK\x0d\n"),.data 67 (ascii "ontent-Length: 5\x0d\n\x0d\n")],false⟩

theorem insensitive_whole : Insensitive plenty [] okHead okWhole :=
  (insensitive_iff ⟨rfl,by decide,by decide⟩).mpr (by decide)

/-- In two segments the code is never read. -/
theorem not_insensitive_split : Arrives okHead okSplit ∧ ¬Insensitive plenty [] okHead okSplit := by
  refine ⟨⟨rfl,by decide,by decide⟩,fun h => ?_⟩
  have hrun : afterEach (readCall plenty) 2 (fresh plenty []) okSplit =
      .ok (readHeadDone (unframed (fresh plenty [])),⟨okHead.bytes,[],false⟩) := by
    decide
  have hcode : (httpReadHead plenty (fresh plenty []) ⟨okHead.bytes,[],false⟩).map
      (fun r => r.2.1.httpCode) = .ok 200 := by
    decide +kernel
  obtain ⟨rc,whole,u,hwhole,hfields⟩ := h 2 _ _ hrun (by decide)
  rw [hwhole] at hcode
  have hzero : 0 = whole.httpCode := congrArg Fields.httpCode hfields
  have h200 : whole.httpCode = 200 := Except.ok.inj hcode
  rw [← hzero] at h200
  exact absurd h200 (by decide)

end AntHttp
end RecycleBin
