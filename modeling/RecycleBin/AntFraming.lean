import RecycleBin.AntHead

/-! How the header lines set the framing of the body. Each of the two headers that do
overwrites what the other has set, under guards of its own. -/
namespace RecycleBin
namespace AntHttp
open AntHash (Bytes)
open AntVisited (isspace startsWith tolower)
open AntBuf (Memory plenty)
open CString

namespace Line

/-- What `process_line` takes for the name and for the value, where there is a colon. -/
def field (l : Line) : Option (Bytes × Bytes) :=
  match l.text.dropWhile fun b => b ≠ 58 with
  | [] => none
  | _::p => some (l.text.takeWhile fun b => b ≠ 58,p.dropWhile isspace)

def isContentLength (l : Line) : Bool :=
  l.field.any fun f => strcaseeq f.1 (ascii "Content-Length")

def isTransferEncoding (l : Line) : Bool :=
  l.field.any fun f => strcaseeq f.1 (ascii "Transfer-Encoding")

def isChunked (l : Line) : Bool :=
  l.field.any fun f =>
    strcaseeq f.1 (ascii "Transfer-Encoding") && startsWith (ascii "chunked") f.2

/-- The value as a number. -/
def length (l : Line) : ℤ := (l.field.map fun f => strtol f.2).getD 0

/-- A line that says something about the framing. -/
def frames (l : Line) : Bool := l.isContentLength || l.isChunked

end Line

/-- `filesize` and `chunksize`. -/
def framing (http : HttpInfo) : ℤ × ℤ := (http.filesize,http.chunksize)

/-- The state `http_read_head` has behind the status line. -/
def behindStatus (http : HttpInfo) : HttpInfo :=
  { http with filesize := -1,chunksize := -1,linecount := http.linecount+1 }

/-- What a line makes of the framing. -/
def frameStep (f : ℤ × ℤ) (l : Line) : ℤ × ℤ :=
  if l.isContentLength ∧ f.1 = -1 then (l.length,-1) else if l.isChunked then (-1,0) else f

/-- A name is one of these only. -/
theorem strcaseeq_ne {tag : Bytes} {a b : String}
    (hab : (ascii a).map tolower ≠ (ascii b).map tolower) (ha : strcaseeq tag (ascii a)) :
    ¬strcaseeq tag (ascii b) := by
  intro hb
  simp only [strcaseeq,decide_eq_true_eq] at ha hb
  exact hab (ha.symm.trans hb)

theorem processField_framing (mem : Memory) (http : HttpInfo) (tag p : Bytes) :
    framing (processField mem http tag p).2 =
      if strcaseeq tag (ascii "Content-Length") ∧ http.filesize = -1 then (strtol p,-1)
      else if strcaseeq tag (ascii "Transfer-Encoding") ∧ startsWith (ascii "chunked") p then (-1,0)
      else framing http := by
  rw [processField]
  by_cases h1 : strcaseeq tag (ascii "Location")
  · have hlength : ¬strcaseeq tag (ascii "Content-Length") := strcaseeq_ne (by decide) h1
    have hencoding : ¬strcaseeq tag (ascii "Transfer-Encoding") :=
      strcaseeq_ne (by decide) h1
    rw [if_pos h1,if_neg (fun h => hlength h.1),if_neg (fun h => hencoding h.1)]
    rfl
  rw [if_neg h1]
  by_cases h2 : strcaseeq tag (ascii "Content-Length") ∧ http.filesize = -1
  · rw [if_pos h2,if_pos h2]
    rfl
  rw [if_neg h2,if_neg h2]
  by_cases h3 : strcaseeq tag (ascii "Transfer-Encoding") ∧ startsWith (ascii "chunked") p
  · rw [if_pos h3,if_pos h3]
    rfl
  rw [if_neg h3,if_neg h3]
  -- the other headers leave both fields alone
  by_cases h4 : strcaseeq tag (ascii "Content-Encoding")
  · rw [if_pos h4]
    dsimp only
    split <;> rfl
  rw [if_neg h4]
  by_cases h5 : strcaseeq tag (ascii "Set-Cookie")
  · rw [if_pos h5]
    cases http.cookies with
    | none =>
      dsimp only
      split <;> rfl
    | some tmp =>
      dsimp only
      split <;> rfl
  rw [if_neg h5]
  split
  · dsimp only
    split <;> rfl
  · rfl

theorem processLine_eq (mem : Memory) (http : HttpInfo) (l : Line) {n : ℕ} (hn : n ≠ 0) :
    (processLine mem http l.text n).2 =
      (l.field.map fun f => (processField mem http f.1 f.2).2).getD http := by
  rw [processLine,if_neg l.ne_nil,if_neg hn,Line.field]
  cases l.text.dropWhile fun b => b ≠ 58 with
  | nil => rfl
  | cons b p => rfl

theorem processLine_framing (mem : Memory) (http : HttpInfo) (l : Line) {n : ℕ} (hn : n ≠ 0) :
    framing (processLine mem http l.text n).2 = frameStep (framing http) l := by
  rw [processLine_eq mem http l hn,frameStep,Line.isContentLength,Line.isChunked,
    Line.length]
  cases l.field with
  | none => simp
  | some f =>
    simp only [Option.map_some,Option.getD_some,Option.any_some,Bool.and_eq_true]
    exact processField_framing mem http f.1 f.2

/-- The lines make of the framing what they make of it one after the other. -/
theorem parse_framing (mem : Memory) (ls : List Line) {http : HttpInfo} (hn : http.linecount ≠ 0) :
    framing (parse mem http ls) = ls.foldl frameStep (framing http) := by
  show framing (ls.foldl (parseLine mem) http) = _
  induction ls generalizing http with
  | nil => rfl
  | cons l ls ih =>
    rw [List.foldl_cons,List.foldl_cons,ih (Nat.succ_ne_zero _),← processLine_framing mem http l hn]
    rfl

theorem frameStep_of_not {f : ℤ × ℤ} {l : Line} (h : l.frames = false) :
    frameStep f l = f := by
  rw [Line.frames,Bool.or_eq_false_iff] at h
  simp [frameStep,h.1,h.2]

theorem foldl_filter_frames (ls : List Line) (f : ℤ × ℤ) :
    ls.foldl frameStep f = (ls.filter Line.frames).foldl frameStep f := by
  induction ls generalizing f with
  | nil => rfl
  | cons l ls ih =>
    cases h : l.frames with
    | true => rw [List.filter_cons_of_pos h,List.foldl_cons,List.foldl_cons,ih]
    | false => rw [List.filter_cons_of_neg (by simp [h]),List.foldl_cons,frameStep_of_not h,ih]

/-- The framing does not depend on the order of the lines, and is chunked if one of them
says so. -/
def FramingRight (mem : Memory) (http : HttpInfo) (ls : List Line) : Prop :=
  ∀ ls', ls'.Perm ls →
    framing (parse mem (behindStatus http) ls') =
      framing (parse mem (behindStatus http) ls) ∧
    ((∃ l ∈ ls, l.isChunked) → framing (parse mem (behindStatus http) ls') = (-1,0))

theorem isTransferEncoding_of_isChunked {l : Line} (h : l.isChunked) :
    l.isTransferEncoding := by
  rw [Line.isChunked,Option.any_eq_true] at h
  obtain ⟨f,hf,h⟩ := h
  rw [Line.isTransferEncoding,Option.any_eq_true]
  exact ⟨f,hf,(Bool.and_eq_true_iff.mp h).1⟩

/-- A line is not about both. -/
theorem not_isContentLength_of_isChunked {l : Line} (h : l.isChunked) :
    ¬l.isContentLength := by
  have ht := isTransferEncoding_of_isChunked h
  rw [Line.isTransferEncoding,Option.any_eq_true] at ht
  obtain ⟨f,hf,ht⟩ := ht
  rw [Line.isContentLength,hf]
  exact strcaseeq_ne (by decide) ht

/-- With at most one line about the framing the order does not matter. -/
theorem framingRight_of_le {mem : Memory} {http : HttpInfo} {ls : List Line}
    (h : (ls.filter Line.frames).length ≤ 1) : FramingRight mem http ls := by
  intro ls' hperm
  have hsame : ls'.filter Line.frames = ls.filter Line.frames := by
    have hp := hperm.filter Line.frames
    cases hf : ls.filter Line.frames with
    | nil =>
      rw [hf] at hp
      exact hp.eq_nil
    | cons l rest =>
      obtain rfl : rest = [] := by
        rw [hf,List.length_cons] at h
        exact List.length_eq_zero_iff.mp (by omega)
      rw [hf] at hp
      exact List.perm_singleton.mp hp
  have hn : (behindStatus http).linecount ≠ 0 := Nat.succ_ne_zero _
  rw [parse_framing mem ls' hn,parse_framing mem ls hn,foldl_filter_frames,hsame,
    ← foldl_filter_frames]
  refine ⟨rfl,?_⟩
  rintro ⟨c,hc,hchunk⟩
  have hmem : c ∈ ls.filter Line.frames :=
    List.mem_filter.mpr ⟨hc,by simp [Line.frames,hchunk]⟩
  -- the chunked line is the only one that counts
  obtain ⟨l,hl⟩ : ∃ l, ls.filter Line.frames = [l] :=
    List.length_eq_one_iff.mp (le_antisymm h (List.length_pos_of_mem hmem))
  rw [hl,List.mem_singleton] at hmem
  subst hmem
  rw [foldl_filter_frames,hl,List.foldl_cons,List.foldl_nil,frameStep,
    if_neg (fun h => not_isContentLength_of_isChunked hchunk h.1),if_pos hchunk]

/-- A length behind a chunked line wins. -/
theorem not_framingRight {mem : Memory} {http : HttpInfo} {ls : List Line} {l c : Line}
    (hl : l ∈ ls) (hlen : l.isContentLength) (hc : c ∈ ls) (hchunk : c.isChunked) :
    ¬FramingRight mem http ls := by
  intro hr
  have hne : c ≠ l := by
    rintro rfl
    exact not_isContentLength_of_isChunked hchunk hlen
  classical
  have hperm : (((ls.erase l).erase c)++[c,l]).Perm ls := by
    have hc' : c ∈ ls.erase l := (List.mem_erase_of_ne hne).mpr hc
    have h1 : ls.Perm (l::ls.erase l) := List.perm_cons_erase hl
    have h2 : (ls.erase l).Perm (c::(ls.erase l).erase c) := List.perm_cons_erase hc'
    refine List.perm_append_comm.trans ?_
    exact ((List.Perm.swap l c _).trans (h2.symm.cons l)).trans h1.symm
  have hframe := (hr _ hperm).2 ⟨c,hc,hchunk⟩
  have hn : (behindStatus http).linecount ≠ 0 := Nat.succ_ne_zero _
  rw [parse_framing mem _ hn,List.foldl_append,List.foldl_cons,List.foldl_cons,List.foldl_nil]
    at hframe
  generalize ((ls.erase l).erase c).foldl frameStep (framing (behindStatus http)) = f at hframe
  have hstep : frameStep f c = (-1,0) := by
    rw [frameStep,if_neg (fun h => not_isContentLength_of_isChunked hchunk h.1),if_pos hchunk]
  rw [hstep,frameStep,if_pos ⟨hlen,rfl⟩] at hframe
  have hsize : (-1 : ℤ) = 0 := congrArg Prod.snd hframe
  omega

/-- With at most one line of each kind, the framing is right in every order exactly if not
both a length and a chunked encoding are there. -/
theorem framing_right_iff (mem : Memory) (http : HttpInfo) (ls : List Line)
    (hlen : (ls.filter Line.isContentLength).length ≤ 1)
    (henc : (ls.filter Line.isTransferEncoding).length ≤ 1) :
    FramingRight mem http ls ↔ ¬((∃ l ∈ ls, l.isContentLength) ∧ ∃ l ∈ ls, l.isChunked) := by
  constructor
  · rintro hr ⟨⟨l,hl,hlen⟩,c,hc,hchunk⟩
    exact not_framingRight hl hlen hc hchunk hr
  · intro hnot
    refine framingRight_of_le ?_
    by_cases hchunk : ∃ l ∈ ls, l.isChunked
    · -- no length, so that only the encoding counts
      have hnone : ∀ l ∈ ls, l.isContentLength = false := by
        intro l hl
        by_contra hc
        exact hnot ⟨⟨l,hl,by simpa using hc⟩,hchunk⟩
      have hsub : (ls.filter Line.frames).Sublist (ls.filter Line.isTransferEncoding) := by
        rw [List.filter_congr fun l hl => by rw [Line.frames,hnone l hl,Bool.false_or]]
        exact List.monotone_filter_right ls fun l h => isTransferEncoding_of_isChunked h
      exact hsub.length_le.trans henc
    · have hsame : ls.filter Line.frames = ls.filter Line.isContentLength := by
        refine List.filter_congr fun l hl => ?_
        have hc : l.isChunked = false := by
          by_contra hc
          exact hchunk ⟨l,hl,by simpa using hc⟩
        rw [Line.frames,hc,Bool.or_false]
      rw [hsame]
      exact hlen

def serverLine : Line :=
  ⟨ascii "Server: x",by decide,by decide,by decide,by decide⟩

def lengthLine : Line :=
  ⟨ascii "Content-Length: 7",by decide,by decide,by decide,by decide⟩

def chunkedLine : Line :=
  ⟨ascii "Transfer-Encoding: chunked",by decide,by decide,by decide,
    by decide⟩

/-- A chunked body among other lines. -/
theorem framing_right_iff_server :
    FramingRight plenty (httpNew plenty []) [serverLine,chunkedLine] :=
  (framing_right_iff plenty (httpNew plenty []) [serverLine,chunkedLine] (by decide)
    (by decide)).mpr (by decide)

/-- The length behind the encoding takes the body for one of seven bytes, the length before it
for a chunked one. -/
theorem length_wins_behind_chunked :
    ([chunkedLine,lengthLine].filter Line.isContentLength).length ≤ 1 ∧
      ([chunkedLine,lengthLine].filter Line.isTransferEncoding).length ≤ 1 ∧
      framing (parse plenty (behindStatus (httpNew plenty [])) [chunkedLine,lengthLine]) = (7,-1) ∧
      framing (parse plenty (behindStatus (httpNew plenty [])) [lengthLine,chunkedLine]) = (-1,0) ∧
      ¬FramingRight plenty (httpNew plenty []) [chunkedLine,lengthLine] := by
  refine ⟨by decide,by decide,by decide,by decide,?_⟩
  exact not_framingRight (l := lengthLine) (c := chunkedLine) (by simp) (by decide)
    (by simp) (by decide)

end AntHttp
end RecycleBin
