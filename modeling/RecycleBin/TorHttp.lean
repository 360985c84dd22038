import RecycleBin.CString
import RecycleBin.Refinement

/-!
# Requests of the static file server

`http_new`, `http_read_head`, `process_line` and the file name of
`http_join_head_body`, from `http_server/src/tor_http.c`. The file system answers
`IS_DIR` through a parameter.
-/

namespace RecycleBin
namespace TorHttp

open AntHash AntVisited CString

def MAX_URL_SIZE : ℕ := 4096

def TOR_BUFSIZE : ℕ := 8192

def TOR_PATH : ℕ := 256

/-- `config.data_dir`: a string in an array of `TOR_PATH` bytes. -/
structure DataDir where
  name : Bytes
  noNul : 0 ∉ name
  fits : name.length < TOR_PATH

/-- The fields of `http_context` the head determines, and `rblen`, of 14 bits. -/
structure Http where
  path : Bytes
  fname : Bytes
  conn : Bool
  rblen : ℕ
  deriving DecidableEq

/-- `http_new` -/
def httpNew (d : DataDir) : Http :=
  ⟨[],d.name.take (TOR_PATH-1),false,0⟩

@[simp] theorem httpNew_fname (d : DataDir) : (httpNew d).fname = d.name :=
  List.take_of_length_le (Nat.le_sub_one_of_lt d.fits)

/-! ## One line -/

/-- The conversion `"%*[ ]/%3800[^ ]"`: what it stores, if it stores. -/
def scanPath (s : Bytes) : Option Bytes :=
  let r := s.dropWhile (· = 32)
  if s.head? ≠ some 32 ∨ r.head? ≠ some 47 then none
  else
    let path := (r.tail.takeWhile (· ≠ 32)).take 3800
    if path = [] then none else some path

/-- The first line. Where it does not start with `get`, `len` is read uninitialised. -/
def requestLine (http : Http) (line : Bytes) : Except Fault (ℤ × Http) :=
  if startsWith (ascii "get") line then
    match scanPath (line.drop 3) with
    | some path => .ok (1,{ http with path := path })
    | none => .ok (-1,http)
  else .error .undefined

/-- A `Referer` behind its scheme. -/
def dropScheme (p : Bytes) : Bytes :=
  if startsWith (ascii "http://") p then p.drop 7 else p

/-- Where a `Referer` continues the file name: from its first `/`, without it when the
name ends in one. In front of an empty name stands the last byte of `path`, which is 0. -/
def refererPath (fname p : Bytes) : Bytes :=
  let p := (dropScheme p).dropWhile (· ≠ 47)
  if fname.getLast? = some 47 then p.tail else p

/-- The append of a `Referer`, and the `/` behind a directory. -/
def appendName (isDir : Bytes → Bool) (fname p : Bytes) : Except Fault Bytes :=
  let joined := fname++p.take (MAX_URL_SIZE-fname.length-1)
  if p.length < MAX_URL_SIZE-fname.length ∧ isDir joined ∧ joined.getLast? ≠ some 47 then
    if joined.length+1 < MAX_URL_SIZE then .ok (joined++[47]) else .error .undefined
  else .ok joined

/-- `Referer: p` -/
def referer (isDir : Bytes → Bool) (http : Http) (p : Bytes) : Except Fault Http :=
  if 47 ∈ dropScheme p then do
    let fname ← appendName isDir http.fname (refererPath http.fname p)
    .ok { http with fname := fname }
  else .ok http

/-- A line `tag: p`. -/
def field (isDir : Bytes → Bool) (http : Http) (tag p : Bytes) : Except Fault Http :=
  if strcaseeq tag (ascii "Connection") then
    .ok (if strcaseeq p (ascii "keep-alive") then { http with conn := true } else http)
  else if strcaseeq tag (ascii "Referer") then referer isDir http p
  else .ok http

/-- `process_line` -/
def processLine (isDir : Bytes → Bool) (http : Http) (line : Bytes) (lineCount : ℕ) :
    Except Fault (ℤ × Http) :=
  if line = [] then .ok (0,http)
  else if lineCount = 0 then requestLine http line
  else if 58 ∈ line then do
    let tag := line.takeWhile (· ≠ 58)
    let p := ((line.dropWhile (· ≠ 58)).tail).dropWhile isspace
    let http ← field isDir http tag p
    .ok (1,http)
  else .ok (1,http)

/-! ## The head -/

/-- One turn of the loop in `http_read_head`: the line it cuts off, and where `p` is then.
Behind a line that ends in CRLF it stands on the LF, which the next turn skips. -/
def nextLine (s : Bytes) : Bytes × Bytes :=
  let s := if s.head? = some 10 then s.tail else s
  let line := s.takeWhile (· ≠ 10)
  let rest := s.dropWhile (· ≠ 10)
  if rest = [] then (line,[])
  else if line.getLast? = some 13 then (line.dropLast,rest)
  else (line,rest.tail)

/-- The loop over the lines; its result is that of `http_read_head`. -/
def headLoop (isDir : Bytes → Bool) : ℕ → Http → Bytes → ℕ → Except Fault (ℤ × Http)
  | 0,_,_,_ => .error .exhausted
  | fuel+1,http,s,lineCount => do
    let r ← processLine isDir http (nextLine s).1 lineCount
    if r.1 < 0 then .ok r
    else if r.1 = 0 then .ok (0,r.2)
    else headLoop isDir fuel r.2 (nextLine s).2 (lineCount+1)

def crlfcrlf : Bytes := [13,10,13,10]

/-- `recv` with `MSG_PEEK` on a non-blocking socket with `queue` unread; `none` is `EAGAIN`. -/
def peek (queue : Bytes) (len : ℕ) : Option Bytes :=
  if queue = [] then none else some (queue.take len)

/-- `http_read_head`. The buffer is zeroed on every call, and filled from `rblen` on. -/
def httpReadHead (isDir : Bytes → Bool) (http : Http) (queue : Bytes) :
    Except Fault (ℤ × Http × Bytes) :=
  if TOR_BUFSIZE < http.rblen then .error .undefined
  else
    match peek queue (TOR_BUFSIZE-http.rblen) with
    | none => .ok (-1,http,queue)
    | some bs =>
      let buf := List.replicate http.rblen 0++bs
      match strstr buf crlfcrlf with
      | none =>
        -- without a NUL in the array the search leaves it
        if buf.length < TOR_BUFSIZE ∨ 0 ∈ buf then
          .ok (-1,{ http with rblen := (http.rblen+bs.length)%2^14 },queue)
        else .error .undefined
      | some pos =>
        let head := queue.take (pos+4)
        if head.length < TOR_BUFSIZE then do
          let r ← headLoop isDir (head.length+1) http (cstr head) 0
          .ok (r.1,r.2,queue.drop (pos+4))
        else .error .undefined

/-! ## The file name -/

/-- The `strncat` of `http_join_head_body`. Its bound is a `size_t`: where it is below zero
it wraps, and the whole path is written past the array. -/
def joinName (http : Http) : Except Fault Bytes :=
  if http.fname.length+http.path.length+1 ≤ MAX_URL_SIZE then
    .ok (http.fname++http.path.take (MAX_URL_SIZE-http.fname.length-http.path.length-1))
  else .error .undefined

/-! ## What a line keeps -/

section Keeps
variable {isDir : Bytes → Bool} {http http' : Http} {line : Bytes} {n : ℕ} {rc : ℤ}

theorem appendName_extends {fname p name : Bytes} (h : appendName isDir fname p = .ok name) :
    ∃ t, name = fname++t := by
  simp only [appendName] at h
  split_ifs at h
  · cases h
    exact ⟨_,List.append_assoc _ _ _⟩
  · cases h
    exact ⟨_,rfl⟩

theorem referer_extends {p : Bytes} (h : referer isDir http p = .ok http') :
    ∃ t, http'.fname = http.fname++t := by
  rw [referer] at h
  split_ifs at h
  · obtain ⟨name,hname,h⟩ := bind_eq_ok.mp h
    cases h
    exact appendName_extends hname
  · cases h
    exact ⟨[],(List.append_nil _).symm⟩

theorem field_extends {tag p : Bytes} (h : field isDir http tag p = .ok http') :
    ∃ t, http'.fname = http.fname++t := by
  rw [field] at h
  split_ifs at h
  · cases h
    exact ⟨[],(List.append_nil _).symm⟩
  · cases h
    exact ⟨[],(List.append_nil _).symm⟩
  · exact referer_extends h
  · cases h
    exact ⟨[],(List.append_nil _).symm⟩

/-- Every line only appends to the file name. -/
theorem processLine_extends (h : processLine isDir http line n = .ok (rc,http')) :
    ∃ t, http'.fname = http.fname++t := by
  have hsame : ∃ t, http.fname = http.fname++t := ⟨[],(List.append_nil _).symm⟩
  rw [processLine] at h
  split_ifs at h
  · cases h
    exact hsame
  · rw [requestLine] at h
    split_ifs at h
    split at h <;> cases h <;> exact hsame
  · obtain ⟨http₁,hfield,h⟩ := bind_eq_ok.mp h
    cases h
    exact field_extends hfield
  · cases h
    exact hsame

end Keeps

end TorHttp
end RecycleBin
