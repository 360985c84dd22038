import RecycleBin.CString
import RecycleBin.AntBuf
import RecycleBin.AntSocket

/-! The HTTP client of `ant_http.c` and the functions of `mini_ant.c` that drive it. The
buffers it reads into are lists of bytes; to write or search behind their end is undefined. -/
namespace RecycleBin
namespace AntHttp
open AntHash (Bytes cstr)
open AntVisited (isspace startsWith skipHead)
open AntBuf hiding Bytes
open AntSocket hiding Bytes
open CString

/-- ANT_WRITE, ANT_READ_HEAD and ANT_READ_BODY. -/
structure Status where
  write : Bool
  readHead : Bool
  readBody : Bool
  deriving DecidableEq

/-- `struct http_info`, with the URL of its `down_t`. -/
structure HttpInfo where
  fd : ℤ
  filesize : ℤ
  chunksize : ℤ
  linecount : ℕ
  httpCode : ℤ
  endHeader : Bool
  chunkhead : ℤ
  myErrno : ℕ
  isgzip : Bool
  close : Bool
  tryNum : ℕ
  status : Status
  location : Bytes
  cookies : Option Bytes
  page : Buf
  url : Bytes
  deriving DecidableEq

/-- All the bits, ANT_DUMP. -/
def HttpInfo.dump (http : HttpInfo) : Bool :=
  http.status.write && http.status.readHead && http.status.readBody

/-- `http_new`. -/
def httpNew (mem : Memory) (url : Bytes) : HttpInfo where
  fd := -1
  filesize := 0
  chunksize := 0
  linecount := 0
  httpCode := 0
  endHeader := false
  chunkhead := 0
  myErrno := 0
  isgzip := false
  close := false
  tryNum := 0
  status := ⟨false,false,false⟩
  location := []
  cookies := none
  page := antBufNew mem 0
  url := url

/-! ### The head -/

/-- A header line behind its name. -/
def processField (mem : Memory) (http : HttpInfo) (tag p : Bytes) : ℤ × HttpInfo :=
  if strcaseeq tag (ascii "Location") then (1,{ http with location := p.take 4095 })
  else if strcaseeq tag (ascii "Content-Length") ∧ http.filesize = -1 then
    (1,{ http with filesize := strtol p,chunksize := -1 })
  else if strcaseeq tag (ascii "Transfer-Encoding") ∧ startsWith (ascii "chunked") p then
    (1,{ http with filesize := -1,chunksize := 0 })
  else if strcaseeq tag (ascii "Content-Encoding") then
    (1,if startsWith (ascii "gzip") p then { http with isgzip := true } else http)
  else if strcaseeq tag (ascii "Set-Cookie") then
    match http.cookies with
    | none => (1,if mem.grants (p.length+1) then { http with cookies := some p } else http)
    | some tmp =>
      if mem.grants (p.length+tmp.length+2) then (1,{ http with cookies := some (tmp++10::p) })
      else (-1,http)
  else if strcaseeq tag (ascii "Connection") then
    (1,if strcaseeq p (ascii "close") then { http with close := true } else http)
  else (1,http)

/-- `process_line`. -/
def processLine (mem : Memory) (http : HttpInfo) (line : Bytes) (lineCount : ℕ) : ℤ × HttpInfo :=
  if line = [] then (0,{ http with endHeader := true })
  else if lineCount = 0 then
    (1,{ http with httpCode := toInt (strtol (line.dropWhile fun b => !isspace b)) })
  else
    match line.dropWhile fun b => b ≠ 58 with
    | [] => (1,http)
    | _::p => processField mem http (line.takeWhile fun b => b ≠ 58) (p.dropWhile isspace)

/-- CRLF. -/
def crlf : Bytes := [13,10]

theorem isPrefixOf_crlf {p r : Bytes} {b : UInt8} (h : ¬(b = 13 ∧ r.head? = some 10)) :
    (crlf++p).isPrefixOf (b::r) = false := by
  rw [← Bool.not_eq_true,List.isPrefixOf_iff_prefix]
  rintro ⟨u,hu⟩
  cases hu
  exact h ⟨rfl,rfl⟩

/-- The line at the front of the response behind the part copied so far, into a buffer of
1024 bytes. A line that is not ended has no terminator. -/
def copyLine : Bytes → Bytes → Except Fault (Bytes × Bytes)
  | _, [] => .error .undefined
  | line, b::p =>
    if 1024 ≤ line.length then .error .undefined
    else if b = 13 ∧ p.head? = some 10 then .ok (line,p.tail)
    else if b = 0 then .error .undefined
    else copyLine (line++[b]) p

/-- The loop of `http_read_head` over the lines. -/
def headLoop (mem : Memory) : ℕ → HttpInfo → Bytes → Except Fault HttpInfo
  | 0, _, _ => .error .exhausted
  | n+1, http, p => do
    let r ← copyLine [] p
    let (err,http) := processLine mem http r.1 http.linecount
    if err = 0 then pure http
    else headLoop mem n { http with linecount := http.linecount+1 } r.2

/-- BUFSIZ. -/
def bufsiz : ℕ := 8192

/-- The end of the head in a `response` of BUFSIZ bytes; the search runs over its end where
no NUL is in it. -/
def findHead (response : Bytes) : Except Fault (Option ℕ) :=
  match strstr response (crlf++crlf) with
  | some pos => .ok (some pos)
  | none => if bufsiz ≤ response.length ∧ 0 ∉ response then .error .undefined else .ok none

/-- The bytes a read has put into its buffer; none is -1. -/
def received : Read → Option Bytes
  | .bytes bs => some bs
  | .timeout bs => some bs
  | .failed => none

def readHeadDone (http : HttpInfo) : HttpInfo :=
  { http with status := { http.status with readHead := true } }

/-- `http_read_head`. -/
def httpReadHead (mem : Memory) (http : HttpInfo) (s : Sock) : Except Stop (ℤ × HttpInfo × Sock) :=
  if http.status.readHead then .ok (0,http,s)
  else do
    let http := { http with filesize := -1,chunksize := -1 }
    let (r,s) ← sockRead s bufsiz
    match r with
    | .bytes response =>
      match ← ofFault (findHead response) with
      | some pos => do
        let (r,s) ← readnNonblock s (pos+4)
        match received r with
        | some head => do
          let http ← ofFault (headLoop mem (head.length+1) http head)
          pure (0,readHeadDone http,s)
        | none => pure (-1,http,s)
      | none => pure (0,readHeadDone http,s)
    | _ => pure (-1,http,s)

/-! ### The body -/

/-- How a part of `http_read_body` goes on: to the next statement, to the end of the body, or
out of the function. -/
inductive Flow
  | next
  | done
  | ret (rc : ℤ)
  deriving DecidableEq

abbrev Part := Except Stop (Flow × HttpInfo × Sock)

/-- The bytes a read returned for the page, whether or not there is memory for them. -/
def appendPage (mem : Memory) (http : HttpInfo) (bs : Bytes) : Except Stop HttpInfo :=
  if bs = [] then .ok http
  else do
    let r ← ofFault (antBufAppend mem http.page bs)
    pure { http with page := r.2 }

/-- Read a size line of `len` bytes. -/
def readSize (http : HttpInfo) (s : Sock) (len : ℕ) : Part := do
  let (r,s) ← readnBlock s len
  match received r with
  | some line =>
    let http := { http with chunkhead := toInt (strtoul16 (cstr line)) }
    pure (if http.chunkhead = 0 then .done else .next,http,s)
  | none => pure (.ret (-1),http,s)

/-- The size line, where no chunk is under way. -/
def chunkSize (http : HttpInfo) (s : Sock) : Part :=
  if http.chunkhead ≠ 0 then .ok (.next,http,s)
  else do
    let (r,s) ← sockRead s 127
    match r with
    | .bytes line =>
      match strstr line crlf with
      -- a `line` of "0\r" is left in the same way, without a message
      | none => pure (.done,http,s)
      | some pos => readSize http s (pos+2)
    | _ => pure (.ret (-1),http,s)

/-- The CRLF behind the data of a chunk. -/
def chunkEnd (http : HttpInfo) (s : Sock) : Except Stop Sock :=
  if http.chunkhead = 0 then (readnBlock s 2).map Prod.snd else .ok s

/-- The data of a chunk. -/
def chunkData (mem : Memory) (http : HttpInfo) (s : Sock) : Part :=
  if mem.grants (toSize http.chunkhead) = false then .ok (.ret (-1),http,s)
  else do
    let (r,s) ← readnNonblock s http.chunkhead.toNat
    match received r with
    | none => pure (.ret (-1),http,s)
    | some page => do
      let http ← appendPage mem http page
      let http := { http with chunkhead := http.chunkhead-page.length }
      let s ← chunkEnd http s
      pure (if page = [] then .ret 0 else .next,http,s)

/-- Transfer-Encoding: chunked. -/
def chunkLoop (mem : Memory) : ℕ → HttpInfo → Sock → Part
  | 0, _, _ => .error (.fault .exhausted)
  | n+1, http, s => do
    let (flow,http,s) ← chunkSize http s
    if flow ≠ .next then pure (flow,http,s)
    else
      let (flow,http,s) ← chunkData mem http s
      if flow ≠ .next then pure (flow,http,s) else chunkLoop mem n http s

/-- Content-Length. -/
def lengthBody (mem : Memory) (http : HttpInfo) (s : Sock) : Part :=
  let len := toInt (http.filesize-http.page.ncurr)
  if mem.grants (toSize len) = false then .ok (.ret (-1),http,s)
  else do
    let (r,s) ← readnNonblock s len.toNat
    match received r with
    | none => pure (.ret (-1),http,s)
    | some page => do
      let http ← appendPage mem http page
      pure (if 0 < len-page.length then .ret page.length else .done,http,s)

/-- EAGAIN. -/
def eagain : ℕ := 11

/-- Neither, until the peer closes. -/
def closeLoop (mem : Memory) : ℕ → HttpInfo → Sock → Part
  | 0, _, _ => .error (.fault .exhausted)
  | n+1, http, s => do
    let (r,s) ← readnNonblock s bufsiz
    let http := { http with myErrno := match r with | .timeout _ => eagain | _ => 0 }
    match received r with
    | none => pure (.ret (-1),http,s)
    | some buf =>
      if buf = [] then pure (if http.myErrno = eagain then .ret (-1) else .done,http,s)
      else do
        let http ← appendPage mem http buf
        closeLoop mem n http s

/-- The body by its framing; every pass of a loop that goes on has read a byte. -/
def readBody (mem : Memory) (http : HttpInfo) (s : Sock) : Part :=
  if http.chunksize = 0 then chunkLoop mem (s.stream.length+1) http s
  else if 0 < http.filesize then lengthBody mem http s
  else if http.filesize = -1 ∧ http.chunksize = -1 then closeLoop mem (s.stream.length+1) http s
  else .ok (.done,http,s)

/-- `http_read_body`. -/
def httpReadBody (mem : Memory) (http : HttpInfo) (s : Sock) : Except Stop (ℤ × HttpInfo × Sock) :=
  if http.status.readBody then .ok (0,http,s)
  else do
    let (flow,http,s) ← readBody mem http s
    match flow with
    | .ret rc => pure (rc,http,s)
    | _ => pure (0,{ http with status := { http.status with readBody := true } },s)

/-! ### The callers -/

/-- The URL a redirect is followed to. -/
def redirectUrl (http : HttpInfo) : Bytes :=
  if http.location.head? = some 47 then
    let p := http.url.drop (skipHead http.url)
    ((p.takeWhile fun b => b ∉ ascii "/?;#")++http.location).take 4095
  else http.location

/-- `do_read`, with the URL handed to `filter_add`. When ANT_DUMP is reached `html_dump` gets
the page. -/
def doRead (mem : Memory) (http : HttpInfo) (s : Sock) :
    Except Stop (Option Bytes × HttpInfo × Sock) := do
  let (_,http,s) ← httpReadHead mem http s
  if http.httpCode = 200 then
    let (_,http,s) ← httpReadBody mem http s
    pure (none,http,s)
  else if http.httpCode = 301 ∨ http.httpCode = 302 then pure (some (redirectUrl http),http,s)
  else pure (none,http,s)

/-- `http_send_head`, of a request that `send` takes. -/
def httpSendHead (http : HttpInfo) : HttpInfo :=
  { http with status := { http.status with write := true } }

/-- `do_error`, with the descriptor `do_create` connects anew; none when the process exits. -/
def doError (http : HttpInfo) (fd : ℤ) : Option HttpInfo :=
  let http := { http with fd := -1,tryNum := http.tryNum+1,status := ⟨false,false,false⟩ }
  if 2 < http.tryNum then none else some { http with fd := fd }

/-- Up to `n` more segments arrive, with a call after each of them. -/
def afterEach (call : HttpInfo → Sock → Except Stop (HttpInfo × Sock)) :
    ℕ → HttpInfo → Sock → Except Stop (HttpInfo × Sock)
  | 0, http, s => .ok (http,s)
  | n+1, http, s =>
    match s.deliver with
    | none => .ok (http,s)
    | some s => do
      let (http,s) ← call http s
      afterEach call n http s

end AntHttp
end RecycleBin
