import RecycleBin.CString
import RecycleBin.Interleaving
import Mathlib.Logic.Function.Basic

/-! The mail capture of `use_libnids/parse_smtp_clent.c`. The table of `ant_hash.c` is a finite
map, a queue of `ant_queue.c` the list of its packets; none is an undefined step. -/
namespace RecycleBin
namespace SmtpCapture
open CString AntHash

/-- `struct tuple4` of libnids. -/
structure Tuple4 where
  source : UInt16
  dest : UInt16
  saddr : UInt32
  daddr : UInt32
  deriving DecidableEq

/-- `struct half_stream`: the memory at `data`, whose first `countNew` bytes are new. -/
structure HalfStream where
  data : Bytes
  countNew : ℕ
  countNewUrg : ℕ
  countNew_le : countNew ≤ data.length

inductive NidsState
  | NIDS_JUST_EST | NIDS_DATA | NIDS_CLOSE | NIDS_RESET | NIDS_TIMED_OUT | NIDS_EXITING
  deriving DecidableEq

/-- `struct tcp_stream`; a data callback without urgent data has new data for one side. -/
structure TcpStream where
  addr : Tuple4
  nidsState : NidsState
  client : HalfStream
  server : HalfStream
  new_data : nidsState = .NIDS_DATA → server.countNewUrg = 0 → 0 < client.countNew ∨ 0 < server.countNew

/-- A callback of libnids, with the second `gettimeofday` answers in it, the bytes up to the NUL
behind the block that is read as a string in it, and whether the file opens. -/
structure Callback where
  aTcp : TcpStream
  tvSec : ℕ
  beyond : Bytes
  opens : Bool

inductive DumpStatus
  | ANT_INIT | ANT_BEGIN | ANT_DOWNLOAD
  deriving DecidableEq

/-- A file written by `dump_file`. -/
structure Written where
  addr : Tuple4
  fname : Bytes
  contents : Bytes
  deriving DecidableEq

/-- `g_dump_status.smtp`, `g_smtp_hash` and the files written so far. -/
structure State where
  smtp : DumpStatus
  hash : Tuple4 → Option (List Bytes)
  written : List Written

def init : State where
  smtp := .ANT_INIT
  hash _ := none
  written := []

def returnPath : Bytes := ascii "Return-Path:"
def quit : Bytes := ascii "QUIT"

/-- The bytes `memcpy` takes. -/
def HalfStream.new (hlf : HalfStream) : Bytes := hlf.data.take hlf.countNew

/-- `sscanf(src, "lit%[^\r\n]", buf)` with a buffer of 256 bytes. -/
def sscanf (lit src buf : Bytes) : Option Bytes :=
  if lit.isPrefixOf src then
    let text := (src.drop lit.length).takeWhile fun b => b ≠ 13 ∧ b ≠ 10
    if text = [] then some buf
    else if text.length < 256 then some text
    else none
  else some buf

/-- `set_mail_name` on the string at `data->data`, with a `dst` of 512 bytes. -/
def setMailName (tvSec : ℕ) (data : Bytes) : Option Bytes :=
  let dst := ascii (toString tvSec)
  match strstr data (ascii "From:") with
  | none => some dst
  | some i =>
    let src := (cstr data).drop i
    (sscanf (ascii "From:") src []).bind fun buf =>
      let dst := dst++ascii "-from "++buf
      -- `src` is the second time searched for "From:" as well
      (sscanf (ascii "To:") src buf).bind fun buf =>
        let dst := dst++ascii "-to "++buf
        if dst.length < 512 then some dst else none

/-- `dump_file`: `open` with `O_TRUNC`, then every packet in turn. -/
def dumpFile (written : List Written) (addr : Tuple4) (queue : List Bytes) (fname : Bytes)
    (opens : Bool) : List Written :=
  if opens then written++[⟨addr,fname,queue.flatten⟩] else written

/-- `queue_put`, whose size is an `int`. -/
def queuePut (d : Bytes) (queue : List Bytes) : Option (List Bytes) :=
  if queue.length < 2^31-1 then some (queue++[d]) else none

def antSmtpProcess (s : State) (cb : Callback) (hlf : HalfStream) : Option State :=
  let addr := cb.aTcp.addr
  if s.smtp = .ANT_BEGIN ∧ hlf.countNew > 0 then
    match s.hash addr with
    | some queue =>
      (queuePut hlf.new queue).map fun queue =>
        { s with hash := Function.update s.hash addr (some queue) }
    | none => some s
  else if s.smtp = .ANT_DOWNLOAD then
    -- `queue->head->data`, of a queue that may be missing or empty
    (s.hash addr).bind fun queue => queue.head?.bind fun d =>
      (setMailName cb.tvSec (d++cb.beyond)).map fun fname => {
        smtp := .ANT_INIT
        hash := Function.update s.hash addr none
        written := dumpFile s.written addr queue fname cb.opens }
  else some s

def antSmtpInit (s : State) (addr : Tuple4) (hlf : HalfStream) : State :=
  if returnPath.isPrefixOf hlf.data then
    { s with smtp := .ANT_BEGIN,hash := Function.update s.hash addr (some []) }
  else if quit.isPrefixOf hlf.data then { s with smtp := .ANT_DOWNLOAD }
  else s

def TcpStream.hlf (a : TcpStream) : HalfStream :=
  if a.client.countNew ≠ 0 then a.client else a.server

/-- `tcp_callback` with its two tables of functions; those of port 80 print only. -/
def tcpCallback (s : State) (cb : Callback) : Option State :=
  let a := cb.aTcp
  if a.addr.dest ≠ 25 ∧ a.addr.dest ≠ 80 then some s
  else
    match a.nidsState with
    | .NIDS_DATA =>
      if a.server.countNewUrg ≠ 0 then some s
      else if a.addr.dest = 25 then antSmtpProcess (antSmtpInit s a.addr a.hlf) cb a.hlf
      else some s
    | _ => some s

/-- The callbacks in order, from the start of the program. -/
def run (cbs : List Callback) : Option State := cbs.foldlM tcpCallback init

/-- What a file of the name holds. -/
def holds (written : List Written) (fname : Bytes) : Option Bytes :=
  written.foldl (fun held w => if w.fname = fname then some w.contents else held) none

end SmtpCapture
end RecycleBin
