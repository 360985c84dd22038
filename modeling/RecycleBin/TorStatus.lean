import RecycleBin.TorHead

/-!
# The status of a response

`http_join_head_body` reads `errno` after its calls, whether one of them failed or not.
What each call of the C library leaves in `errno` is a parameter.
-/

namespace RecycleBin
namespace TorHttp

open AntHash AntVisited CString

def ENOENT : ℤ := 2

def EBADF : ℤ := 9

/-! ## errno -/

/-- What a call writes to `errno`; a call that succeeds writes nothing. -/
abbrev Effect := Option ℤ

/-- `errno` after a number of calls. -/
def errnoAfter (calls : List Effect) (errno : ℤ) : ℤ :=
  calls.foldl (fun errno e => e.getD errno) errno

/-- The last value the calls write. -/
def lastWritten : List Effect → Effect
  | [] => none
  | e::calls => (lastWritten calls).or e

theorem errnoAfter_eq (calls : List Effect) (errno : ℤ) :
    errnoAfter calls errno = (lastWritten calls).getD errno := by
  induction calls generalizing errno with
  | nil => rfl
  | cons e calls ih =>
    have hstep : errnoAfter (e::calls) errno = errnoAfter calls (e.getD errno) := rfl
    rw [hstep,ih,lastWritten]
    cases lastWritten calls <;> rfl

/-! ## The function -/

inductive Kind
  | dir | reg | other
  deriving DecidableEq

/-- The answers of the system to one request. -/
structure Answers where
  /-- the kind of file, or the `errno` of the failure -/
  stat : Bytes → Except ℤ Kind
  listDir : Effect
  /-- `none` where the file is opened -/
  openFile : Effect
  mmap : Effect
  /-- the `fprintf` of the name and the `printf` calls behind `list_dir`, behind `mmap` and
  in front of the test -/
  printName : Effect
  printDir : Effect
  printPage : Effect
  printFd : Effect
  /-- the two `write` calls at the end -/
  writeHead : Effect
  writePage : Effect

variable (sys : Answers)

/-- The calls behind a successful `stat`, up to the `printf` in front of the test. -/
def fileCalls : Kind → List Effect
  | .dir => [sys.listDir,sys.printDir]
  | .reg =>
    match sys.openFile with
    | some e => [some e]
    | none => [none,sys.mmap,sys.printPage]
  | .other => []

/-- Whether `fd` is open at the end. -/
def opened : Kind → Bool
  | .reg => sys.openFile.isNone
  | .dir | .other => false

/-- All calls that may write `errno`, in order, up to the test. -/
def callsUpToTest (name : Bytes) : List Effect :=
  match sys.stat name with
  | .error e => [some e,sys.printName,sys.printFd]
  | .ok kind => [none,sys.printName]++fileCalls sys kind++[sys.printFd]

/-- `sprintfcat(…, "HTTP/1.1 %d %s\r\n", code, msg)` -/
def statusLine (code : ℕ) (msg : String) : Bytes :=
  ascii "HTTP/1.1 "++(Nat.toDigits 10 code).map (fun c => UInt8.ofNat c.toNat)++ascii " "++
    ascii msg++[13,10]

def notFound : Bytes := statusLine 404 "Not Found"

def okLine : Bytes := statusLine 200 "OK"

/-- `http_join_head_body`: the status line of `http->head`, and `errno` afterwards. -/
def httpJoinHeadBody (http : Http) (errno : ℤ) : Except Fault (Bytes × ℤ) := do
  let name ← joinName http
  let errno := errnoAfter (callsUpToTest sys name) errno
  let line := if errno = ENOENT then notFound else okLine
  let closeEffect : Effect :=
    match sys.stat name with
    | .error _ => some EBADF
    | .ok kind => if opened sys kind then none else some EBADF
  .ok (line,errnoAfter [closeEffect,sys.writeHead,sys.writePage] errno)

/-! ## Where the status is right -/

/-- The status line is the same whatever `errno` was before, and it is 404 exactly where
`stat` of the request's file name fails with `ENOENT`. -/
def StatusRight (http : Http) : Prop :=
  ∃ name line, joinName http = .ok name ∧
    (∀ errno, ∃ errno', httpJoinHeadBody sys http errno = .ok (line,errno')) ∧
    (line = notFound ↔ sys.stat name = .error ENOENT)

/-- Where `stat` fails, a later call that writes `errno` leaves `ENOENT` only for `ENOENT`;
where it succeeds, some later call writes `errno`, and the last one not `ENOENT`. -/
def Honest (name : Bytes) : Prop :=
  match sys.stat name with
  | .error e =>
    ∀ e', lastWritten [sys.printName,sys.printFd] = some e' → (e' = ENOENT ↔ e = ENOENT)
  | .ok kind =>
    ∃ e', lastWritten (sys.printName::(fileCalls sys kind++[sys.printFd])) = some e' ∧ e' ≠ ENOENT

theorem notFound_ne_okLine : notFound ≠ okLine := by
  decide

theorem httpJoinHeadBody_line (sys : Answers) {http : Http} {name : Bytes} (hname : joinName http = .ok name)
    (errno : ℤ) : ∃ errno', httpJoinHeadBody sys http errno =
      .ok (if errnoAfter (callsUpToTest sys name) errno = ENOENT then notFound else okLine,errno') := by
  rw [httpJoinHeadBody,hname]
  exact ⟨_,rfl⟩

variable {sys}

/-- Both halves of it, read off the value of `errno` at the test. -/
theorem statusRight_iff_errno {http : Http} {name : Bytes} (hname : joinName http = .ok name) :
    StatusRight sys http ↔
      ∀ errno, errnoAfter (callsUpToTest sys name) errno = ENOENT ↔ sys.stat name = .error ENOENT := by
  constructor
  · rintro ⟨name',line,hname',hline,hstat⟩ errno
    rw [hname] at hname'
    cases hname'
    obtain ⟨e,he⟩ := hline errno
    obtain ⟨e',he'⟩ := httpJoinHeadBody_line sys hname errno
    rw [he] at he'
    simp only [Except.ok.injEq,Prod.mk.injEq] at he'
    rw [← hstat,he'.1]
    split_ifs with hcode
    · exact iff_of_true hcode rfl
    · exact iff_of_false hcode notFound_ne_okLine.symm
  · intro h
    refine ⟨name,if sys.stat name = .error ENOENT then notFound else okLine,hname,?_,?_⟩
    · intro errno
      obtain ⟨e,he⟩ := httpJoinHeadBody_line sys hname errno
      simp only [h errno] at he
      exact ⟨e,he⟩
    · split_ifs with hstat
      · exact iff_of_true rfl hstat
      · exact iff_of_false notFound_ne_okLine.symm hstat

theorem honest_iff (name : Bytes) : Honest sys name ↔
    ∀ errno, errnoAfter (callsUpToTest sys name) errno = ENOENT ↔ sys.stat name = .error ENOENT := by
  cases hstat : sys.stat name with
  | error e =>
    have herrno : ∀ errno, errnoAfter (callsUpToTest sys name) errno =
        (lastWritten [sys.printName,sys.printFd]).getD e := by
      intro errno
      rw [← errnoAfter_eq,callsUpToTest,hstat]
      rfl
    simp only [Honest,hstat,herrno,Except.error.injEq]
    cases lastWritten [sys.printName,sys.printFd] with
    | none => simp
    | some e' => simp
  | ok kind =>
    have herrno : ∀ errno, errnoAfter (callsUpToTest sys name) errno =
        (lastWritten (sys.printName::(fileCalls sys kind++[sys.printFd]))).getD errno := by
      intro errno
      rw [← errnoAfter_eq,callsUpToTest,hstat]
      rfl
    simp only [Honest,hstat,herrno,reduceCtorEq,iff_false]
    cases lastWritten (sys.printName::(fileCalls sys kind++[sys.printFd])) with
    | none =>
      refine iff_of_false (by rintro ⟨e,he,-⟩; cases he) ?_
      intro h
      exact h ENOENT rfl
    | some e' => simp

/-- The status depends only on the request, and is 404 for missing files only, exactly where
the name fits its array and the calls behind `stat` leave `errno` as `Honest` says. -/
theorem statusRight_iff (sys : Answers) (http : Http) :
    StatusRight sys http ↔ ∃ name, joinName http = .ok name ∧ Honest sys name := by
  constructor
  · intro h
    obtain ⟨name,-,hname,-,-⟩ := id h
    exact ⟨name,hname,(honest_iff name).mpr ((statusRight_iff_errno hname).mp h)⟩
  · rintro ⟨name,hname,hhonest⟩
    exact (statusRight_iff_errno hname).mpr ((honest_iff name).mp hhonest)

/-- A regular file that is opened and mapped; no call writes `errno`. -/
def served : Answers where
  stat := fun _ => .ok .reg
  listDir := none
  openFile := none
  mmap := none
  printName := none
  printDir := none
  printPage := none
  printFd := none
  writeHead := none
  writePage := none

/-- The file is there and is sent with 404, because an earlier call left `ENOENT`. -/
theorem not_statusRight_served :
    (∃ errno', httpJoinHeadBody served ⟨ascii "a",ascii "./",false,0⟩ ENOENT = .ok (notFound,errno')) ∧
    (∃ errno', httpJoinHeadBody served ⟨ascii "a",ascii "./",false,0⟩ 0 = .ok (okLine,errno')) ∧
    ¬∀ (sys : Answers) (http : Http), StatusRight sys http := by
  refine ⟨⟨ENOENT,by decide⟩,⟨0,by decide⟩,?_⟩
  intro h
  have hname : joinName ⟨ascii "a",ascii "./",false,0⟩ = .ok (ascii "./a") := by decide
  have hright := (statusRight_iff_errno hname).mp (h served _) ENOENT
  cases hright.mp rfl

end TorHttp
end RecycleBin
