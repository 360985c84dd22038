import RecycleBin.AeFile
import RecycleBin.Refinement

/-! What the kernel watches after a sequence of file-event calls, on kqueue and on epoll.
The table behind both keeps every bit ever added. -/
namespace RecycleBin
namespace Ae

/-! ## kqueue -/

/-- The filters of a `Kevent_t`: `EVFILT_READ` and `EVFILT_WRITE`. -/
inductive EvFilter
  | read | write
  deriving DecidableEq

/-- `EV_ADD` and `EV_DELETE` -/
inductive EvFlag
  | add | delete

structure Kevent where
  ident : ℕ
  filter : EvFilter
  flags : EvFlag

/-- `unix.Kevent` on the filters registered: the changes in order, up to the first that
fails. A filter may be added twice, and only one that is there deleted. -/
def kevent (held : List (ℕ × EvFilter)) : List Kevent → List (ℕ × EvFilter) × Option Errno
  | [] => (held,none)
  | ke::changes =>
    match ke.flags with
    | .add => kevent (held.insert (ke.ident,ke.filter)) changes
    | .delete =>
      if (ke.ident,ke.filter) ∈ held then
        kevent (held.filter (· ≠ (ke.ident,ke.filter))) changes
      else (held,some .ENOENT)

/-- The list `ke` of both functions. -/
def changes (flags : EvFlag) (fd : ℕ) (mask : Action) : List Kevent :=
  (if (mask &&& READABLE).toInt > 0 then [⟨fd,.read,flags⟩] else [])++
    (if (mask &&& WRITABLE).toInt > 0 then [⟨fd,.write,flags⟩] else [])

/-- The backend of `ae_kqueue.go`. -/
def kqueue : Backend (List (ℕ × EvFilter)) Errno where
  apiAddEvent held _ fd mask :=
    let r := kevent held (changes .add fd mask)
    r.2.elim (.ok r.1) .error
  apiDelEvent held _ fd mask := (kevent held (changes .delete fd mask)).1

def EvFilter.bit : EvFilter → ℕ
  | .read => 0
  | .write => 1

/-- The bit of `mask` for a filter. -/
def Asks (mask : Action) (f : EvFilter) : Prop := mask.getLsbD f.bit = true

instance (mask : Action) (f : EvFilter) : Decidable (Asks mask f) :=
  inferInstanceAs (Decidable (_ = true))

section
variable {V S ε : Type} {api : Backend S ε} {el el' : EventLoop V S} {fd : ℕ} {mask : Action}
  {proc clientData : V}

end

/-! ## What kqueue keeps -/

variable {V : Type}

/-- A `kevent` that deletes both filters stops at the first when only the second is there. -/
def keptStep (fd : ℕ) (m : Action) : FileCall V → Action
  | .create fd' mask _ _ => if fd' = fd then m ||| mask else m
  | .delete fd' mask =>
    if fd' = fd ∧ (Asks mask .read → Asks m .read) then m &&& ~~~mask else m

def kept (calls : List (FileCall V)) (fd : ℕ) : Action := calls.foldl (keptStep fd) 0

/-- Without a call that deletes both filters of a descriptor only watched for writing. -/
def Paired (calls : List (FileCall V)) : Prop :=
  ∀ pre fd mask post, calls = pre++.delete fd mask::post → Asks mask .read → Asks mask .write →
    Asks (wanted pre fd) .write → Asks (wanted pre fd) .read

section
variable {held held' : List (ℕ × BitVec 32)} {old mask : Action} {fd : ℕ}

end

def EvFilter.event : EvFilter → BitVec 32
  | .read => EPOLLIN
  | .write => EPOLLOUT

end Ae
end RecycleBin
