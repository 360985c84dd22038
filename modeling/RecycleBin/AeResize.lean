import RecycleBin.AeDispatch

/-! `Resize` of `ae.go`. A table of Go is a slice, with spare room behind its length; what
`append` and the backend leave there and keep is a parameter. -/
namespace RecycleBin
namespace Ae

/-- A loop with the room of its tables. `apidata` is none for nil, and `released` after
`Delete`, which leaves two nil slices. -/
structure Tables (V S : Type) where
  el : EventLoop V (Option S)
  released : Bool
  spare : List (FileEvent V)
  fired : List FiredEvent
  firedSpare : List FiredEvent

/-- What is known of the backend and of `append`: the state that `apiCreate` may give, that of
`apiResize`, and the room `append` reserves behind so many elements. -/
structure Room (S : Type) where
  fresh : S → Prop
  apiResize : S → ℕ → S
  slack : ℕ → ℕ
  firedSlack : ℕ → ℕ

variable {V S ε : Type}

/-- `el.events` -/
def Tables.events (t : Tables V S) : List (FileEvent V) :=
  if t.released then [] else t.el.events.toList

/-- `el.events[:cap(el.events)]` -/
def Tables.block (t : Tables V S) : List (FileEvent V) := t.events++t.spare

def Tables.firedBlock (t : Tables V S) : List FiredEvent := t.fired++t.firedSpare

/-- `Create`: `apidata` is nil, and `make` reserves nothing. -/
def Tables.create (setSize : ℕ) : Tables V S where
  el := Ae.create setSize none
  released := false
  spare := []
  fired := List.replicate setSize ⟨0,0⟩
  firedSpare := []

/-- `apiCreate` -/
def Tables.apiCreate (t : Tables V S) (s : S) : Tables V S :=
  { t with el := { t.el with apidata := some s } }

/-- `Delete` -/
def Tables.delete (t : Tables V S) : Tables V S :=
  { t with released := true,spare := [],fired := [],firedSpare := [] }

/-- The loop of `Resize`: the masks behind `maxFd` are cleared. -/
def clear (maxFd : ℤ) (i : ℕ) (fe : FileEvent V) : FileEvent V :=
  if maxFd < i then { fe with mask := NONE } else fe

/-- The tables copied from slices of the first `n` elements, which may reach into the room. -/
def Tables.slice (room : Room S) (t : Tables V S) (s : S) (n : ℕ) (hmax : t.el.maxFd < n)
    (hcap : n ≤ t.block.length) : Tables V S where
  el := { t.el with
    apidata := some (room.apiResize s n)
    setSize := n
    events := .ofFn fun i =>
      have hlt : i.val < t.block.length := by omega
      clear t.el.maxFd i t.block[i.val]
    maxFd_lt := hmax }
  released := false
  spare := List.replicate (room.slack n) .zero
  fired := t.firedBlock.take n
  firedSpare := List.replicate (room.firedSlack n) ⟨0,0⟩

/-- `Resize`: the error or nil, and the loop; none is a panic. -/
def Tables.resize (room : Room S) (t : Tables V S) (setSize : ℤ) :
    Option (Option String × Tables V S) :=
  if setSize = t.el.setSize then some (none,t)
  else if hmax : t.el.maxFd ≥ setSize then some (some "TODO 定义下错误消息",t)
  else do
    -- `apiResize` goes through `apidata`
    let s ← t.el.apidata
    -- a slice reaches to the capacity
    if h : 0 ≤ setSize ∧ setSize ≤ t.block.length ∧ setSize ≤ t.firedBlock.length then
      some (none,t.slice room s setSize.toNat (by omega) (by omega))
    else none

/-- The backend behind a pointer; the calls are made where it is not nil. -/
def Backend.lift (api : Backend S ε) : Backend (Option S) ε where
  apiAddEvent s old fd mask := match s with
    | none => .ok none
    | some s => (api.apiAddEvent s old fd mask).map some
  apiDelEvent s old fd mask := s.map fun s => api.apiDelEvent s old fd mask

/-- The loops that the calls lead to. Timers, and what the backend reports, leave the tables as
they are. -/
inductive Reachable (api : Backend S ε) (room : Room S) : Tables V S → Prop
  | create (setSize : ℕ) : Reachable api room (.create setSize)
  | apiCreate {t : Tables V S} {s : S} : Reachable api room t → room.fresh s →
      Reachable api room (t.apiCreate s)
  | createFileEvent {t : Tables V S} {fd : ℕ} {mask : Action} {proc clientData : V}
      {el : EventLoop V (Option S)} : Reachable api room t → t.released = false →
      t.el.apidata ≠ none → Ae.createFileEvent api.lift t.el fd mask proc clientData = .ok el →
      Reachable api room { t with el := el }
  | deleteFileEvent {t : Tables V S} (fd : ℕ) (mask : Action) : Reachable api room t →
      t.released = false → t.el.apidata ≠ none →
      Reachable api room { t with el := Ae.deleteFileEvent api.lift t.el fd mask }
  | resize {t t' : Tables V S} {setSize : ℤ} {err : Option String} : Reachable api room t →
      t.resize room setSize = some (err,t') → Reachable api room t'
  | delete {t : Tables V S} : Reachable api room t → Reachable api room t.delete
  | other {t : Tables V S} (timeEventNextId : ℤ) (timeEventHead : Option (List ℕ))
      (timeEvents : List (TimeEvent V)) (fired : List FiredEvent) : Reachable api room t →
      fired.length = t.fired.length →
      Reachable api room { t with
        el := { t.el with timeEventNextId,timeEventHead,timeEvents }
        fired := fired }

/-! ### What a new size should do -/

/-- The descriptor has an event, and is at most the highest one that is registered. -/
def Tables.Registered (t : Tables V S) (fd : ℕ) : Prop :=
  (fd : ℤ) ≤ t.el.maxFd ∧ ∃ fe,t.events[fd]? = some fe ∧ fe.mask ≠ NONE

/-- `t'` is `t` with the tables of the new size. -/
structure Resized (t t' : Tables V S) (setSize : ℤ) : Prop where
  setSize_eq : t'.el.setSize = setSize
  events_length : t'.events.length = setSize
  fired_length : t'.fired.length = setSize
  maxFd_eq : t'.el.maxFd = t.el.maxFd
  kept : ∀ fd,t.Registered fd → t'.events[fd]? = t.events[fd]?
  empty : ∀ fd fe,¬t.Registered fd → t'.events[fd]? = some fe → fe.mask = NONE

/-- Sizes up to `maxFd` are refused, and change nothing; all others are put into effect. -/
def Tables.Resizes (room : Room S) (t : Tables V S) (setSize : ℤ) : Prop :=
  if setSize ≤ t.el.maxFd then ∃ err,t.resize room setSize = some (some err,t)
  else ∃ t',t.resize room setSize = some (none,t') ∧ Resized t t' setSize

/-- The size is refused; or it is the present one of both tables, and no mask stands behind
`maxFd`; or it is another one, inside the capacities of both tables, and there is a backend. -/
def Tables.Fits (t : Tables V S) (setSize : ℤ) : Prop :=
  setSize ≤ t.el.maxFd ∨
    (setSize = t.el.setSize ∧ t.events.length = setSize ∧ t.fired.length = setSize ∧
      ∀ fd fe,t.el.maxFd < (fd : ℕ) → t.events[fd]? = some fe → fe.mask = NONE) ∨
    (setSize ≠ t.el.setSize ∧ t.el.apidata ≠ none ∧ setSize ≤ t.block.length ∧
      setSize ≤ t.firedBlock.length)

/-! ### Reachable loops -/

/-- `maxFd` is -1 at least, and nothing is left of the tables after `Delete`. -/
structure Tables.Sound (t : Tables V S) : Prop where
  low : -1 ≤ t.el.maxFd
  released : t.released = true → t.spare = []

theorem Tables.length_events (t : Tables V S) :
    t.events.length = if t.released then 0 else t.el.setSize := by
  rw [events]
  split_ifs
  · rfl
  · exact Vector.length_toList

/-- A slot of the block at or below `maxFd` is one of the table. -/
theorem Tables.Sound.lt_events {t : Tables V S} (h : t.Sound) {fd : ℕ} (hblock : fd < t.block.length)
    (hmax : (fd : ℤ) ≤ t.el.maxFd) : fd < t.events.length := by
  have hlt := t.el.maxFd_lt
  rw [Tables.block,List.length_append] at hblock
  rw [t.length_events] at hblock ⊢
  split_ifs at hblock ⊢ with hreleased
  · rw [h.released hreleased,List.length_nil] at hblock
    omega
  · omega

/-- What a call that returns has done. -/
theorem Tables.resize_cases {room : Room S} {t t' : Tables V S} {setSize : ℤ} {err : Option String}
    (h : t.resize room setSize = some (err,t')) :
    t' = t ∨ ∃ s hmax hcap,t.el.apidata = some s ∧ err = none ∧
      t' = t.slice room s setSize.toNat hmax hcap ∧ 0 ≤ setSize ∧
      setSize ≤ t.firedBlock.length := by
  rw [resize] at h
  split at h
  · cases h
    exact .inl rfl
  · split at h
    · cases h
      exact .inl rfl
    · obtain ⟨s,hdata,hslice⟩ := Option.bind_eq_some_iff.mp h
      split at hslice
      · rename_i hcap
        cases hslice
        exact .inr ⟨s,_,_,hdata,rfl,rfl,hcap.1,hcap.2.2⟩
      · cases hslice

theorem neg_one_le_deleteFileEvent {api : Backend S ε} {el : EventLoop V S} (fd : ℕ)
    (mask : Action) (h : -1 ≤ el.maxFd) : -1 ≤ (deleteFileEvent api el fd mask).maxFd := by
  rw [deleteFileEvent]
  split
  · dsimp only
    split
    · exact h
    · split
      · exact neg_one_le_lastEvent _ _ _
      · exact h
  · exact h

theorem Reachable.sound {api : Backend S ε} {room : Room S} {t : Tables V S}
    (h : Reachable api room t) : t.Sound := by
  induction h with
  | create setSize => exact ⟨le_rfl,fun h => by cases h⟩
  | apiCreate _ _ ih => exact ⟨ih.low,ih.released⟩
  | createFileEvent _ hlive _ hcall ih =>
    obtain ⟨-,-,hmax,-⟩ := createFileEvent_ok hcall
    have hlow := ih.low
    refine ⟨?_,ih.released⟩
    show -1 ≤ EventLoop.maxFd _
    rw [hmax]
    omega
  | deleteFileEvent fd mask _ _ _ ih =>
    exact ⟨neg_one_le_deleteFileEvent fd mask ih.low,ih.released⟩
  | resize _ hcall ih =>
    rcases Tables.resize_cases hcall with rfl | ⟨s,hmax,hcap,-,-,rfl,-,-⟩
    · exact ih
    · exact ⟨ih.low,fun h => by cases h⟩
  | delete _ ih => exact ⟨ih.low,fun _ => rfl⟩
  | other _ _ _ _ _ _ ih => exact ⟨ih.low,ih.released⟩

/-! ### Resizing -/

namespace Tables

variable {room : Room S} {t : Tables V S} {setSize : ℤ}

theorem resize_refused (h : setSize ≤ t.el.maxFd) :
    t.resize room setSize = some (some "TODO 定义下错误消息",t) := by
  have hlt := t.el.maxFd_lt
  rw [resize,if_neg (by omega),dif_pos h]

theorem resize_same : t.resize room t.el.setSize = some (none,t) := if_pos rfl

theorem resize_slice (room : Room S) {s : S} (hdata : t.el.apidata = some s)
    (hne : setSize ≠ t.el.setSize) (hmax : t.el.maxFd < setSize) (hlow : 0 ≤ setSize) (hcap : setSize ≤ t.block.length)
    (hfired : setSize ≤ t.firedBlock.length) :
    ∃ hmax hcap,t.resize room setSize = some (none,t.slice room s setSize.toNat hmax hcap) := by
  refine ⟨by omega,by omega,?_⟩
  rw [resize,if_neg hne,dif_neg (not_le.mpr hmax),hdata]
  exact dif_pos ⟨hlow,hcap,hfired⟩

section Slice

variable {s : S} {n : ℕ} {hmax : t.el.maxFd < n} {hcap : n ≤ t.block.length}

theorem slice_events_eq : (t.slice room s n hmax hcap).events =
    (t.slice room s n hmax hcap).el.events.toList := if_neg Bool.false_ne_true

theorem slice_events_length : (t.slice room s n hmax hcap).events.length = n := by
  rw [slice_events_eq,Vector.length_toList]
  rfl

/-- A slot of the new table is that of the block, without its mask behind `maxFd`. -/
theorem slice_events {fd : ℕ} (hfd : fd < n) :
    (t.slice room s n hmax hcap).events[fd]? = (t.block[fd]?).map (clear t.el.maxFd fd) := by
  have hlt : fd < t.block.length := by omega
  rw [slice_events_eq,List.getElem?_eq_getElem hlt,Option.map_some,Vector.getElem?_toList]
  exact Vector.getElem?_ofFn.trans (dif_pos hfd)

theorem slice_fired_length (hfired : n ≤ t.firedBlock.length) :
    (t.slice room s n hmax hcap).fired.length = n :=
  List.length_take_of_le hfired

/-- The new tables keep what is registered, and nothing else. -/
theorem slice_resized (room : Room S) (s : S) (hmax : t.el.maxFd < n)
    (hcap : n ≤ t.block.length) (h : t.Sound) (hfired : n ≤ t.firedBlock.length) :
    Resized t (t.slice room s n hmax hcap) n where
  setSize_eq := rfl
  events_length := by rw [slice_events_length]
  fired_length := by rw [slice_fired_length hfired]
  maxFd_eq := rfl
  kept := by
    rintro fd ⟨hle,fe,hfe,-⟩
    have hblock : t.block[fd]? = some fe := by
      rw [block,List.getElem?_append_left (List.getElem?_eq_some_iff.mp hfe).1,hfe]
    rw [slice_events (by omega),hblock,hfe,Option.map_some,clear,if_neg (by omega)]
  empty := by
    intro fd fe hnot hfe
    have hfd : fd < n := by
      have hlt := (List.getElem?_eq_some_iff.mp hfe).1
      rwa [slice_events_length] at hlt
    rw [slice_events hfd] at hfe
    obtain ⟨old,hold,rfl⟩ := Option.map_eq_some_iff.mp hfe
    rw [clear]
    split_ifs with hbehind
    · rfl
    · -- at or below `maxFd` the slot is one of the old table
      have hin : fd < t.events.length := h.lt_events (by omega) (by omega)
      rw [block,List.getElem?_append_left hin] at hold
      by_contra hmask
      exact hnot ⟨by omega,old,hold,hmask⟩

end Slice

/-- The present tables are those of the present size if nothing is left behind `maxFd`. -/
theorem resized_self : Resized t t setSize ↔
    setSize = t.el.setSize ∧ t.events.length = setSize ∧ t.fired.length = setSize ∧
      ∀ fd fe,t.el.maxFd < (fd : ℕ) → t.events[fd]? = some fe → fe.mask = NONE := by
  constructor
  · rintro ⟨hsize,hevents,hfired,-,-,hempty⟩
    refine ⟨hsize.symm,hevents,hfired,fun fd fe hbehind => hempty fd fe ?_⟩
    exact fun hreg => absurd hreg.1 (not_le.mpr hbehind)
  · rintro ⟨hsize,hevents,hfired,hbehind⟩
    refine ⟨hsize.symm,hevents,hfired,rfl,fun _ _ => rfl,fun fd fe hnot hfe => ?_⟩
    by_contra hmask
    rcases lt_or_ge t.el.maxFd (fd : ℤ) with hlt | hle
    · exact hmask (hbehind fd fe hlt hfe)
    · exact hnot ⟨hle,fe,hfe,hmask⟩

/-- A new size is put into effect exactly where it fits. -/
theorem resizes_iff (h : t.Sound) : t.Resizes room setSize ↔ t.Fits setSize := by
  have hlt := t.el.maxFd_lt
  by_cases hmax : setSize ≤ t.el.maxFd
  · rw [Resizes,if_pos hmax]
    exact iff_of_true ⟨_,resize_refused hmax⟩ (.inl hmax)
  · rw [Resizes,if_neg hmax,Fits,or_iff_right hmax]
    by_cases heq : setSize = t.el.setSize
    · have hsame : t.resize room setSize = some (none,t) := by rw [heq,resize_same]
      rw [← resized_self]
      constructor
      · rintro ⟨t',hcall,hres⟩
        rw [hsame] at hcall
        cases hcall
        exact .inl hres
      · rintro (hres | ⟨hne,-⟩)
        · exact ⟨t,hsame,hres⟩
        · exact absurd heq hne
    · have hlow := h.low
      constructor
      · rintro ⟨t',hcall,hres⟩
        rcases resize_cases hcall with rfl | ⟨s,hlt,hcap,hdata,-,-,hpos,hfired⟩
        · exact absurd hres.setSize_eq.symm heq
        · exact .inr ⟨heq,by rw [hdata]; exact Option.some_ne_none s,by omega,hfired⟩
      · rintro (⟨hsame,-⟩ | ⟨-,hdata,hcap,hfired⟩)
        · exact absurd hsame heq
        · obtain ⟨s,hdata⟩ := Option.ne_none_iff_exists'.mp hdata
          obtain ⟨hlt,hcap',hcall⟩ := resize_slice room hdata heq (by omega) (by omega)
            hcap hfired
          have hres := slice_resized room s hlt hcap' h (by omega)
          rw [Int.toNat_of_nonneg (by omega)] at hres
          exact ⟨_,hcall,hres⟩

end Tables

/-- From any loop the calls lead to, `Resize` refuses a size up to `maxFd`, and does what it
should with another one where it is within the capacities and the backend is there. The present
size it leaves alone, with the masks behind `maxFd`. -/
theorem resize_iff {api : Backend S ε} {room : Room S} {t : Tables V S} (h : Reachable api room t)
    (setSize : ℤ) : t.Resizes room setSize ↔ t.Fits setSize :=
  Tables.resizes_iff h.sound

/-- The loop of `Create(1)`, with a backend. -/
def oneSlot : Tables Unit Unit := (Tables.create 1).apiCreate ()

/-- A backend that takes everything, and `append` without room. -/
def plain : Backend Unit Unit := ⟨fun _ _ _ _ => .ok (),fun _ _ _ _ => ()⟩

def noRoom : Room Unit := ⟨fun _ => True,fun _ _ => (),fun _ => 0,fun _ => 0⟩

theorem oneSlot_reachable : Reachable plain noRoom oneSlot := .apiCreate (.create 1) trivial

/-- A size of no slots fits. -/
theorem resize_iff_oneSlot : oneSlot.Resizes noRoom 0 ↔ oneSlot.Fits 0 :=
  resize_iff oneSlot_reachable 0

/-- The table does not grow: a slice of two elements is beyond its capacity. -/
theorem not_resizes_oneSlot : Reachable plain noRoom oneSlot ∧ oneSlot.el.maxFd < 2 ∧
    ¬oneSlot.Resizes noRoom 2 := by
  refine ⟨oneSlot_reachable,by decide,?_⟩
  rw [Tables.resizes_iff oneSlot_reachable.sound]
  rintro (h | ⟨h,-⟩ | ⟨-,-,h,-⟩)
  · exact absurd h (by decide)
  · exact absurd h (by decide)
  · exact absurd h (by decide)

end Ae
end RecycleBin
