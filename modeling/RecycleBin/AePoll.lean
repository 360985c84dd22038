import RecycleBin.AeDispatch

/-! The timeout of a pass of `ProcessEvents`: what `usUntilEarliestTimer` reports, and how long
the backend waits with it. -/
namespace RecycleBin
namespace Ae

/-- `ae_epoll.go` and `ae_kqueue.go`. -/
inductive Poller
  | epoll | kqueue
  deriving DecidableEq

/-- How long `apiPoll(tv)` waits if nothing happens, in nanoseconds; none is forever. -/
def Poller.bound : Poller → ℤ → Option ℤ
  | .epoll, tv => if tv > 0 then some (tv/1000000*1000000) else none
  | .kqueue, tv => if tv ≥ 0 then some tv else none

variable {V S : Type}

/-- The timers of a machine. -/
def Machine.timers (m : Machine V S) : List (TimeEvent V) :=
  m.el.timeEventHead.elim [] (Ae.timers m)

/-- A timer that was not deleted. -/
def TimeEvent.Live (te : TimeEvent V) : Prop := te.id ≠ DELETED_EVENT_ID

section Timeout
variable (procs : Procs V S)

/-- How long the pass waits in `apiPoll`; none is a pass that does not get there. -/
def pollTime (poller : Poller) (flags : Event) (p : Loop V S) : Option (Option ℤ) :=
  if (flags &&& TIME_EVENTS).toInt > 0 ∧ (flags &&& FILE_EVENTS).toInt > 0 ∧
      (p.m.el.maxFd ≠ -1 ∨ waits flags) then
    (timeout procs flags p).2.map poller.bound
  else none

/-- No timer is reported if no timer is live, else the time until the first `when` of the
list, 0 where it has passed. -/
structure Expected (now : ℤ) (tes : List (TimeEvent V)) (r : ℤ × Bool) : Prop where
  none_iff : r.2 = false ↔ ∀ te ∈ tes,¬te.Live
  remaining : r.2 = true → ∃ te ∈ tes,(∀ x ∈ tes,te.when ≤ x.when) ∧ r.1 = max 0 (te.when-now)

/-- `usUntilEarliestTimer` returns what is expected. -/
def Reports (m : Machine V S) : Prop :=
  ∃ r,(usUntilEarliestTimer procs m).2 = some r ∧ Expected (procs.clock m.reads) m.timers r

/-- A pass does not wait past a live timer. -/
def OnTime (poller : Poller) (flags : Event) (p : Loop V S) : Prop :=
  ∀ bound,pollTime procs poller flags p = some bound → ∀ te ∈ p.m.timers,te.Live →
    ∃ t,bound = some t ∧ t ≤ max 0 (te.when-procs.clock p.m.reads)

/-- The report is right, and so no pass waits past a timer. -/
def PollsInTime (poller : Poller) (m : Machine V S) : Prop :=
  Reports procs m ∧ ∀ flags p,p.m = m → OnTime procs poller flags p

/-- There is no list of timers; or all of the list are deleted and one of them is to come; or
some are not, the last one is due right now, and the backend is kqueue. -/
def DueNow (poller : Poller) (now : ℤ) (m : Machine V S) : Prop :=
  m.el.timeEventHead = none ∨
    (∀ te ∈ m.timers,¬te.Live) ∧ (∃ te ∈ m.timers,now < te.when) ∨
    (∃ te ∈ m.timers,te.Live) ∧ (∃ te ∈ m.timers,te.when = now) ∧
      (∀ te ∈ m.timers,te.when ≤ now) ∧ poller = .kqueue

variable {procs} {m : Machine V S}

theorem sub_self (now : ℤ) : sub now now = 0 := by
  rw [sub,Int.sub_self]
  decide

/-- The report is about the latest timer. -/
theorem usUntilEarliestTimer_latest {r : ℤ × Bool}
    (h : (usUntilEarliestTimer procs m).2 = some r) :
    m.el.timeEventHead = none ∧ r = (0,false) ∨
      ∃ te ∈ m.timers,(∀ x ∈ m.timers,x.when ≤ te.when) ∧
        r = if procs.clock m.reads < te.when then (0,false)
          else (sub (procs.clock m.reads) te.when,true) := by
  rw [usUntilEarliestTimer] at h
  rw [Machine.timers]
  cases hhead : m.el.timeEventHead with
  | none =>
    rw [hhead] at h
    exact .inl ⟨rfl,(Option.some.inj h).symm⟩
  | some head =>
    rw [hhead] at h
    dsimp only at h
    rw [Option.elim_some]
    cases hl : timers m head with
    | nil =>
      rw [hl] at h
      cases h
    | cons te l =>
      obtain ⟨te',hfold,hmem,hmax⟩ := foldl_earlier_some te l
      have hfold' : (te::l).foldl earlier none = some te' := hfold
      rw [hl,hfold',Option.map_some,Option.some.injEq] at h
      exact .inr ⟨te',hmem,hmax,h.symm⟩

/-- Where there is a timer there is a report. -/
theorem usUntilEarliestTimer_some (procs : Procs V S)
    (h : m.el.timeEventHead = none ∨ m.timers ≠ []) :
    ∃ r,(usUntilEarliestTimer procs m).2 = some r := by
  rw [← Option.isSome_iff_exists,Option.isSome_iff_ne_none,ne_eq,usUntilEarliestTimer_eq_none_iff]
  rintro ⟨head,hhead,hnil⟩
  rcases h with h | h
  · rw [h] at hhead
    cases hhead
  · rw [Machine.timers,hhead,Option.elim_some] at h
    exact h hnil

theorem timers_of_none (h : m.el.timeEventHead = none) : m.timers = [] := by
  rw [Machine.timers,h,Option.elim_none]

theorem exists_first {tes : List (TimeEvent V)} (h : tes ≠ []) :
    ∃ te ∈ tes,∀ x ∈ tes,te.when ≤ x.when := by
  cases hmin : tes.argmin TimeEvent.when with
  | none => exact absurd (List.argmin_eq_none.mp hmin) h
  | some te => exact ⟨te,List.argmin_mem hmin,fun x hx => List.le_of_mem_argmin hx hmin⟩

/-- There is nothing to wait for, or the latest timer is to come, so that none is reported. -/
theorem report_none (h : m.el.timeEventHead = none ∨ ∃ te ∈ m.timers,procs.clock m.reads < te.when)
    {r : ℤ × Bool} (hr : (usUntilEarliestTimer procs m).2 = some r) : r = (0,false) := by
  rcases usUntilEarliestTimer_latest hr with ⟨-,hnone⟩ | ⟨last,hlast,hmax,heq⟩
  · exact hnone
  · rcases h with hnone | ⟨te,hmem,hlt⟩
    · rw [timers_of_none hnone] at hlast
      cases hlast
    · rw [heq,if_pos (hlt.trans_le (hmax te hmem))]

/-- The latest timer is due now, so that the report is 0. -/
theorem report_zero (hnow : ∃ te ∈ m.timers,te.when = procs.clock m.reads)
    (hmax : ∀ te ∈ m.timers,te.when ≤ procs.clock m.reads) {r : ℤ × Bool}
    (hr : (usUntilEarliestTimer procs m).2 = some r) : r = (0,true) := by
  obtain ⟨te,hmem,hwhen⟩ := hnow
  rcases usUntilEarliestTimer_latest hr with ⟨hnone,-⟩ | ⟨last,hlast,hmax',heq⟩
  · rw [timers_of_none hnone] at hmem
    cases hmem
  · have hnow' : last.when = procs.clock m.reads :=
      le_antisymm (hmax last hlast) (hwhen ▸ hmax' te hmem)
    rw [heq,hnow',if_neg (lt_irrefl _),sub_self]

/-- A report of none is right where no timer is live. -/
theorem reports_of_none (hlist : m.el.timeEventHead = none ∨ m.timers ≠ [])
    (hnone : ∀ r,(usUntilEarliestTimer procs m).2 = some r → r = (0,false))
    (hdead : ∀ te ∈ m.timers,¬te.Live) : Reports procs m := by
  obtain ⟨r,hr⟩ := usUntilEarliestTimer_some procs hlist
  obtain rfl := hnone r hr
  exact ⟨_,hr,⟨fun _ => hdead,fun _ => rfl⟩,fun h => by cases h⟩

/-- A right report is one of none, or about a latest timer that is due at this moment. -/
theorem Reports.dueNow (h : Reports procs m) : DueNow .kqueue (procs.clock m.reads) m := by
  obtain ⟨r,hr,hexp⟩ := h
  rcases usUntilEarliestTimer_latest hr with ⟨hnone,-⟩ | ⟨te,hmem,hmax,heq⟩
  · exact .inl hnone
  · split_ifs at heq with hlt
    · rw [heq] at hexp
      exact .inr (.inl ⟨hexp.none_iff.mp rfl,te,hmem,hlt⟩)
    · rw [heq] at hexp
      obtain ⟨first,hfirst,hmin,hrem⟩ := hexp.remaining rfl
      have hle := hmin te hmem
      have hnow : te.when = procs.clock m.reads := by
        simp only [sub] at hrem
        omega
      have hlive : ∃ te ∈ m.timers,te.Live := by
        by_contra hno
        have hnot := hexp.none_iff.mpr fun te hte hl => hno ⟨te,hte,hl⟩
        cases hnot
      exact .inr (.inr ⟨hlive,⟨te,hmem,hnow⟩,fun x hx => hnow ▸ hmax x hx,rfl⟩)

/-- The report is the expected one where there is nothing to wait for, and where the latest
timer is due at this moment. -/
theorem reports_iff : Reports procs m ↔
    DueNow .kqueue (procs.clock m.reads) m := by
  constructor
  · exact Reports.dueNow
  · rintro (hnone | ⟨hdead,te,hmem,hlt⟩ | ⟨⟨live,hlive,hl⟩,⟨te,hmem,hnow⟩,hmax,-⟩)
    · refine reports_of_none (.inl hnone) (fun _ => report_none (.inl hnone)) fun te hte => ?_
      rw [timers_of_none hnone] at hte
      cases hte
    · exact reports_of_none (.inr (List.ne_nil_of_mem hmem))
        (fun _ => report_none (.inr ⟨te,hmem,hlt⟩)) hdead
    · obtain ⟨r,hr⟩ := usUntilEarliestTimer_some procs (.inr (List.ne_nil_of_mem hmem))
      obtain rfl := report_zero ⟨te,hmem,hnow⟩ hmax hr
      refine ⟨_,hr,⟨fun h => (by cases h),fun h => absurd hl (h live hlive)⟩,fun _ => ?_⟩
      obtain ⟨first,hfirst,hmin⟩ := exists_first (List.ne_nil_of_mem hmem)
      refine ⟨first,hfirst,hmin,?_⟩
      have hle := hmax first hfirst
      show 0 = max 0 (first.when-procs.clock m.reads)
      omega

/-- If no timer of the list is to come, the timeout is 0 whatever the flags are. -/
theorem pollTime_zero {poller : Poller} {flags : Event} {p : Loop V S} (hp : p.m = m)
    (hzero : ∀ r,(usUntilEarliestTimer procs m).2 = some r → r.1 = 0) {bound : Option ℤ}
    (h : pollTime procs poller flags p = some bound) : bound = poller.bound 0 := by
  subst hp
  rw [pollTime] at h
  split_ifs at h with hflags
  obtain ⟨tv,htv,rfl⟩ := Option.map_eq_some_iff.mp h
  have h0 : tv = 0 := by
    rw [timeout] at htv
    obtain ⟨tv',htv',rfl⟩ := Option.map_eq_some_iff.mp htv
    have h0' : tv' = 0 := by
      split_ifs at htv' with hwaits
      · obtain ⟨r,hr,rfl⟩ := Option.map_eq_some_iff.mp htv'
        exact hzero r hr
      · exact (Option.some.inj htv').symm
    simp [h0']
  rw [h0]

/-- The pass that `Main` makes gets to `apiPoll`. -/
theorem exists_pollTime (procs : Procs V S) (poller : Poller)
    (h : m.el.timeEventHead = none ∨ m.timers ≠ []) :
    ∃ bound,pollTime procs poller 3 (⟨m,[],none,none,0⟩ : Loop V S) = some bound := by
  have htv : (timeout procs 3 (⟨m,[],none,none,0⟩ : Loop V S)).2 ≠ none := by
    rw [ne_eq,timeout_eq_none_iff]
    rintro ⟨-,head,hhead,hnil⟩
    obtain ⟨r,hr⟩ := usUntilEarliestTimer_some procs h
    rw [(usUntilEarliestTimer_eq_none_iff procs m).mpr ⟨head,hhead,hnil⟩] at hr
    cases hr
  obtain ⟨tv,htv⟩ := Option.ne_none_iff_exists'.mp htv
  refine ⟨poller.bound tv,?_⟩
  rw [pollTime,if_pos ⟨by decide,by decide,.inr (by decide)⟩,htv]
  rfl

/-- The epoll backend takes a timeout of 0 for none at all. -/
theorem eq_kqueue_of_onTime {poller : Poller} {te : TimeEvent V} (hmem : te ∈ m.timers)
    (hlive : te.Live) (hzero : ∀ r,(usUntilEarliestTimer procs m).2 = some r → r.1 = 0)
    (h : OnTime procs poller 3 (⟨m,[],none,none,0⟩ : Loop V S)) : poller = .kqueue := by
  obtain ⟨bound,hbound⟩ := exists_pollTime procs poller (.inr (List.ne_nil_of_mem hmem))
  obtain ⟨t,ht,-⟩ := h bound hbound te hmem hlive
  rw [pollTime_zero rfl hzero hbound] at ht
  cases poller with
  | epoll => cases ht
  | kqueue => rfl

theorem DueNow.kqueue {poller : Poller} {now : ℤ} (h : DueNow poller now m) :
    DueNow .kqueue now m := by
  rcases h with h | h | ⟨hlive,hnow,hmax,-⟩
  · exact .inl h
  · exact .inr (.inl h)
  · exact .inr (.inr ⟨hlive,hnow,hmax,rfl⟩)

/-- `usUntilEarliestTimer` takes the latest timer, and its report is about the past: a pass
keeps its time only where there is nothing to wait for, or everything is due and the last timer
is so at this moment. -/
theorem pollsInTime_iff (procs : Procs V S) (poller : Poller) (m : Machine V S) :
    PollsInTime procs poller m ↔ DueNow poller (procs.clock m.reads) m := by
  constructor
  · rintro ⟨hreports,htime⟩
    rcases reports_iff.mp hreports with h | h | ⟨⟨te,hmem,hlive⟩,hnow,hmax,-⟩
    · exact .inl h
    · exact .inr (.inl h)
    · exact .inr (.inr ⟨⟨te,hmem,hlive⟩,hnow,hmax,
        eq_kqueue_of_onTime hmem hlive
          (fun r hr => by rw [report_zero hnow hmax hr]) (htime 3 _ rfl)⟩)
  · intro h
    refine ⟨reports_iff.mpr h.kqueue,?_⟩
    rintro flags p rfl bound hbound te hmem hlive
    rcases h with h | ⟨hdead,-⟩ | ⟨-,hnow,hmax,rfl⟩
    · rw [timers_of_none h] at hmem
      cases hmem
    · exact absurd hlive (hdead te hmem)
    · exact ⟨0,pollTime_zero rfl (fun r hr => by rw [report_zero hnow hmax hr]) hbound,
        le_max_left 0 _⟩

end Timeout

/-- A loop with one timer, due at 10, whose clock shows 5. -/
def oneTimer : Machine Unit Unit :=
  ⟨{ create 1 () with timeEventHead := some [0],timeEvents := [⟨0,10,(),(),(),0⟩] },0⟩

def atFive : Procs Unit Unit := ⟨fun _ p _ _ _ => some p,fun _ m _ _ => some (m,0,0),
  fun _ p => some p,fun _ => 5⟩

/-- The timer is not reported. -/
theorem not_pollsInTime_oneTimer : ¬PollsInTime atFive .kqueue oneTimer := by
  rintro ⟨⟨r,hr,hexp⟩,-⟩
  have hnone : (usUntilEarliestTimer atFive oneTimer).2 = some (0,false) := rfl
  rw [hnone] at hr
  cases hr
  exact hexp.none_iff.mp rfl ⟨0,10,(),(),(),0⟩ List.mem_cons_self
    (show (0 : ℤ) ≠ -1 by decide)

end Ae
end RecycleBin
