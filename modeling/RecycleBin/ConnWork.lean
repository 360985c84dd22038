import RecycleBin.Transition

/-! How `conn.go` hands out requests: `Producer` fills a channel, with a rate a limiter
goroutine issues its own tokens into a second channel, and the workers call `OnceClient`
for every token they get. No duration is set. A step is one channel operation. -/
namespace RecycleBin
namespace ConnWork

/-- A channel of empty structs: how many it holds and whether it is closed. -/
structure Chan where
  len : ℕ
  closed : Bool
  deriving DecidableEq

/-- `make(chan struct{}, 1000)`. -/
def chanCap : ℕ := 1000

def makeChan : Chan := ⟨0,false⟩

/-- Where the limiter is: at its `select`, at the send to `work`, at the deferred close of
`work`, or gone. -/
inductive LimiterPc
  | select | send | closing | gone
  deriving DecidableEq

structure Limiter where
  pc : LimiterPc
  count : ℕ
  work : Chan
  deriving DecidableEq

/-- A worker waits for a token, is in `OnceClient`, or has finished. -/
inductive Worker
  | ranging | calling | finished
  deriving DecidableEq

/-- `toSend` is what `Producer` has still to send into `c.work`. `calls` counts the calls
of `OnceClient`. -/
structure State where
  toSend : ℕ
  oldwork : Chan
  limiter : Option Limiter
  workers : List Worker
  calls : ℕ
  deriving DecidableEq

/-- `interval` of `main` in nanoseconds. -/
def interval (rate : ℤ) : ℤ := if rate > 0 then 1000000000/rate else 0

def limiterStart : Limiter where
  pc := .select
  count := 0
  work := makeChan

/-- `main` with its goroutines started. -/
def mainStart (n C : ℕ) (rate : ℤ) : State where
  toSend := n
  oldwork := makeChan
  limiter := if interval rate > 0 then some limiterStart else none
  workers := .replicate C .ranging
  calls := 0

/-- The channel the workers range over. -/
def State.work (s : State) : Chan := (s.limiter.map Limiter.work).getD s.oldwork

def State.setWork (s : State) (work : Chan) : State :=
  match s.limiter with
  | some l => { s with limiter := some { l with work := work } }
  | none => { s with oldwork := work }

inductive Act
  | produce | closeOld
  | limiter
  | receive (i : ℕ)
  | done (i : ℕ)
  | leave (i : ℕ)
  deriving DecidableEq

/-- One operation of the limiter, `n` being the number of requests. -/
def limiterStep (n : ℕ) (s : State) (l : Limiter) : Option State :=
  match l.pc with
  | .select =>
    if s.oldwork.len > 0 then
      some { s with
        oldwork := { s.oldwork with len := s.oldwork.len-1 }
        limiter := some { l with pc := .send } }
    else if s.oldwork.closed then some { s with limiter := some { l with pc := .closing } }
    else some { s with limiter := some { l with pc := .send } }
  | .send =>
    if l.work.len < chanCap then
      some { s with limiter := some {
        pc := if l.count+1 = n then .closing else .select
        count := l.count+1
        work := { l.work with len := l.work.len+1 } } }
    else none
  | .closing =>
    some { s with limiter := some { l with pc := .gone,work := { l.work with closed := true } } }
  | .gone => none

/-- One operation, or none when it has to wait. -/
def exec (n : ℕ) (a : Act) (s : State) : Option State :=
  match a with
  | .produce =>
    if s.toSend > 0 ∧ s.oldwork.len < chanCap then
      some { s with toSend := s.toSend-1,oldwork := { s.oldwork with len := s.oldwork.len+1 } }
    else none
  | .closeOld =>
    if s.toSend = 0 ∧ ¬s.oldwork.closed then
      some { s with oldwork := { s.oldwork with closed := true } }
    else none
  | .limiter => s.limiter.bind (limiterStep n s)
  | .receive i =>
    if s.workers[i]? = some .ranging ∧ s.work.len > 0 then
      some { s.setWork { s.work with len := s.work.len-1 } with
        workers := s.workers.set i .calling
        calls := s.calls+1 }
    else none
  | .done i =>
    -- whatever `OnceClient` returned, the worker goes back to its range
    if s.workers[i]? = some .calling then some { s with workers := s.workers.set i .ranging }
    else none
  | .leave i =>
    if s.workers[i]? = some .ranging ∧ s.work.len = 0 ∧ s.work.closed then
      some { s with workers := s.workers.set i .finished }
    else none

/-- The limiter takes no more from `c.work` than it issues, so that it cannot find it closed
before it has issued all `n`. -/
def Progress (n : ℕ) (s : State) (l : Limiter) : Prop :=
  match l.pc with
  | .select => l.count < n ∧ n ≤ s.toSend+s.oldwork.len+l.count
  | .send => l.count < n ∧ n ≤ s.toSend+s.oldwork.len+l.count+1
  | .closing => l.count = n
  | .gone => l.count = n

structure Issued (n : ℕ) (s : State) (l : Limiter) : Prop where
  sum : l.work.len+s.calls = l.count
  progress : Progress n s l
  closed : l.work.closed ↔ l.pc = .gone

/-- It depends on what is left for `c.work` and in it, and on the calls. -/
theorem Issued.of_eq {n : ℕ} {s t : State} {l : Limiter} (i : Issued n s l)
    (hleft : t.toSend+t.oldwork.len = s.toSend+s.oldwork.len) (hcalls : t.calls = s.calls) :
    Issued n t l where
  sum := by rw [hcalls,i.sum]
  progress := by
    have hprog := i.progress
    rw [Progress] at hprog ⊢
    rwa [hleft]
  closed := i.closed

structure Counted (n C : ℕ) (s : State) : Prop where
  old : s.oldwork.closed → s.toSend = 0
  direct : s.limiter = none → s.toSend+s.oldwork.len+s.calls = n
  issued : ∀ l, s.limiter = some l → Issued n s l
  finished : .finished ∈ s.workers → s.work.closed ∧ s.work.len = 0
  workers : s.workers.length = C

theorem counted_mainStart {n C : ℕ} (hn : 1 ≤ n) (rate : ℤ) :
    Counted n C (mainStart n C rate) where
  old h := by cases h
  direct _ := rfl
  issued l hl := by
    rw [mainStart] at hl
    split_ifs at hl
    cases hl
    exact ⟨rfl,⟨hn,Nat.le_add_right _ _⟩,by decide⟩
  finished h := by
    have := List.eq_of_mem_replicate h
    cases this
  workers := List.length_replicate

/-- What is left to show where the limiter has moved. -/
theorem Counted.of_limiter {n C : ℕ} {s : State} {l : Limiter} (hl : s.limiter = some l)
    (hold : s.oldwork.closed → s.toSend = 0) (i : Issued n s l)
    (hfin : .finished ∈ s.workers → l.work.closed ∧ l.work.len = 0) (hlen : s.workers.length = C) :
    Counted n C s where
  old := hold
  direct h := by
    rw [hl] at h
    cases h
  issued l' h := by
    rw [hl] at h
    cases h
    exact i
  finished h := by
    rw [State.work,hl]
    exact hfin h
  workers := hlen

theorem Counted.limiterStep {n C : ℕ} {s t : State} {l : Limiter} (c : Counted n C s)
    (hl : s.limiter = some l) (h : limiterStep n s l = some t) : Counted n C t := by
  obtain ⟨hsum,hprog,hclosed⟩ := c.issued l hl
  have hfin := c.finished
  rw [State.work,hl] at hfin
  change _ → l.work.closed ∧ l.work.len = 0 at hfin
  rw [ConnWork.limiterStep] at h
  rw [Progress] at hprog
  cases hpc : l.pc with
  | select =>
    simp only [hpc] at h hprog
    have hopen : ¬l.work.closed := fun h => by simp [hclosed.mp h] at hpc
    split_ifs at h with hlen hold
    · cases h
      refine .of_limiter rfl c.old ⟨hsum,?_,by simp [hopen]⟩ hfin c.workers
      simp only [Progress]
      omega
    · -- it has taken all `n` and issued as many
      have hsend := c.old hold
      omega
    · cases h
      refine .of_limiter rfl c.old ⟨hsum,?_,by simp [hopen]⟩ hfin c.workers
      simp only [Progress]
      omega
  | send =>
    simp only [hpc] at h hprog
    have hopen : ¬l.work.closed := fun h => by simp [hclosed.mp h] at hpc
    split_ifs at h with hcap hcount
    · cases h
      refine .of_limiter rfl c.old ⟨?_,hcount,by simp [hopen]⟩
        (fun h => (hopen (hfin h).1).elim) c.workers
      dsimp only
      omega
    · cases h
      refine .of_limiter rfl c.old ⟨?_,?_,by simp [hopen]⟩
        (fun h => (hopen (hfin h).1).elim) c.workers
      · dsimp only
        omega
      · simp only [Progress]
        omega
  | closing =>
    simp only [hpc] at h hprog
    cases h
    exact .of_limiter rfl c.old ⟨hsum,hprog,by simp⟩ (fun h => ⟨rfl,(hfin h).2⟩) c.workers
  | gone =>
    simp only [hpc] at h
    cases h

/-- A worker that takes a token takes it from the channel it ranges over and calls. -/
theorem Counted.receive {n C : ℕ} {s : State} (c : Counted n C s) (hlen : s.work.len > 0) (i : ℕ) :
    Counted n C { s.setWork { s.work with len := s.work.len-1 } with
      workers := s.workers.set i .calling
      calls := s.calls+1 } := by
  have hnot : Worker.finished ∉ s.workers.set i .calling := by
    intro hmem
    rcases List.mem_or_eq_of_mem_set hmem with hmem | hmem
    · have := (c.finished hmem).2
      omega
    · cases hmem
  cases hl : s.limiter with
  | none =>
    have hwork : s.work = s.oldwork := by simp [State.work,hl]
    have hset : ∀ w, s.setWork w = { s with oldwork := w } := fun w => by simp [State.setWork,hl]
    rw [hset,hwork]
    rw [hwork] at hlen
    have hdirect := c.direct hl
    refine ⟨c.old,fun _ => ?_,fun l h => ?_,fun h => absurd h hnot,?_⟩
    · dsimp only
      omega
    · rw [hl] at h
      cases h
    · simp [c.workers]
  | some l =>
    have hwork : s.work = l.work := by simp [State.work,hl]
    have hset : ∀ w, s.setWork w = { s with limiter := some { l with work := w } } :=
      fun w => by simp [State.setWork,hl]
    rw [hset,hwork]
    rw [hwork] at hlen
    obtain ⟨hsum,hprog,hclosed⟩ := c.issued l hl
    refine .of_limiter rfl c.old ⟨?_,hprog,hclosed⟩ (fun h => absurd h hnot) (by simp [c.workers])
    dsimp only
    omega

/-- A worker that moves without the channel. -/
theorem Counted.worker {n C : ℕ} {s : State} (c : Counted n C s) (i : ℕ) (w : Worker)
    (hw : w = .finished → s.work.closed ∧ s.work.len = 0) :
    Counted n C { s with workers := s.workers.set i w } where
  old := c.old
  direct := c.direct
  issued l hl := (c.issued l hl).of_eq rfl rfl
  finished h := by
    rcases List.mem_or_eq_of_mem_set h with hmem | hmem
    · exact c.finished hmem
    · exact hw hmem.symm
  workers := by simp [c.workers]

theorem Counted.exec {n C : ℕ} {a : Act} {s t : State} (c : Counted n C s)
    (h : exec n a s = some t) : Counted n C t := by
  cases a with
  | produce =>
    rw [ConnWork.exec] at h
    split_ifs at h with hp
    cases h
    have hleft : s.toSend-1+(s.oldwork.len+1) = s.toSend+s.oldwork.len := by omega
    have hopen : s.oldwork.closed → False := fun h => by
      have := c.old h
      omega
    refine ⟨fun h => (hopen h).elim,fun hl => ?_,fun l hl => (c.issued l hl).of_eq hleft rfl,
      fun hf => ?_,c.workers⟩
    · have := c.direct hl
      dsimp only
      omega
    · have hfin := c.finished hf
      rw [State.work] at hfin ⊢
      cases hl : s.limiter with
      | none => exact (hopen (by simpa [hl] using hfin.1)).elim
      | some l => simpa [hl] using hfin
  | closeOld =>
    rw [ConnWork.exec] at h
    split_ifs at h with hp
    cases h
    refine ⟨fun _ => hp.1,c.direct,fun l hl => (c.issued l hl).of_eq rfl rfl,fun hf => ?_,c.workers⟩
    have hfin := c.finished hf
    rw [State.work] at hfin ⊢
    cases hl : s.limiter with
    | none => exact ⟨rfl,by simpa [hl] using hfin.2⟩
    | some l => simpa [hl] using hfin
  | limiter =>
    obtain ⟨l,hl,h⟩ := Option.bind_eq_some_iff.mp h
    exact c.limiterStep hl h
  | receive i =>
    rw [ConnWork.exec] at h
    split_ifs at h with hw
    cases h
    exact c.receive hw.2 i
  | done i =>
    rw [ConnWork.exec] at h
    split_ifs at h
    cases h
    exact c.worker i .ranging fun h => by cases h
  | leave i =>
    rw [ConnWork.exec] at h
    split_ifs at h with hw
    cases h
    exact c.worker i .finished fun _ => ⟨hw.2.2,hw.2.1⟩

theorem counted_of_reach {n C : ℕ} (hn : 1 ≤ n) {rate : ℤ} {s : State}
    (h : Reach (mainStart n C rate) (Via (fun _ _ => True) (exec n)) s) : Counted n C s := by
  refine h.invariant (counted_mainStart hn rate) ?_
  rintro s t c ⟨a,-,ha⟩
  exact c.exec ha

/-- A system in which nobody can move has finished. -/
theorem finished_of_stuck {n C : ℕ} {s : State} (c : Counted n C s)
    (hstuck : ∀ a, exec n a s = none) : ∀ w ∈ s.workers, w = .finished := by
  intro w hw
  obtain ⟨i,hi⟩ := List.mem_iff_getElem?.mp hw
  cases w with
  | finished => rfl
  | calling =>
    have h := hstuck (.done i)
    simp [exec,hi] at h
  | ranging =>
    have hrecv := hstuck (.receive i)
    have hleave := hstuck (.leave i)
    simp only [exec,hi,true_and,ite_eq_right_iff,reduceCtorEq,imp_false] at hrecv hleave
    have hlen : s.work.len = 0 := by omega
    have hopen : ¬s.work.closed := fun h => hleave ⟨hlen,h⟩
    exfalso
    rw [State.work] at hlen hopen
    cases hl : s.limiter with
    | none =>
      -- the producer sends or closes
      rw [hl] at hlen hopen
      have hprod := hstuck .produce
      have hclose := hstuck .closeOld
      simp only [exec,ite_eq_right_iff,reduceCtorEq,imp_false] at hprod hclose
      have hold : s.oldwork.len = 0 := hlen
      have hcap : s.oldwork.len < chanCap := by simp [hold,chanCap]
      exact hclose ⟨by omega,hopen⟩
    | some l =>
      rw [hl] at hlen hopen
      have hwork : l.work.len = 0 := hlen
      have hcap : l.work.len < chanCap := by simp [hwork,chanCap]
      have hlim := hstuck .limiter
      rw [exec,hl,Option.bind_some,limiterStep] at hlim
      cases hpc : l.pc with
      | select =>
        simp only [hpc] at hlim
        split_ifs at hlim
      | send =>
        simp only [hpc,hcap] at hlim
        cases hlim
      | closing =>
        simp only [hpc] at hlim
        cases hlim
      | gone => exact hopen ((c.issued l hl).closed.mpr hpc)

def Worker.weight : Worker → ℕ
  | .ranging => 1
  | .calling => 2
  | .finished => 0

def LimiterPc.weight : LimiterPc → ℕ
  | .select => 2
  | .send => 1
  | .closing => 1
  | .gone => 0

/-- What every step lowers. -/
def State.weight (n : ℕ) (s : State) : ℕ :=
  s.toSend+(if s.oldwork.closed then 0 else 1)+
    ((s.limiter.map fun l => 2*(n-l.count)+l.pc.weight).getD 0)+
    2*(n-s.calls)+(s.workers.map Worker.weight).sum

theorem sum_weight_set {ws : List Worker} {i : ℕ} {w v : Worker} (h : ws[i]? = some w) :
    ((ws.set i v).map Worker.weight).sum+w.weight = (ws.map Worker.weight).sum+v.weight := by
  induction ws generalizing i with
  | nil => simp at h
  | cons x ws ih =>
    cases i with
    | zero =>
      cases h
      simp only [List.set_cons_zero,List.map_cons,List.sum_cons]
      omega
    | succ i =>
      have hrest := ih h
      simp only [List.set_cons_succ,List.map_cons,List.sum_cons]
      omega

theorem weight_limiterStep {n C : ℕ} {s t : State} {l : Limiter} (c : Counted n C s)
    (hl : s.limiter = some l) (h : limiterStep n s l = some t) : t.weight n < s.weight n := by
  have hprog := (c.issued l hl).progress
  rw [limiterStep] at h
  rw [Progress] at hprog
  rw [State.weight,State.weight,hl]
  cases hpc : l.pc with
  | select =>
    simp only [hpc] at h hprog
    split_ifs at h with hlen hold
    all_goals
      cases h
      simp only [Option.map_some,Option.getD_some,hpc,LimiterPc.weight]
      omega
  | send =>
    simp only [hpc] at h hprog
    split_ifs at h with hcap hcount
    all_goals
      cases h
      simp only [Option.map_some,Option.getD_some,hpc,LimiterPc.weight]
      omega
  | closing =>
    simp only [hpc] at h hprog
    cases h
    simp only [Option.map_some,Option.getD_some,hpc,LimiterPc.weight]
    omega
  | gone =>
    simp only [hpc] at h
    cases h

theorem calls_lt {n C : ℕ} {s : State} (c : Counted n C s) (hlen : s.work.len > 0) :
    s.calls < n := by
  rw [State.work] at hlen
  cases hl : s.limiter with
  | none =>
    rw [hl] at hlen
    have hdirect := c.direct hl
    have hold : s.oldwork.len > 0 := hlen
    omega
  | some l =>
    rw [hl] at hlen
    have hwork : l.work.len > 0 := hlen
    obtain ⟨hsum,hprog,-⟩ := c.issued l hl
    rw [Progress] at hprog
    cases hpc : l.pc <;> simp only [hpc] at hprog <;> omega

/-- Every step lowers the weight, so that no run goes on for ever. -/
theorem weight_exec {n C : ℕ} {a : Act} {s t : State} (c : Counted n C s)
    (h : exec n a s = some t) : t.weight n < s.weight n := by
  cases a with
  | produce =>
    rw [exec] at h
    split_ifs at h with hp
    cases h
    simp only [State.weight]
    omega
  | closeOld =>
    rw [exec] at h
    split_ifs at h with hp
    cases h
    simp only [State.weight,hp.2]
    simp
  | limiter =>
    obtain ⟨l,hl,h⟩ := Option.bind_eq_some_iff.mp h
    exact weight_limiterStep c hl h
  | receive i =>
    rw [exec] at h
    split_ifs at h with hw
    cases h
    have hcalls := calls_lt c hw.2
    have hsum := sum_weight_set (v := .calling) hw.1
    simp only [Worker.weight] at hsum
    cases hl : s.limiter with
    | none =>
      simp only [State.weight,State.setWork,State.work,hl,Option.map_none,Option.getD_none]
      omega
    | some l =>
      simp only [State.weight,State.setWork,State.work,hl,Option.map_some,Option.getD_some]
      omega
  | done i =>
    rw [exec] at h
    split_ifs at h with hw
    cases h
    have hsum := sum_weight_set (v := .ranging) hw
    simp only [State.weight]
    simp only [Worker.weight] at hsum
    omega
  | leave i =>
    rw [exec] at h
    split_ifs at h with hw
    cases h
    have hsum := sum_weight_set (v := .finished) hw.1
    simp only [State.weight]
    simp only [Worker.weight] at hsum
    omega

/-- From every state a run reaches, all workers can finish; as every step lowers the weight
and only a finished system is stuck, they do. -/
theorem exists_finished {n C : ℕ} (hn : 1 ≤ n) {rate : ℤ} {s : State}
    (h : Reach (mainStart n C rate) (Via (fun _ _ => True) (exec n)) s) :
    ∃ t, Reach (mainStart n C rate) (Via (fun _ _ => True) (exec n)) t ∧
      ∀ w ∈ t.workers, w = .finished := by
  induction hw : s.weight n using Nat.strong_induction_on generalizing s with
  | _ k ih =>
    by_cases hstuck : ∀ a, exec n a s = none
    · exact ⟨s,h,finished_of_stuck (counted_of_reach hn h) hstuck⟩
    · obtain ⟨a,ha⟩ := not_forall.mp hstuck
      obtain ⟨t,ht⟩ := Option.ne_none_iff_exists'.mp ha
      have hlt := weight_exec (counted_of_reach hn h) ht
      exact ih (t.weight n) (by omega) (h.next ⟨a,trivial,ht⟩) rfl

/-- With or without a rate, `OnceClient` has been called `n` times when all workers have
finished. -/
theorem calls_eq (n C : ℕ) (rate : ℤ) (hn : 1 ≤ n) (hC : 1 ≤ C) (s : State)
    (h : Reach (mainStart n C rate) (Via (fun _ _ => True) (exec n)) s)
    (hall : ∀ w ∈ s.workers, w = .finished) : s.calls = n := by
  have c := counted_of_reach hn h
  obtain ⟨w,ws,hw⟩ : ∃ w ws, s.workers = w::ws := by
    refine List.exists_cons_of_length_pos ?_
    rw [c.workers]
    exact hC
  have hmem : .finished ∈ s.workers := by
    rw [← hall w (by simp [hw]),hw]
    exact List.mem_cons_self
  obtain ⟨hclosed,hlen⟩ := c.finished hmem
  cases hl : s.limiter with
  | none =>
    simp only [State.work,hl,Option.map_none,Option.getD_none] at hclosed hlen
    have hdirect := c.direct hl
    have hsend := c.old hclosed
    omega
  | some l =>
    simp only [State.work,hl,Option.map_some,Option.getD_some] at hclosed hlen
    obtain ⟨hsum,hprog,hgone⟩ := c.issued l hl
    rw [Progress,hgone.mp hclosed] at hprog
    dsimp only at hprog
    omega

/-- Two requests and two workers with a limiter that once finds `c.work` empty. -/
theorem calls_eq_two : ∃ s, path (fun _ _ => True) (exec 2)
      [.limiter,.produce,.limiter,.receive 0,.limiter,.produce,.closeOld,.limiter,.limiter,
        .receive 1,.done 0,.leave 0,.done 1,.leave 1] (mainStart 2 2 500) = some s ∧
      s.calls = 2 := by
  refine ⟨_,rfl,?_⟩
  exact calls_eq 2 2 500 (by decide) (by decide) _ (Reach.start.of_path
    (l := [.limiter,.produce,.limiter,.receive 0,.limiter,.produce,.closeOld,.limiter,.limiter,
      .receive 1,.done 0,.leave 0,.done 1,.leave 1]) rfl) (by decide)

end ConnWork
end RecycleBin
