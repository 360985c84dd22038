import RecycleBin.Transition

/-! The benchmark report: the workers' `Report.Add` calls fill a channel, the goroutine of
`Report.Start` empties it until `Report.Wait` closes `quit`. A step is one channel
operation of one of them. -/
namespace RecycleBin
namespace ConnReport

/-- Where the goroutine of `Start` is: in its loop, at the send of its deferred function,
or gone. -/
inductive Collector
  | loop | leaving | gone
  deriving DecidableEq

/-- Where the caller of `Wait` is: before it, behind `close(r.quit)`, or returned. -/
inductive Waiter
  | before | waiting | returned
  deriving DecidableEq

/-- `Report`, without its byte counters, with those who use it. A worker is the times of
the `Add` calls it has still to make. -/
structure State (T : Type) where
  step : ℤ
  connNum : ℕ
  allResult : List T
  allTimes : List T
  quit : Bool
  workers : List (List T)
  collector : Collector
  waiter : Waiter
  /-- What `report` used, once it ran. -/
  reported : Option (ℕ × List T)
  deriving DecidableEq

/-- `step` as `NewReport` sets it. -/
def reportStep (n : ℤ) : ℤ :=
  if n > 150 then if n/10 < 100 then 100 else n/10 else 0

/-- The capacity of `allResult`. -/
def resultCap : ℕ := 1000

variable {T : Type}

/-- After `NewReport` and `Start`. -/
def newReport (n : ℤ) (workers : List (List T)) : State T where
  step := reportStep n
  connNum := 0
  allResult := []
  allTimes := []
  quit := false
  workers := workers
  collector := .loop
  waiter := .before
  reported := none

inductive Act
  | add (i : ℕ)
  | tick | take | quit
  | close
  | report
  deriving DecidableEq

/-- One operation, or none when it has to wait. -/
def exec (a : Act) (s : State T) : Option (State T) :=
  match a with
  | .add i =>
    match s.workers[i]? with
    | some (t::ts) =>
      if s.allResult.length < resultCap then
        some { s with allResult := s.allResult++[t],workers := s.workers.set i ts }
      else none
    | _ => none
  | .tick =>
    -- only the loop without `step` has a ticker; it prints
    if s.collector = .loop ∧ s.step = 0 then some s else none
  | .take =>
    match s.allResult with
    | t::rest =>
      if s.collector = .loop then
        some { s with
          allResult := rest
          connNum := s.connNum+1
          allTimes := s.allTimes++[t] }
      else none
    | [] => none
  | .quit =>
    -- `select` takes any case that is ready
    if s.collector = .loop ∧ s.quit then some { s with collector := .leaving } else none
  | .close =>
    -- `main` calls `Wait` when all workers are done
    if s.waiter = .before ∧ ∀ w ∈ s.workers, w = [] then
      some { s with quit := true,waiter := .waiting }
    else none
  | .report =>
    if s.collector = .leaving ∧ s.waiter = .waiting then
      some { s with
        collector := .gone
        waiter := .returned
        reported := some (s.connNum,s.allTimes) }
    else none

/-- The number of `Add` calls the workers make. -/
def adds (workers : List (List T)) : ℕ := (workers.map List.length).sum

/-- The report is about all `Add` calls. -/
def Complete (workers : List (List T)) (s : State T) : Prop :=
  ∀ connNum allTimes, s.reported = some (connNum,allTimes) →
    connNum = adds workers ∧ allTimes.length = adds workers

/-- The goroutine takes the closed `quit` only with no result waiting. -/
def drained (a : Act) (s : State T) : Prop := a = .quit → s.allResult = []

instance (a : Act) (s : State T) : Decidable (drained a s) :=
  inferInstanceAs (Decidable (a = .quit → s.allResult = []))

theorem adds_set {workers : List (List T)} {i : ℕ} {t : T} {ts : List T}
    (h : workers[i]? = some (t::ts)) : adds (workers.set i ts)+1 = adds workers := by
  induction workers generalizing i with
  | nil => simp at h
  | cons w workers ih =>
    cases i with
    | zero =>
      cases h
      simp [adds]
      omega
    | succ i =>
      have hrest := ih h
      simp only [adds,List.set_cons_succ,List.map_cons,List.sum_cons] at hrest ⊢
      omega

theorem adds_eq_zero {workers : List (List T)} (h : ∀ w ∈ workers, w = []) : adds workers = 0 := by
  induction workers with
  | nil => rfl
  | cons w workers ih =>
    rw [List.forall_mem_cons] at h
    have hrest := ih h.2
    simp only [adds,List.map_cons,List.sum_cons,h.1,List.length_nil] at hrest ⊢
    omega

/-- Every `Add` is counted, waiting in the channel, or still to come; what is reported was
counted when the goroutine left, and no `Add` is left by then. -/
structure Counted (total : ℕ) (s : State T) : Prop where
  sum : s.connNum+s.allResult.length+adds s.workers = total
  times : s.allTimes.length = s.connNum
  closed : s.quit → adds s.workers = 0
  left : s.collector ≠ .loop → s.quit
  reported : ∀ r, s.reported = some r → r = (s.connNum,s.allTimes) ∧ s.collector = .gone

theorem Counted.exec {total : ℕ} {a : Act} {s t : State T} (c : Counted total s)
    (h : exec a s = some t) : Counted total t := by
  obtain ⟨hsum,htimes,hclosed,hleft,hrep⟩ := c
  cases a with
  | add i =>
    rw [ConnReport.exec] at h
    split at h
    · rename_i x ts hw
      split_ifs at h
      cases h
      have hset := adds_set hw
      refine ⟨?_,htimes,fun hq => ?_,hleft,hrep⟩
      · simp only [List.length_append,List.length_singleton]
        omega
      · have := hclosed hq
        omega
    · cases h
  | tick =>
    rw [ConnReport.exec] at h
    split_ifs at h
    cases h
    exact ⟨hsum,htimes,hclosed,hleft,hrep⟩
  | take =>
    rw [ConnReport.exec] at h
    split at h
    · rename_i x rest hres
      split_ifs at h with hloop
      cases h
      refine ⟨?_,by simp [htimes],hclosed,hleft,fun r hr => ?_⟩
      · rw [hres,List.length_cons] at hsum
        dsimp only
        omega
      · have := (hrep r hr).2
        rw [hloop] at this
        cases this
    · cases h
  | quit =>
    rw [ConnReport.exec] at h
    split_ifs at h with hq
    cases h
    refine ⟨hsum,htimes,hclosed,fun _ => hq.2,fun r hr => ?_⟩
    have := (hrep r hr).2
    rw [hq.1] at this
    cases this
  | close =>
    rw [ConnReport.exec] at h
    split_ifs at h with hw
    cases h
    exact ⟨hsum,htimes,fun _ => adds_eq_zero hw.2,fun _ => rfl,hrep⟩
  | report =>
    rw [ConnReport.exec] at h
    split_ifs at h with hl
    cases h
    refine ⟨hsum,htimes,hclosed,fun _ => hleft (by rw [hl.1]; decide),fun r hr => ?_⟩
    cases hr
    exact ⟨rfl,rfl⟩

theorem counted_of_reach {n : ℤ} {workers : List (List T)} {guard : Act → State T → Prop}
    {s : State T} (h : Reach (newReport n workers) (Via guard exec) s) :
    Counted (adds workers) s := by
  refine h.invariant ?_ ?_
  · refine ⟨by simp [newReport],rfl,fun h => ?_,fun h => absurd rfl h,fun r h => ?_⟩
    · cases h
    · cases h
  · rintro s t c ⟨a,-,ha⟩
    exact c.exec ha

/-- A report is about all `Add` calls exactly if the goroutine left none in the channel. -/
theorem complete_iff {n : ℤ} {workers : List (List T)} {guard : Act → State T → Prop}
    {s : State T} (h : Reach (newReport n workers) (Via guard exec) s) {r : ℕ × List T}
    (hr : s.reported = some r) : Complete workers s ↔ s.allResult = [] := by
  obtain ⟨hsum,htimes,hclosed,hleft,hrep⟩ := counted_of_reach h
  obtain ⟨rfl,hgone⟩ := hrep r hr
  have hzero := hclosed (hleft (by rw [hgone]; decide))
  rw [← List.length_eq_zero_iff]
  constructor
  · intro hc
    have := hc _ _ hr
    omega
  · intro hres connNum allTimes hr'
    rw [hr] at hr'
    cases hr'
    constructor <;> omega

/-- Once the goroutine has left, the channel stays as it was then. -/
theorem exec_allResult {total : ℕ} {a : Act} {s t : State T} (c : Counted total s)
    (hd : s.collector ≠ .loop → s.allResult = []) (hg : drained a s) (h : exec a s = some t) :
    t.collector ≠ .loop → t.allResult = [] := by
  intro hleft
  cases a with
  | add i =>
    rw [exec] at h
    split at h
    · rename_i x ts hw
      split_ifs at h
      cases h
      have hset := adds_set hw
      have := c.closed (c.left hleft)
      omega
    · cases h
  | tick =>
    rw [exec] at h
    split_ifs at h
    cases h
    exact hd hleft
  | take =>
    rw [exec] at h
    split at h
    · split_ifs at h with hloop
      cases h
      exact absurd hloop hleft
    · cases h
  | quit =>
    rw [exec] at h
    split_ifs at h
    cases h
    exact hg rfl
  | close =>
    rw [exec] at h
    split_ifs at h
    cases h
    exact hd hleft
  | report =>
    rw [exec] at h
    split_ifs at h with hl
    cases h
    exact hd (by rw [hl.1]; decide)

/-- If the goroutine takes the closed `quit` only with an empty channel, every report is
about all `Add` calls. -/
theorem report_complete (n : ℤ) (workers : List (List T)) (s : State T)
    (h : Reach (newReport n workers) (Via drained exec) s) : Complete workers s := by
  have hinv : Counted (adds workers) s ∧ (s.collector ≠ .loop → s.allResult = []) := by
    refine h.invariant (I := fun s => Counted (adds workers) s ∧
      (s.collector ≠ .loop → s.allResult = [])) ?_ ?_
    · exact ⟨counted_of_reach (.start : Reach _ (Via drained exec) _),fun hc => absurd rfl hc⟩
    · rintro s t ⟨c,hd⟩ ⟨a,hg,ha⟩
      exact ⟨c.exec ha,exec_allResult c hd hg ha⟩
  intro connNum allTimes hr
  obtain ⟨-,hgone⟩ := hinv.1.reported _ hr
  exact (complete_iff h hr).mpr (hinv.2 (by rw [hgone]; decide)) connNum allTimes hr

/-- Two workers with three results, all of them taken before `quit`. -/
theorem report_complete_three : ∃ s : State ℕ,
    path drained exec [.add 0,.add 1,.take,.add 0,.tick,.take,.close,.take,.quit,.report]
      (newReport 3 [[7,9],[8]]) = some s ∧ s.reported = some (3,[7,8,9]) ∧
      Complete [[7,9],[8]] s := by
  refine ⟨_,rfl,rfl,?_⟩
  exact report_complete 3 [[7,9],[8]] _ (Reach.start.of_path
    (l := [.add 0,.add 1,.take,.add 0,.tick,.take,.close,.take,.quit,.report]) rfl)

/-- `select` takes the closed `quit` while the only result waits. -/
theorem result_left_behind : ∃ s : State ℕ,
    Reach (newReport 1 [[7]]) (Via (fun _ _ => True) exec) s ∧ ¬Complete [[7]] s := by
  refine ⟨_,Reach.start.of_path (l := [.add 0,.close,.quit,.report]) rfl,fun h => ?_⟩
  exact absurd (h 0 [] rfl).1 (by decide)

end ConnReport
end RecycleBin
