import RecycleBin.ProcessStream

/-! The workers over the life of the pool. An idle worker exits by itself, but only forks are
counted: once the count is beyond the limit and all have exited none follows. -/
namespace RecycleBin
namespace ProcessPool

/-- No guard. -/
abbrev Any (_ : Act) (_ : State) : Prop := True

theorem next_executed (s : State) (a : ProcessArg) (ntry : ℕ) :
    (s.next a ntry).executed = s.executed := by
  unfold State.next
  split_ifs <;> rfl

theorem addnReturn_executed (s : State) (rv : ℤ) (caller : Caller) :
    (s.addnReturn rv caller).executed = s.executed := by
  cases caller with
  | new => rfl
  | user => rfl
  | add a ntry =>
    by_cases hrv : rv = PP_ERROR
    · rw [State.addnReturn,if_pos hrv]
      rfl
    · rw [State.addnReturn,if_neg hrv,next_executed]

theorem attempted_executed (s : State) (a : ProcessArg) (ntry : ℕ) (rv : Rv) :
    (s.attempted a ntry rv).executed = s.executed := by
  cases rv with
  | count n => exact next_executed s a ntry
  | error => rfl
  | timedout =>
    rw [State.attempted]
    split_ifs <;> rfl

/-- Only workers execute. -/
theorem exec_executed {s t : State} {a : Act} (hr : ∀ w io,a ≠ .read w io)
    (he : exec a s = some t) : t.executed = s.executed := by
  cases a with
  | read w io => exact absurd rfl (hr w io)
  | ppPoolAdd padding func arg =>
    rw [exec] at he
    split_ifs at he
    cases he
    rfl
  | ppPoolProcessAddn n =>
    rw [exec] at he
    split_ifs at he
    cases he
    rfl
  | write io =>
    simp only [exec,writeStep] at he
    split at he
    · obtain ⟨pass,_,rfl⟩ := Option.map_eq_some_iff.mp he
      cases pass with
      | loop k => rfl
      | ret k rv => exact attempted_executed _ _ _ rv
    · cases he
  | fork forked =>
    simp only [exec] at he
    split at he
    · cases he
      unfold State.ppPoolProcessAddn State.ppPoolProcessAddCore
      split_ifs
      · rfl
      · rfl
      · exact addnReturn_executed s _ _
      · exact addnReturn_executed s _ _
    · cases he

theorem readStep_length {s t : State} {w : ℕ} {io : Io} (h : readStep s w io = some t) :
    t.workers.length = s.workers.length := by
  unfold readStep at h
  split at h
  · split at h
    · split_ifs at h
      cases h
      exact List.length_set
    · split_ifs at h
      cases h
      exact List.length_set
    · cases h
      exact List.length_set
    · cases h
  · cases h

/-- A step counts the worker it adds, and adds none that it does not count. -/
theorem exec_workers_length {s t : State} {a : Act} (he : exec a s = some t) :
    t.pool.run_process-t.workers.length = s.pool.run_process-s.workers.length := by
  cases a with
  | read w io => rw [(readStep_frame he).1,readStep_length he]
  | ppPoolAdd padding func arg =>
    rw [exec] at he
    split_ifs at he
    cases he
    rfl
  | ppPoolProcessAddn n =>
    rw [exec] at he
    split_ifs at he
    cases he
    rfl
  | write io =>
    rw [writeStep_pool he]
    simp only [exec,writeStep] at he
    split at he
    · obtain ⟨pass,_,rfl⟩ := Option.map_eq_some_iff.mp he
      cases pass with
      | loop k => rfl
      | ret k rv => rw [(attempted_frame _ _ _ rv).2.1,State.send]
    · cases he
  | fork forked =>
    simp only [exec] at he
    split at he
    · cases he
      unfold State.ppPoolProcessAddn State.ppPoolProcessAddCore
      split_ifs
      · rfl
      · simp only [State.fork,List.length_append,List.length_singleton]
        push_cast
        omega
      · rw [State.addnReturn_pool,addnReturn_workers]
      · rw [State.addnReturn_pool,addnReturn_workers]
    · cases he

/-- Every worker has exited, and the count is beyond the limit. -/
structure Stopped (s : State) : Prop where
  exited : ∀ b ∈ s.workers,b = none
  full : s.pool.max_process < s.pool.run_process

theorem Stopped.step {s t : State} (h : Stopped s) {a : Act} (he : exec a s = some t) :
    Stopped t ∧ t.executed = s.executed := by
  have hread : ∀ w io,a ≠ .read w io := by
    rintro w io rfl
    rw [exec,readStep] at he
    split at he
    · rename_i buf hw
      cases h.exited _ (List.mem_of_getElem? hw)
    · cases he
  have hpool : t.pool = s.pool := by
    rcases exec_pool he with ⟨hf,-⟩ | ⟨-,hp⟩
    · exact absurd hf.2.2 (not_le.mpr h.full)
    · exact hp
  have hworkers : t.workers = s.workers := by
    have hlen := exec_workers_length he
    rw [hpool] at hlen
    rcases exec_workers hread he with hw | hw
    · exact hw
    · rw [hw,List.length_append,List.length_singleton] at hlen
      push_cast at hlen
      omega
  refine ⟨⟨?_,?_⟩,exec_executed hread he⟩
  · rw [hworkers]
    exact h.exited
  · rw [hpool]
    exact h.full

/-- In every run the pool counts the workers it has forked and never one that has exited, on
top of what `malloc` left in `run_process`; and once the count is beyond the limit and all
workers have exited, no call ever gets another record executed. -/
theorem stopped_forever {mem pool : Pool} {sys : Bool} {np n : ℤ} {ap : List Int32}
    (hnew : ppPoolNew mem sys np ap = some (pool,n)) {s : State}
    (hs : Reach (.start pool n) (Via Any exec) s) :
    s.pool.run_process = mem.run_process+s.workers.length ∧
      (mem.run_process ≤ np+1 → s.pool.run_process ≤ np+1) ∧
      (np < s.pool.run_process → (∀ b ∈ s.workers,b = none) →
        ∀ t,Reach s (Via Any exec) t → t.executed = s.executed) := by
  have hc := ppPoolNew_counts hnew
  have hcount : s.pool.run_process-s.workers.length = mem.run_process ∧
      s.pool.max_process = np := by
    apply hs.invariant (I := fun s : State =>
      s.pool.run_process-s.workers.length = mem.run_process ∧ s.pool.max_process = np)
    · simp [State.start,hc.1,hc.2.1]
    · rintro s t ⟨hrun,hmax⟩ ⟨a,-,ha⟩
      refine ⟨(exec_workers_length ha).trans hrun,?_⟩
      rcases exec_pool ha with ⟨-,hp⟩ | ⟨-,hp⟩
      · rw [hp]
        exact hmax
      · rw [hp,hmax]
  refine ⟨by omega,fun h0 => ?_,fun hfull hexit t ht => ?_⟩
  · have hle := run_process_le_succ (by rw [hc.1,hc.2.1]; exact h0) hs
    rwa [hcount.2] at hle
  · have hstop : Stopped s := ⟨hexit,by rw [hcount.2]; exact hfull⟩
    have hinv : Stopped t ∧ t.executed = s.executed := by
      apply ht.invariant (I := fun t => Stopped t ∧ t.executed = s.executed) ⟨hstop,rfl⟩
      rintro t u ⟨hst,het⟩ ⟨a,-,ha⟩
      obtain ⟨hsu,heu⟩ := hst.step ha
      exact ⟨hsu,heu.trans het⟩
    exact hinv.2

/-- `pp_pool_new(1)` and one more worker; both time out. -/
def bothExit : List Act :=
  growTwice++[.fork true,.read 0 (.again .timeout),.read 1 (.again .timeout)]

/-- Then `pp_pool_add` still returns 0. -/
theorem stopped_forever_one :
    ∃ s t,path Any exec bothExit (.start onePool 1) = some s ∧
      path Any exec [.ppPoolAdd 0 7 9,.write (.moved 24),.write (.moved 24)] s = some t ∧
      t.calls = [⟨⟨0,0,7,9⟩,0⟩] ∧ t.executed = [] := by
  obtain ⟨s,hs⟩ : ∃ s,path Any exec bothExit (.start onePool 1) = some s := ⟨_,rfl⟩
  have hreach : Reach (.start onePool 1) (Via Any exec) s := .of_path .start hs
  have hnew : ppPoolNew onePool true 1 [] = some (onePool,1) := by decide
  have hstop := (stopped_forever hnew hreach).2.2
  cases hs
  refine ⟨_,_,rfl,rfl,by decide,?_⟩
  exact hstop (by decide) (by decide) _
    (.of_path (l := [.ppPoolAdd 0 7 9,.write (.moved 24),.write (.moved 24)]) .start rfl)

end ProcessPool
end RecycleBin
