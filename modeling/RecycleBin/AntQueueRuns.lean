import RecycleBin.AntQueue

/-! Programs on any number of queues: `queue_new`, `queue_put`, `queue_get`, `queue_empty`
and `queue_join_init` in any order, against a list of FIFO lists. The program names
its queues by the order of their creation. -/
namespace RecycleBin
namespace AntQueue

variable {D : Type}

def INT_MAX : ℤ := 2^31-1

/-- `queue_empty` -/
def queueEmpty (qp : Option ℕ) (m : Mem D) : Except Fault Bool := do
  let (_,q) ← m.queue qp
  .ok (q.size == 0)

/-- `qp->size` -/
def queueSize (qp : Option ℕ) (m : Mem D) : Except Fault ℤ := do
  let (_,q) ← m.queue qp
  .ok q.size

/-- `size` is an `int`: a sum beyond its range is undefined. -/
def checkSize (qp : Option ℕ) (m : Mem D) : Except Fault (Mem D) := do
  let (_,q) ← m.queue qp
  if q.size ≤ INT_MAX then .ok m else .error .undefined

inductive QueueOp (D : Type)
  | new
  | put (i : ℕ) (d : D)
  | get (i : ℕ)
  | empty (i : ℕ)
  | join (i j : ℕ)
  | size (i : ℕ)

inductive QueueRes (D : Type)
  | unit
  | elem (d : Option D)
  | flag (b : Bool)
  | count (n : ℤ)
  deriving DecidableEq

/-- The heap and the program's queue pointers. -/
structure Program (D : Type) where
  mem : Mem D
  queues : List ℕ

def Program.start : Program D := ⟨Mem.empty,[]⟩

/-- One call. -/
def queueExec (op : QueueOp D) (s : Program D) : Except Fault (QueueRes D × Program D) :=
  match op with
  | .new => .ok (.unit,⟨(queueNew s.mem).2,s.queues++[(queueNew s.mem).1]⟩)
  | .put i d => do
    let m ← queuePut d s.queues[i]? s.mem
    let m ← checkSize s.queues[i]? m
    .ok (.unit,{ s with mem := m })
  | .get i => do
    let r ← queueGet s.queues[i]? s.mem
    .ok (.elem (some r.1),{ s with mem := r.2 })
  | .empty i => do
    let b ← queueEmpty s.queues[i]? s.mem
    .ok (.flag b,s)
  | .join i j => do
    let m ← queueJoinInit s.queues[i]? s.queues[j]? s.mem
    let m ← checkSize s.queues[i]? m
    .ok (.unit,{ s with mem := m })
  | .size i => do
    let n ← queueSize s.queues[i]? s.mem
    .ok (.count n,s)

/-! ### The FIFO lists -/

/-- The `i`-th list. -/
def fifo (q : List (List D)) (i : ℕ) : List D := (q[i]?).getD []

/-- Put appends, get takes the oldest element, join moves one list behind another. -/
def queueSpec (op : QueueOp D) (q : List (List D)) : QueueRes D × List (List D) :=
  match op with
  | .new => (.unit,q++[[]])
  | .put i d => (.unit,q.set i (fifo q i++[d]))
  | .get i => (.elem (fifo q i).head?,q.set i (fifo q i).tail)
  | .empty i => (.flag (fifo q i).isEmpty,q)
  | .join i j => (.unit,(q.set j []).set i (fifo q i++fifo q j))
  | .size i => (.count (fifo q i).length,q)

/-- The calls of the program: on its own queues, get on a non-empty one, join on two. -/
def Proper (op : QueueOp D) (q : List (List D)) : Prop :=
  match op with
  | .new => True
  | .put i _ | .empty i | .size i => i < q.length
  | .get i => fifo q i ≠ []
  | .join i j => i ≠ j ∧ i < q.length ∧ j < q.length

/-- No queue grows past what its `int` counts. -/
def Counted (op : QueueOp D) (q : List (List D)) : Prop :=
  match op with
  | .put i _ => ((fifo q i).length : ℤ)+1 ≤ INT_MAX
  | .join i j => ((fifo q i).length : ℤ)+(fifo q j).length ≤ INT_MAX
  | _ => True

/-! ### The representation -/

/-- Queue `i` of the program holds list `i`. -/
structure Holds (s : Program D) (q : List (List D)) (f : ℕ → Option (List (ℕ × D))) : Prop where
  reps : Reps s.mem f
  nodup : s.queues.Nodup
  length : s.queues.length = q.length
  item : ∀ i a : ℕ, s.queues[i]? = some a →
    ∃ l : List (ℕ × D), f a = some l ∧ q[i]? = some (l.map Prod.snd)

namespace Holds
variable {s : Program D} {q : List (List D)} {f : ℕ → Option (List (ℕ × D))}

theorem start : Holds (Program.start : Program D) [] fun _ => none where
  reps := Reps.empty
  nodup := List.nodup_nil
  length := rfl
  item := fun i a h => by simp [Program.start] at h

variable (H : Holds s q f)
include H

theorem pointer {i : ℕ} (hi : i < q.length) :
    ∃ a l, s.queues[i]? = some a ∧ f a = some l ∧ fifo q i = l.map Prod.snd := by
  have ha : i < s.queues.length := by rw [H.length]; exact hi
  obtain ⟨l,hl,hq⟩ := H.item i _ (List.getElem?_eq_getElem ha)
  exact ⟨_,l,List.getElem?_eq_getElem ha,hl,by rw [fifo,hq]; rfl⟩

/-- Different names, different pointers. -/
theorem pointer_ne {i j a b : ℕ} (hij : i ≠ j) (ha : s.queues[i]? = some a)
    (hb : s.queues[j]? = some b) : a ≠ b := by
  rintro rfl
  obtain ⟨hi,-⟩ := List.getElem?_eq_some_iff.mp ha
  exact hij ((List.getElem?_inj hi H.nodup).mp (ha.trans hb.symm))

/-- One queue is written. -/
theorem write {i a : ℕ} {l : List (ℕ × D)} {m : Mem D} (ha : s.queues[i]? = some a)
    (hR : Reps m (Function.update f a (some l))) :
    Holds { s with mem := m } (q.set i (l.map Prod.snd)) (Function.update f a (some l)) where
  reps := hR
  nodup := H.nodup
  length := by rw [List.length_set]; exact H.length
  item := by
    intro j b hb
    by_cases hij : i = j
    · subst hij
      cases ha.symm.trans hb
      have hi : i < q.length := by
        rw [← H.length]
        exact (List.getElem?_eq_some_iff.mp ha).1
      exact ⟨l,Function.update_self a _ f,List.getElem?_set_self hi⟩
    · obtain ⟨l',hl',hq⟩ := H.item j b hb
      have hab := H.pointer_ne hij ha hb
      exact ⟨l',by rw [Function.update_of_ne hab.symm,hl'],by rw [List.getElem?_set_ne hij,hq]⟩

/-- The head of a queue counts its list. -/
theorem head_eq {i : ℕ} (hi : i < q.length) :
    ∃ a, ∃ h : Head, s.mem.queue s.queues[i]? = .ok (a,h) ∧ h.size = (fifo q i).length := by
  obtain ⟨a,l,ha,hl,hq⟩ := H.pointer hi
  obtain ⟨h,-,hqueue,hh⟩ := H.reps.queue_eq hl
  exact ⟨a,h,by rw [ha,hqueue],by rw [hq,List.length_map,hh.size]⟩

theorem checkSize_eq {i : ℕ} (hi : i < q.length) (hle : ((fifo q i).length : ℤ) ≤ INT_MAX) :
    checkSize s.queues[i]? s.mem = .ok s.mem := by
  obtain ⟨a,h,hqueue,hsize⟩ := H.head_eq hi
  rw [← hsize] at hle
  simp [checkSize,hqueue,hle]

theorem checkSize_overflow {i : ℕ} (hi : i < q.length)
    (hlt : INT_MAX < ((fifo q i).length : ℤ)) :
    checkSize s.queues[i]? s.mem = .error .undefined := by
  obtain ⟨a,h,hqueue,hsize⟩ := H.head_eq hi
  rw [← hsize] at hlt
  simp [checkSize,hqueue,not_le.mpr hlt]

/-! ### One call -/

theorem new : ∃ f', Holds ⟨(queueNew s.mem).2,s.queues++[(queueNew s.mem).1]⟩ (q++[[]]) f' := by
  refine ⟨Function.update f s.mem.fresh (some []),H.reps.queueNew,?_,?_,?_⟩
  · -- the new address is above those in use
    have hfresh : s.mem.fresh ∉ s.queues := by
      intro hmem
      obtain ⟨i,hi⟩ := List.mem_iff_getElem?.mp hmem
      obtain ⟨l,hl,-⟩ := H.item i _ hi
      exact (H.reps.live _ l hl).1.false
    rw [← List.concat_eq_append]
    exact H.nodup.concat hfresh
  · simp [H.length]
  · intro i a hi
    rcases lt_trichotomy i s.queues.length with hlt | heq | hgt
    · rw [List.getElem?_append_left hlt] at hi
      obtain ⟨l,hl,hq⟩ := H.item i a hi
      have hne : a ≠ s.mem.fresh := (H.reps.live a l hl).1.ne
      refine ⟨l,by rw [Function.update_of_ne hne,hl],?_⟩
      rw [List.getElem?_append_left (H.length ▸ hlt),hq]
    · subst heq
      rw [List.getElem?_concat_length] at hi
      cases hi
      refine ⟨[],Function.update_self _ _ _,?_⟩
      rw [H.length,List.getElem?_concat_length]
      rfl
    · rw [List.getElem?_eq_none (by simp; omega)] at hi
      cases hi

/-- `queue_put` appends; what its count says of the range is checked afterwards. -/
theorem put {i : ℕ} (hi : i < q.length) (d : D) :
    ∃ m f', AntQueue.queuePut d s.queues[i]? s.mem = .ok m ∧
      Holds { s with mem := m } (q.set i (fifo q i++[d])) f' := by
  obtain ⟨a,l,ha,hl,hq⟩ := H.pointer hi
  obtain ⟨m,hput,-,hR⟩ := H.reps.queuePut hl d
  have hw := H.write ha hR
  rw [List.map_append,← hq] at hw
  exact ⟨m,_,by rw [ha,hput],hw⟩

theorem get {i : ℕ} (hne : fifo q i ≠ []) :
    ∃ m f', ∃ d, (fifo q i).head? = some d ∧
      AntQueue.queueGet s.queues[i]? s.mem = .ok (d,m) ∧
      Holds { s with mem := m } (q.set i (fifo q i).tail) f' := by
  have hi : i < q.length := by
    by_contra hge
    rw [fifo,List.getElem?_eq_none (not_lt.mp hge)] at hne
    exact hne rfl
  obtain ⟨a,l,ha,hl,hq⟩ := H.pointer hi
  rcases l with _ | ⟨⟨x,d⟩,l⟩
  · rw [hq] at hne
    exact absurd rfl hne
  · obtain ⟨m,hget,hR⟩ := H.reps.queueGet hl
    have hw := H.write ha hR
    exact ⟨m,_,d,by rw [hq]; rfl,by rw [ha,hget],by rw [hq]; exact hw⟩

theorem join {i j : ℕ} (hij : i ≠ j) (hi : i < q.length) (hj : j < q.length) :
    ∃ m f', AntQueue.queueJoinInit s.queues[i]? s.queues[j]? s.mem = .ok m ∧
      Holds { s with mem := m } ((q.set j []).set i (fifo q i++fifo q j)) f' := by
  obtain ⟨a,l₁,ha,hl₁,hq₁⟩ := H.pointer hi
  obtain ⟨b,l₂,hb,hl₂,hq₂⟩ := H.pointer hj
  have hab := H.pointer_ne hij ha hb
  obtain ⟨m,hjoin,-,hR⟩ := H.reps.queueJoinInit hl₁ hl₂ hab
  refine ⟨m,Function.update (Function.update f b (some [])) a (some (l₁++l₂)),
    by rw [ha,hb,hjoin],hR,H.nodup,by simp [H.length],?_⟩
  intro k c hc
  by_cases hik : i = k
  · subst hik
    cases ha.symm.trans hc
    refine ⟨l₁++l₂,Function.update_self _ _ _,?_⟩
    rw [List.getElem?_set_self (by simpa using hi),hq₁,hq₂,List.map_append]
  · have hac := H.pointer_ne hik ha hc
    rw [List.getElem?_set_ne hik,Function.update_of_ne hac.symm]
    by_cases hjk : j = k
    · subst hjk
      cases hb.symm.trans hc
      exact ⟨[],Function.update_self _ _ _,List.getElem?_set_self hj⟩
    · obtain ⟨l,hl,hq⟩ := H.item k c hc
      have hbc := H.pointer_ne hjk hb hc
      exact ⟨l,by rw [Function.update_of_ne hbc.symm,hl],by rw [List.getElem?_set_ne hjk,hq]⟩

end Holds

@[simp] theorem fifo_set_self {q : List (List D)} {i : ℕ} (hi : i < q.length) (l : List D) :
    fifo (q.set i l) i = l := by
  rw [fifo,List.getElem?_set_self hi,Option.getD_some]

/-- A put on a queue that holds `INT_MAX` elements is undefined. -/
theorem put_overflow {s : Program D} {q : List (List D)} {f : ℕ → Option (List (ℕ × D))}
    (H : Holds s q f) {i : ℕ} (hi : i < q.length) (hfull : INT_MAX ≤ (fifo q i).length) (d : D) :
    queueExec (.put i d) s = .error .undefined := by
  obtain ⟨m,f',hput,H'⟩ := H.put hi d
  have hover := H'.checkSize_overflow (i := i) (by simpa using hi) (by
    rw [fifo_set_self hi,List.length_append,List.length_singleton]
    push_cast
    omega)
  simp only [queueExec,hput,ok_bind,hover,error_bind]

/-- Every proper call that stays in the range of `int` does what the lists do. -/
theorem queue_refines : Refines (queueExec (D := D)) queueSpec
    (fun op q => Proper op q ∧ Counted op q) (fun s q => ∃ f, Holds s q f) := by
  rintro op s q ⟨f,H⟩ ⟨hproper,hcounted⟩
  cases op with
  | new => exact ⟨_,rfl,H.new⟩
  | put i d =>
    have hi : i < q.length := hproper
    obtain ⟨m,f',hput,H'⟩ := H.put hi d
    have hcheck := H'.checkSize_eq (i := i) (by simpa using hi) (by
      rw [fifo_set_self hi,List.length_append]
      exact_mod_cast hcounted)
    exact ⟨_,by simp only [queueExec,hput,ok_bind,hcheck]; rfl,f',H'⟩
  | get i =>
    obtain ⟨m,f',d,hd,hget,H'⟩ := H.get hproper
    refine ⟨{ s with mem := m },?_,f',H'⟩
    simp only [queueExec,hget,ok_bind,queueSpec,hd]
  | empty i =>
    obtain ⟨a,h,hqueue,hsize⟩ := H.head_eq hproper
    refine ⟨s,?_,f,H⟩
    have hflag : (h.size == 0) = (fifo q i).isEmpty := by
      rw [hsize]
      cases fifo q i with
      | nil => rfl
      | cons d l =>
        rw [beq_eq_false_iff_ne.mpr (by simp; omega)]
        rfl
    simp [queueExec,queueEmpty,hqueue,queueSpec,hflag]
  | join i j =>
    obtain ⟨hij,hi,hj⟩ := hproper
    obtain ⟨m,f',hjoin,H'⟩ := H.join hij hi hj
    have hlen : i < (q.set j []).length := by simpa using hi
    have hcheck := H'.checkSize_eq (i := i) (by simpa using hi) (by
      rw [fifo_set_self hlen,List.length_append]
      exact_mod_cast hcounted)
    exact ⟨_,by simp only [queueExec,hjoin,ok_bind,hcheck]; rfl,f',H'⟩
  | size i =>
    obtain ⟨a,h,hqueue,hsize⟩ := H.head_eq hproper
    refine ⟨s,?_,f,H⟩
    simp [queueExec,queueSize,hqueue,queueSpec,hsize]

/-! ### Whole programs -/

/-- Any number of queues, any order of calls: as long as no queue is to hold more than
`INT_MAX` elements, every queue is its FIFO list, and every size is exact at the end. -/
theorem queues_are_fifos (ops : List (QueueOp D))
    (h : LegalRun (fun op q => Proper op q ∧ Counted op q) queueSpec ops []) :
    ∃ s, runs queueExec ops Program.start = .ok ((replay queueSpec ops []).1,s) ∧
      s.queues.length = (replay queueSpec ops []).2.length ∧
      ∀ i < s.queues.length, queueSize s.queues[i]? s.mem =
        .ok (fifo (replay queueSpec ops []).2 i).length := by
  obtain ⟨s,hrun,f,H⟩ := queue_refines.runs ops Program.start [] ⟨_,Holds.start⟩ h
  refine ⟨s,hrun,H.length,?_⟩
  intro i hi
  obtain ⟨a,q,hqueue,hsize⟩ := H.head_eq (H.length ▸ hi)
  simp [queueSize,hqueue,hsize]

/-- The report of `bug.log`: an element is put, then the empty queue is joined; then back. -/
def bugLog : List (QueueOp ℕ) :=
  [.new,.new,.put 0 123,.join 0 1,.join 1 0,.put 0 7,.get 1,.empty 1,.put 1 8,.size 1]

theorem queues_are_fifos_bugLog :
    ∃ s, runs queueExec bugLog Program.start = .ok ((replay queueSpec bugLog []).1,s) ∧
      s.queues.length = (replay queueSpec bugLog []).2.length ∧
      ∀ i < s.queues.length, queueSize s.queues[i]? s.mem =
        .ok (fifo (replay queueSpec bugLog []).2 i).length :=
  queues_are_fifos bugLog (by simp [bugLog,LegalRun,Proper,Counted,queueSpec,fifo,INT_MAX])

/-- `n` elements put on the only queue. -/
def fill (n : ℕ) : List (QueueOp ℕ) :=
  List.replicate n (.put 0 0)

theorem replay_fill (n : ℕ) (l : List ℕ) :
    (replay queueSpec (fill n) [l]).2 = [l++List.replicate n 0] := by
  induction n generalizing l with
  | zero => simp [fill,replay]
  | succ n ih =>
    have hstep : (replay queueSpec (fill (n+1)) [l]).2 = (replay queueSpec (fill n) [l++[0]]).2 :=
      rfl
    rw [hstep,ih,List.append_assoc,List.singleton_append,List.replicate_succ]

theorem proper_fill (n : ℕ) (l : List ℕ) : LegalRun Proper queueSpec (fill n) [l] := by
  induction n generalizing l with
  | zero => trivial
  | succ n ih => exact ⟨Nat.zero_lt_one,ih (l++[0])⟩

theorem counted_fill (n : ℕ) (l : List ℕ) (h : (l.length : ℤ)+n ≤ INT_MAX) :
    LegalRun Counted queueSpec (fill n) [l] := by
  induction n generalizing l with
  | zero => trivial
  | succ n ih =>
    push_cast at h
    refine ⟨?_,ih (l++[0]) ?_⟩
    · change (l.length : ℤ)+1 ≤ INT_MAX
      omega
    · rw [List.length_append,List.length_singleton]
      push_cast
      omega

/-- One put more than `INT_MAX` on one queue: the size leaves its range. -/
theorem not_fifo_past_INT_MAX :
    ¬∀ ops : List (QueueOp ℕ), LegalRun Proper queueSpec ops [] →
      Agrees queueExec queueSpec ops Program.start [] := by
  intro h
  obtain ⟨n,hn⟩ : ∃ n : ℕ, (n : ℤ) = INT_MAX := ⟨2^31-1,by simp [INT_MAX]⟩
  have hfill : LegalRun (fun op q => Proper op q ∧ Counted op q) queueSpec (.new::fill n) [] :=
    ⟨⟨trivial,trivial⟩,(proper_fill n []).and (counted_fill n [] (by simp [hn]))⟩
  obtain ⟨s,hrun,f,H⟩ := queue_refines.runs (.new::fill n) Program.start [] ⟨_,Holds.start⟩ hfill
  have hq : (replay queueSpec (.new::fill n) []).2 = [List.replicate n 0] := replay_fill n []
  rw [hq] at H
  obtain ⟨s',hrun'⟩ := h ((.new::fill n)++[.put 0 0]) ((legalRun_append _ _ _).mpr
    ⟨⟨trivial,proper_fill n []⟩,by rw [hq]; exact Nat.zero_lt_one,trivial⟩)
  have hover := put_overflow H (i := 0) Nat.zero_lt_one (by simp [fifo,hn]) 0
  rw [runs_append,hrun,ok_bind,runs_cons,hover] at hrun'
  cases hrun'

end AntQueue
end RecycleBin
