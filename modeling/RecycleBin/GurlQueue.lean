import RecycleBin.Refinement
import RecycleBin.Ring

/-! The bounded queue of the gurl calculator. `Head == Tail` means both full and
empty; the flag `Meet` tells the two apart. -/
namespace RecycleBin
namespace GurlQueue

variable {α : Type}

/-- `Queue` is the slice of slots, `default` the nil value of a fresh slot. -/
structure Queue (α : Type) where
  head : ℕ
  tail : ℕ
  meet : Bool
  queue : List α
  deriving DecidableEq

/-- The slice `make([]interface{}, size)` after a size below one is raised to one. -/
def queueNew [Inhabited α] (size : ℤ) : Queue α :=
  let size := if size ≤ 0 then 1 else size
  { head := 0,tail := 0,meet := false,queue := List.replicate size.toNat default }

/-- `Put`: the error, if any, and the queue afterwards. -/
def put (q : Queue α) (v : α) : Except Fault (Option String × Queue α) :=
  if q.head = q.tail ∧ q.meet = true then
    .ok (some "queue full",q)
  else if q.head < q.queue.length then
    let queue := q.queue.set q.head v
    let head := q.head+1
    let head := if head = queue.length then 0 else head
    .ok (none,{ q with head := head,meet := true,queue := queue })
  else .error .panic

/-- `Get`: the value, the error, and the queue afterwards. -/
def get [Inhabited α] (q : Queue α) : Except Fault ((α × Option String) × Queue α) :=
  if q.head = q.tail ∧ q.meet = false then
    .ok ((default,some "empty queue"),q)
  else
    match q.queue[q.tail]? with
    | none => .error .panic
    | some v =>
      let tail := q.tail+1
      let tail := if tail = q.queue.length then 0 else tail
      let meet := if q.head = tail then false else q.meet
      .ok ((v,none),{ q with tail := tail,meet := meet })

def cap (q : Queue α) : ℕ := q.queue.length

/-- A call on the queue. -/
inductive Op (α : Type)
  | put (v : α)
  | get
  deriving DecidableEq

/-- What the call returns: an error or nothing for `Put`, a value and an error for `Get`. -/
inductive Res (α : Type)
  | put (err : Option String)
  | get (v : α) (err : Option String)
  deriving DecidableEq

def Res.failed : Res α → Prop
  | .put err => err ≠ none
  | .get _ err => err ≠ none

def exec [Inhabited α] : Op α → Queue α → Except Fault (Res α × Queue α)
  | .put v, q => do
    let r ← put q v
    .ok (.put r.1,r.2)
  | .get, q => do
    let r ← get q
    .ok (.get r.1.1 r.1.2,r.2)

/-- A first-in first-out list that holds at most `capacity` elements. -/
def fifo [Inhabited α] (capacity : ℕ) : Op α → List α → Res α × List α
  | .put v, l => if l.length = capacity then (.put (some "queue full"),l) else (.put none,l++[v])
  | .get, [] => (.get default (some "empty queue"),[])
  | .get, v::l => (.get v none,l)

/-- The queue holds the list `l`: `Meet` is set exactly when it is not empty. -/
structure Rep (capacity : ℕ) (q : Queue α) (l : List α) : Prop where
  size : q.queue.length = capacity
  tail_lt : q.tail < capacity
  length_le : l.length ≤ capacity
  head_eq : q.head = (q.tail+l.length)%capacity
  meet_iff : q.meet = true ↔ l ≠ []
  holds : Ring.Holds q.queue q.tail l

theorem rep_queueNew [Inhabited α] (size : ℤ) :
    Rep (max size 1).toNat (queueNew size : Queue α) [] := by
  have hs : (if size ≤ 0 then 1 else size) = max size 1 := by
    split_ifs with h <;> omega
  constructor
  · simp [queueNew,hs]
  · change 0 < _
    omega
  · exact Nat.zero_le _
  · simp [queueNew]
  · simp [queueNew]
  · exact Ring.holds_nil _ _

/-- The full test of `Put` is exact. -/
theorem Rep.full_iff {n : ℕ} {q : Queue α} {l : List α} (h : Rep n q l) :
    (q.head = q.tail ∧ q.meet = true) ↔ l.length = n := by
  have hn : 0 < n := (Nat.zero_le _).trans_lt h.tail_lt
  rw [h.meet_iff,h.head_eq]
  constructor
  · rintro ⟨hc,hl⟩
    by_contra hne
    have hlt : l.length < n := lt_of_le_of_ne h.length_le hne
    have hz : l.length = 0 := by
      apply Ring.cell_inj (s:=q.tail) hlt hn
      rw [hc,Nat.add_zero,Nat.mod_eq_of_lt h.tail_lt]
    exact hl (List.length_eq_zero_iff.mp hz)
  · intro hl
    refine ⟨?_,?_⟩
    · rw [hl,Nat.add_mod_right,Nat.mod_eq_of_lt h.tail_lt]
    · intro he
      rw [he,List.length_nil] at hl
      omega

/-- The empty test of `Get` is exact. -/
theorem Rep.empty_iff {n : ℕ} {q : Queue α} {l : List α} (h : Rep n q l) :
    (q.head = q.tail ∧ q.meet = false) ↔ l = [] := by
  constructor
  · rintro ⟨-,hm⟩
    by_contra hl
    rw [h.meet_iff.mpr hl] at hm
    cases hm
  · rintro rfl
    refine ⟨?_,?_⟩
    · rw [h.head_eq,List.length_nil,Nat.add_zero,Nat.mod_eq_of_lt h.tail_lt]
    · simpa using h.meet_iff

/-- `Put` on a queue that is not full appends. -/
theorem Rep.put {n : ℕ} {q : Queue α} {l : List α} (h : Rep n q l) (v : α) (hl : l.length < n) :
    ∃ q', put q v = .ok (none,q') ∧ Rep n q' (l++[v]) := by
  have hfull : ¬(q.head = q.tail ∧ q.meet = true) := fun hf => by
    have := h.full_iff.mp hf
    omega
  have hhead : q.head < n := by
    rw [h.head_eq]
    exact Nat.mod_lt _ (by omega)
  have hcell : q.head = (q.tail+l.length)%q.queue.length := by rw [h.size,h.head_eq]
  refine ⟨_,by rw [GurlQueue.put,if_neg hfull,if_pos (by rw [h.size]; exact hhead)],?_⟩
  constructor
  · simpa using h.size
  · exact h.tail_lt
  · simp
    omega
  · simp only [List.length_set,h.size,Ring.wrap_succ hhead,List.length_append,List.length_singleton]
    rw [h.head_eq,Nat.mod_add_mod,Nat.add_assoc]
  · simp
  · have hp := h.holds.push (by rw [h.size]; exact hl) v
    rwa [← hcell] at hp

/-- `Get` on a queue that is not empty removes the oldest element. -/
theorem Rep.get [Inhabited α] {n : ℕ} {q : Queue α} {v : α} {l : List α} (h : Rep n q (v::l)) :
    ∃ q', get q = .ok ((v,none),q') ∧ Rep n q' l := by
  have hempty : ¬(q.head = q.tail ∧ q.meet = false) := fun he => by
    have := h.empty_iff.mp he
    cases this
  have hslot : q.queue[q.tail]? = some v := by
    have hh := h.holds.head
    rwa [h.size,Nat.mod_eq_of_lt h.tail_lt] at hh
  have hlen : l.length+1 ≤ n := h.length_le
  have hn : 0 < n := by omega
  have hhead : q.head = ((q.tail+1)%n+l.length)%n := by
    rw [h.head_eq,Nat.mod_add_mod,List.length_cons]
    congr 1
    omega
  have hmeet : q.meet = true := h.meet_iff.mpr (by simp)
  refine ⟨_,by rw [GurlQueue.get,if_neg hempty,hslot],?_⟩
  simp only [h.size,Ring.wrap_succ h.tail_lt]
  constructor
  · exact h.size
  · exact Nat.mod_lt _ hn
  · omega
  · exact hhead
  · -- After a get the indices meet exactly when the list has run empty.
    have hmeets : q.head = (q.tail+1)%n ↔ l = [] := by
      rw [hhead]
      constructor
      · intro hc
        have hz : l.length = 0 := by
          apply Ring.cell_inj (s:=(q.tail+1)%n) (by omega : l.length < n) hn
          rw [hc]
          simp
        exact List.length_eq_zero_iff.mp hz
      · rintro rfl
        simp
    by_cases hl : l = [] <;> simp [hmeets,hl,hmeet]
  · have ht := h.holds.tail
    change Ring.Holds q.queue ((q.tail+1)%n) l
    rwa [← h.size,Ring.holds_mod]

theorem refines_fifo [Inhabited α] (n : ℕ) :
    Refines (exec (α:=α)) (fifo n) (fun _ _ => True) (Rep n) := by
  intro op q l h _
  cases op with
  | put v =>
    by_cases hl : l.length = n
    · exact ⟨q,by simp [exec,put,h.full_iff.mpr hl,fifo,hl],by simpa [fifo,hl] using h⟩
    · obtain ⟨q',hq,hr⟩ := h.put v (lt_of_le_of_ne h.length_le hl)
      exact ⟨q',by simp [exec,hq,fifo,hl],by simpa [fifo,hl] using hr⟩
  | get =>
    cases l with
    | nil => exact ⟨q,by simp [exec,get,h.empty_iff.mpr rfl,fifo],h⟩
    | cons v l =>
      obtain ⟨q',hq,hr⟩ := h.get
      exact ⟨q',by simp [exec,hq,fifo],hr⟩

/-- A call that fails leaves every field of the queue as it was. -/
theorem exec_failed [Inhabited α] {op : Op α} {q q' : Queue α} {r : Res α}
    (h : exec op q = .ok (r,q')) (hr : r.failed) : q' = q := by
  cases op with
  | put v =>
    obtain ⟨⟨err,q₁⟩,h₁,h₂⟩ := bind_eq_ok.mp h
    cases h₂
    unfold put at h₁
    split_ifs at h₁ <;> cases h₁
    · rfl
    · exact absurd rfl hr
  | get =>
    obtain ⟨⟨⟨v,err⟩,q₁⟩,h₁,h₂⟩ := bind_eq_ok.mp h
    cases h₂
    unfold get at h₁
    split_ifs at h₁
    · cases h₁
      rfl
    · split at h₁ <;> cases h₁
      exact absurd rfl hr

/-- From `QueueNew(size)` on, every sequence of calls has the results of a list
bounded by `max(size,1)`, and a call that returns an error changes nothing. -/
theorem queue_is_bounded_fifo [Inhabited α] (size : ℤ) (ops : List (Op α)) :
    ∃ q, runs exec ops (queueNew size) = .ok ((replay (fifo (max size 1).toNat) ops []).1,q) ∧
      Rep (max size 1).toNat q (replay (fifo (max size 1).toNat) ops []).2 ∧
      ∀ op r q', exec op q = .ok (r,q') → r.failed → q' = q := by
  obtain ⟨q,hq,hrep⟩ :=
    (refines_fifo _).runs ops (queueNew size) [] (rep_queueNew size) (legalRun_true _ _)
  exact ⟨q,hq,hrep,fun op r q' h hr => exec_failed h hr⟩

end GurlQueue
end RecycleBin
