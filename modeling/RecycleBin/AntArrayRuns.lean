import RecycleBin.AntArray

/-! Runs of the growing table: what its slots hold after each call, and the counter of the
slots that are not zero. -/
namespace RecycleBin
namespace AntArray

variable {α : Type} [Zero α] [DecidableEq α]

inductive Op (α : Type)
  | put (i : ℕ) (elem : α)
  | get (i : ℕ)
  | clear (i : ℕ)
  deriving DecidableEq

/-- One call: the element behind the pointer it returns, and the table. -/
def exec : Op α → Table α → Except Fault (α × Table α)
  | .put i elem, a => do
    let t ← antArrayPut a i elem
    .ok (elem,t)
  | .get i, a => do
    let elem ← antArrayGet a i
    .ok (elem,a)
  | .clear i, a => do
    let t ← antArrayClear a i
    .ok (0,t)

/-- The slots whose bytes are not all zero. -/
def occupied (a : Table α) : ℕ := a.array.countP (· ≠ 0)

/-- What a call does to the slots. -/
def Keeps : Op α → Table α → α → Table α → Prop
  | .put i elem, a, _, t => i < t.array.length ∧ antArrayGet t i = .ok elem ∧
      ∀ j,j ≠ i → t.array[j]? = if j < a.array.length then a.array[j]?
        else if j < t.array.length then some 0 else none
  | .get i, a, elem, t => a.array[i]? = some elem ∧ t = a
  | .clear i, a, _, t => t.array[i]? = some 0 ∧ ∀ j,j ≠ i → t.array[j]? = a.array[j]?

/-- Every call of the run returns and does what it should, and in every state the counter is
right. -/
def Right : List (Op α) → Table α → Prop
  | [], a => a.ncurr = occupied a
  | op::ops, a => a.ncurr = occupied a ∧ ∃ elem t,exec op a = .ok (elem,t) ∧ Keeps op a elem t ∧
      Right ops t

/-- An element that is not zero, at an index that is not a multiple of the length from twice it
on and does not need a length beyond `int`; or a slot of the table, to be cleared only where it
is not zero. -/
def Admits : Op α → Table α → Prop
  | .put i elem, a => elem ≠ 0 ∧ ¬(a.array.length ∣ i ∧ 2*a.array.length ≤ i) ∧
      grown a.array.length i < 2^31
  | .get i, a => i < a.array.length
  | .clear i, a => ∃ elem,a.array[i]? = some elem ∧ elem ≠ 0

/-- Every call of the run is admitted in the state it meets. -/
def Admitted : List (Op α) → Table α → Prop
  | [], _ => True
  | op::ops, a => Admits op a ∧ ∀ elem t,exec op a = .ok (elem,t) → Admitted ops t

section Step
variable {a t : Table α} {i : ℕ} {e : α}

/-- The counter of the slots when one of them is written. -/
theorem countP_set_slot {l : List α} (hi : i < l.length) (e : α) :
    ((l.set i e).countP (· ≠ 0) : ℤ) =
      l.countP (· ≠ 0)-(if l[i] = 0 then 0 else 1)+(if e = 0 then 0 else 1) := by
  have hle := List.boole_getElem_le_countP (p := fun x : α => decide (x ≠ 0)) hi
  rw [List.countP_set hi]
  simp only [ne_eq,decide_not,Bool.not_eq_true',decide_eq_false_iff_not,ite_not] at hle ⊢
  generalize l.countP _ = c at hle ⊢
  split_ifs at hle ⊢ <;> omega

omit [Zero α] [DecidableEq α] in
theorem fits_iff (hpos : 0 < a.array.length) : Fits a.array.length i ↔
    ¬(a.array.length ∣ i ∧ 2*a.array.length ≤ i) ∧ grown a.array.length i < 2^31 := by
  rw [Fits,lt_grown_iff hpos]

/-- A put that covers its index counts the slot if it was zero. -/
theorem antArrayPut_ncurr (hf : Fits a.array.length i) (hn : a.ncurr = occupied a)
    (h : antArrayPut a i e = .ok t) : t.ncurr = occupied t ↔ e ≠ 0 := by
  have hle := length_le_grown a.array.length i
  have hlen : (a.array++List.replicate (grown a.array.length i-a.array.length) 0).length =
      grown a.array.length i := by
    rw [List.length_append,List.length_replicate]
    omega
  have hi := hf.1
  rw [← hlen] at hi
  have hzeros : (a.array++List.replicate (grown a.array.length i-a.array.length) 0).countP
      (fun x : α => decide (x ≠ 0)) = occupied a := by
    rw [List.countP_append,List.countP_replicate]
    simp [occupied]
  have hset := countP_set_slot hi e
  rw [antArrayPut,if_neg (not_le.mpr hf.2),if_pos hf.1] at h
  cases h
  rw [hzeros] at hset
  simp only [occupied] at hset ⊢
  rw [hset,hn,List.getElem?_eq_getElem hi]
  simp only [Option.some.injEq,occupied]
  by_cases he : e = 0
  · refine iff_of_false ?_ (not_not_intro he)
    rw [if_pos he]
    split_ifs <;> omega
  · refine iff_of_true ?_ he
    rw [if_neg he]
    split_ifs <;> omega

/-- A put does what it should exactly when it is admitted. -/
theorem put_iff (hpos : 0 < a.array.length) (hn : a.ncurr = occupied a) :
    (∃ elem t,exec (.put i e) a = .ok (elem,t) ∧ Keeps (.put i e) a elem t ∧ t.ncurr = occupied t) ↔
      Admits (.put i e) a := by
  by_cases hf : Fits a.array.length i
  · have hadmits : Admits (.put i e) a ↔ e ≠ 0 := and_iff_left ((fits_iff hpos).mp hf)
    obtain ⟨ncurr,hput⟩ := antArrayPut_eq (a := a) (e := e) hf
    have hslots := getElem?_antArrayPut hput
    have hself := hslots i
    rw [if_pos rfl] at hself
    rw [hadmits,← antArrayPut_ncurr hf hn hput]
    constructor
    · rintro ⟨elem,t,ht,-,hcount⟩
      rw [exec,hput] at ht
      cases ht
      exact hcount
    · intro hcount
      refine ⟨e,_,by rw [exec,hput]; rfl,⟨?_,?_,?_⟩,hcount⟩
      · exact (List.getElem?_eq_some_iff.mp hself).1
      · rw [antArrayGet,hself]
      · intro j hj
        rw [hslots j,if_neg hj]
  · refine iff_of_false ?_ fun h => hf ((fits_iff hpos).mpr h.2)
    rintro ⟨elem,t,ht,-⟩
    rw [exec,antArrayPut_undefined hf] at ht
    cases ht

/-- A get changes nothing, and its assertion wants a slot. -/
theorem get_iff (hn : a.ncurr = occupied a) :
    (∃ elem t,exec (.get i) a = .ok (elem,t) ∧ Keeps (.get i) a elem t ∧ t.ncurr = occupied t) ↔
      Admits (.get i) a := by
  rw [exec,antArrayGet,Admits]
  cases hslot : a.array[i]? with
  | none =>
    refine iff_of_false (by rintro ⟨elem,t,ht,-⟩; cases ht) ?_
    exact not_lt.mpr (List.getElem?_eq_none_iff.mp hslot)
  | some x =>
    refine iff_of_true ⟨x,a,rfl,⟨hslot,rfl⟩,hn⟩ ?_
    exact (List.getElem?_eq_some_iff.mp hslot).1

/-- A clear does what it should exactly when the slot is not zero. -/
theorem clear_iff (hn : a.ncurr = occupied a) :
    (∃ elem t,exec (.clear i) a = .ok (elem,t) ∧ Keeps (.clear i) a elem t ∧ t.ncurr = occupied t) ↔
      Admits (.clear i) a := by
  by_cases hi : i < a.array.length
  · have hclear : antArrayClear a i = .ok ⟨a.array.set i 0,a.ncurr-1⟩ := if_pos hi
    have hslots := getElem?_antArrayClear hclear
    have hset := countP_set_slot hi (0 : α)
    have hadmits : Admits (.clear i) a ↔ a.array[i] ≠ 0 := by
      rw [Admits,List.getElem?_eq_getElem hi]
      exact ⟨fun ⟨_,h,hne⟩ => Option.some.inj h ▸ hne,fun h => ⟨_,rfl,h⟩⟩
    have hcount : a.ncurr-1 = occupied ⟨a.array.set i 0,a.ncurr-1⟩ ↔ a.array[i] ≠ 0 := by
      simp only [occupied] at hset ⊢
      rw [hset,hn,occupied]
      by_cases hslot : a.array[i] = 0 <;> simp [hslot]
    rw [hadmits,← hcount]
    constructor
    · rintro ⟨elem,t,ht,-,ht'⟩
      rw [exec,hclear] at ht
      cases ht
      exact ht'
    · intro h
      refine ⟨0,_,by rw [exec,hclear]; rfl,⟨?_,?_⟩,h⟩
      · rw [hslots i,if_pos rfl]
      · intro j hj
        rw [hslots j,if_neg hj]
  · refine iff_of_false ?_ ?_
    · rintro ⟨elem,t,ht,-⟩
      rw [exec,antArrayClear,if_neg hi] at ht
      cases ht
    · rintro ⟨elem,h,-⟩
      exact hi (List.getElem?_eq_some_iff.mp h).1

theorem step_iff (hpos : 0 < a.array.length) (hn : a.ncurr = occupied a) (op : Op α) :
    (∃ elem t,exec op a = .ok (elem,t) ∧ Keeps op a elem t ∧ t.ncurr = occupied t) ↔
      Admits op a := by
  cases op with
  | put i e => exact put_iff hpos hn
  | get i => exact get_iff hn
  | clear i => exact clear_iff hn

omit [DecidableEq α] in
/-- The table stays one with slots. -/
theorem Keeps.length_pos {op : Op α} (h : Keeps op a e t) (hpos : 0 < a.array.length) :
    0 < t.array.length := by
  cases op with
  | put i e => exact Nat.zero_lt_of_lt h.1
  | get i =>
    rw [h.2]
    exact hpos
  | clear i => exact Nat.zero_lt_of_lt (List.getElem?_eq_some_iff.mp h.1).1

end Step

theorem Right.ncurr {ops : List (Op α)} {a : Table α} (h : Right ops a) : a.ncurr = occupied a := by
  cases ops with
  | nil => exact h
  | cons op ops => exact h.1

theorem right_iff_admitted (ops : List (Op α)) {a : Table α} (hpos : 0 < a.array.length)
    (hn : a.ncurr = occupied a) : Right ops a ↔ Admitted ops a := by
  induction ops generalizing a with
  | nil => exact iff_of_true hn trivial
  | cons op ops ih =>
    constructor
    · rintro ⟨-,elem,t,ht,hkeeps,hright⟩
      refine ⟨(step_iff hpos hn op).mp ⟨elem,t,ht,hkeeps,hright.ncurr⟩,?_⟩
      intro elem' t' ht'
      cases ht.symm.trans ht'
      exact (ih (hkeeps.length_pos hpos) hright.ncurr).mp hright
    · rintro ⟨hadmits,hrest⟩
      obtain ⟨elem,t,ht,hkeeps,hcount⟩ := (step_iff hpos hn op).mpr hadmits
      exact ⟨hn,elem,t,ht,hkeeps,(ih (hkeeps.length_pos hpos) hcount).mpr (hrest elem t ht)⟩

/-- A run on a new table of some length is right exactly when every call of it is admitted. -/
theorem antArrayNew_right_iff (n : ℕ) (ops : List (Op α)) :
    Right ops (antArrayNew (n+1) : Table α) ↔ Admitted ops (antArrayNew (n+1)) := by
  apply right_iff_admitted
  · rw [antArrayNew,List.length_replicate]
    exact Nat.succ_pos n
  · rw [occupied,antArrayNew,List.countP_replicate]
    simp

/-- In a table of 50 slots an element is put at index 100. -/
theorem not_right_hundred : ¬Right [.put 100 1] (antArrayNew 50 : Table ℕ) := by
  rintro ⟨-,elem,t,ht,-⟩
  have hfits : ¬Fits (antArrayNew 50 : Table ℕ).array.length 100 := by decide
  rw [exec,antArrayPut_undefined hfits] at ht
  cases ht

end AntArray
end RecycleBin
