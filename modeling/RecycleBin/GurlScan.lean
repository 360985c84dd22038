import RecycleBin.GurlConf
import RecycleBin.Lockstep

/-! The loop of `ParseCore` ends: every pass moves the index on, or closes the word it is in.
A scan can so be read as one equation for each pass, with no number of passes in it. -/
namespace RecycleBin
namespace GurlConf
open GurlText Lockstep

variable {ω : Type}

theorem ofExcept_ok {α : Type} (a : α) : (ofExcept (.ok a) : M ω α) = pure a := rfl

theorem yields_panic {α : Type} (p : Panic) (P : α → Prop) : Yields (panic p : M ω α) P :=
  fun _ _ _ h => nomatch h

theorem yields_ofExcept {α : Type} (x : Except Panic α) :
    Yields (ofExcept x : M ω α) fun a => x = .ok a := by
  cases x with
  | ok a => exact Yields.pure rfl
  | error p => exact yields_panic p _

/-- What returns has a value at each point where it can panic. -/
theorem ofExcept_bind_ok {α β : Type} {x : Except Panic α} {f : α → M ω β} {st : Store ω}
    {r : β × Store ω} (h : (ofExcept x >>= f) st = .ok r) : ∃ a, x = .ok a ∧ f a st = .ok r := by
  cases x with
  | ok a => exact ⟨a,rfl,h⟩
  | error p => cases h

theorem except_bind_ok {α β : Type} {x : Except Panic α} {f : α → Except Panic β} {b : β}
    (h : (x >>= f) = .ok b) : ∃ a, x = .ok a ∧ f a = .ok b := by
  cases x with
  | error p => cases h
  | ok a => exact ⟨a,rfl,h⟩

/-! ### The arguments of a call -/

/-- Where a pass of `parseFuncArgs` leaves the index. -/
def argsIndex : Sum (List Bytes × ℕ) Args → ℕ
  | .inl r => r.2
  | .inr a => a.j

theorem argsComma_index {s : Bytes} {a a' : Args} {b : UInt8} (h : argsComma s a b = .ok a') :
    a.j ≤ a'.j := by
  rw [argsComma] at h
  split at h
  · obtain ⟨arg,-,h⟩ := except_bind_ok h
    cases h
    exact Nat.le_succ _
  · cases h
    exact Nat.le_refl _

theorem argsClose_index {s : Bytes} {a : Args} {r : Sum (List Bytes × ℕ) Args}
    (h : argsClose s a = .ok r) : a.j < argsIndex r := by
  rw [argsClose] at h
  split at h
  · cases h
  split at h
  · split at h
    · cases h
      exact Nat.lt_succ_self _
    · obtain ⟨arg,-,h⟩ := except_bind_ok h
      cases h
      exact Nat.lt_succ_self _
  · cases h
    exact Nat.lt_succ_self _

theorem argsStep_index {s : Bytes} {a : Args} {b : UInt8} {r : Sum (List Bytes × ℕ) Args}
    (h : argsStep s a b = .ok r) : a.j < argsIndex r := by
  rw [argsStep] at h
  split at h
  · cases h
    exact Nat.lt_succ_self _
  split at h
  · cases h
    exact Nat.lt_succ_self _
  · obtain ⟨a',ha,hc⟩ := except_bind_ok h
    exact Nat.lt_of_le_of_lt (argsComma_index ha) (argsClose_index hc)

theorem argsLoop_index {s : Bytes} (n : ℕ) : ∀ {a : Args} {r : List Bytes × ℕ},
    argsLoop s n a = .ok (some r) → a.j < r.2 := by
  induction n with
  | zero => exact fun h => nomatch h
  | succ n ih =>
    intro a r h
    rw [argsLoop] at h
    split at h
    · cases h
    · obtain ⟨x,hx,h⟩ := except_bind_ok h
      have hlt := argsStep_index hx
      cases x with
      | inl r' =>
        cases h
        exact hlt
      | inr a' => exact Nat.lt_trans hlt (ih h)

theorem parseFuncArgs_index {c : Conf ω} {s name : Bytes} {i : ℕ} {r : List Bytes × ℕ}
    (h : c.parseFuncArgs s name i = .ok (some r)) : i < r.2 := by
  rw [Conf.parseFuncArgs] at h
  split at h
  · exact argsLoop_index _ h
  · cases h

/-! ### One pass of the loop -/

/-- The passes the loop of `ParseCore` may still take: two for each byte, one of them to
close the word before it. -/
def Scan.passes (len : ℕ) (sc : Scan) : ℕ :=
  2*(len-sc.i)+if sc.status.isVariable = true ∧ sc.status.isSlice = false then 1 else 0

section Core
variable {c : Conf ω} {cb : Callbacks ω} {s : Bytes} {parent : Parent} {parseAssign : Bool}

/-- What `GetVarAndFunc` makes of a word: a call, a slice, the start of an index or a value. -/
inductive Closes (c : Conf ω) (s word : Bytes) (sc : Scan) : Scan → Prop
  | call {name : Bytes} {r : List Bytes × ℕ} (v : Any) : c.findFunc word = true →
      sub s sc.status.wordStart sc.i = .ok name → c.parseFuncArgs s name sc.i = .ok (some r) →
      Closes c s word sc { i := r.2,token := [],vals := sc.vals++[v],
                           status := { sc.status with isVariable := false } }
  | slice (v : Slice) : c.findFunc word = false →
      Closes c s word sc { sc with
        vals := sc.vals++[.slice v],status := { sc.status with isVariable := false } }
  | index : c.findFunc word = false → s[sc.i]? = some 91 →
      Closes c s word sc { sc with status := { sc.status with isSlice := true } }
  | value (v : Any) : c.findFunc word = false →
      Closes c s word sc { sc with
        token := [],vals := sc.vals++[v],status := { sc.status with isVariable := false } }

theorem yields_getVarAndFunc {ps : ParseString ω} {word : Bytes} {sc : Scan} :
    Yields (c.getVarAndFunc ps s word parent parseAssign sc) (Closes c s word sc) := by
  rw [Conf.getVarAndFunc]
  split
  next hf =>
    refine (yields_ofExcept _).bind fun name hname => (yields_ofExcept _).bind fun r hr => ?_
    cases r with
    | none => exact yields_panic _ _
    | some r =>
      refine (Yields.trivial _).bind fun args _ => ?_
      split
      · exact yields_panic _ _
      · exact (Yields.trivial _).bind fun v _ => Yields.pure (.call v hf hname hr)
  next hf =>
    have hf' : c.findFunc word = false := Bool.eq_false_iff.mpr hf
    refine (Yields.trivial _).bind fun v _ => ?_
    split
    · exact yields_panic _ _
    next slice =>
      split
      · exact Yields.pure (.slice slice hf')
      next h => exact Yields.pure (.index hf' (not_not.mp (not_or.mp h).2))
    · exact Yields.pure (.value _ hf')

/-- The word is closed, or an index follows. -/
theorem Closes.forward {word : Bytes} {sc sc' : Scan} (h : Closes c s word sc sc') :
    sc.i ≤ sc'.i ∧ (sc'.status.isVariable = false ∨ sc'.status.isSlice = true) := by
  cases h with
  | call v hf hname hr => exact ⟨(parseFuncArgs_index hr).le,.inl rfl⟩
  | slice v hf => exact ⟨Nat.le_refl _,.inl rfl⟩
  | index hf h91 => exact ⟨Nat.le_refl _,.inr rfl⟩
  | value v hf => exact ⟨Nat.le_refl _,.inl rfl⟩

theorem yields_sliceStep {sc : Scan} {v : UInt8} :
    Yields (sliceStep cb s parent parseAssign sc v) fun sc' => sc'.i = sc.i+1 := by
  rw [sliceStep]
  split
  · exact Yields.pure rfl
  split
  · exact Yields.pure rfl
  refine (Yields.trivial _).bind fun r _ => (Yields.trivial _).bind fun vv _ => ?_
  split
  · exact yields_panic _ _
  · refine (Yields.trivial _).bind fun text _ => (Yields.trivial _).bind fun pos _ =>
      (Yields.trivial _).bind fun n _ => ?_
    split
    · exact (Yields.trivial _).bind fun elem _ => Yields.pure rfl
    · exact yields_panic _ _

/-- A pass inside a word moves the index on or closes the word. -/
theorem yields_wordStep {sc : Scan} {v : UInt8} :
    Yields (wordStep c cb s parent parseAssign sc v) fun sc' =>
      sc'.i = sc.i+1 ∨ sc.i ≤ sc'.i ∧ (sc'.status.isVariable = false ∨ sc'.status.isSlice = true) := by
  rw [wordStep]
  split
  · exact Yields.pure (.inl rfl)
  · refine (Yields.trivial _).bind fun r _ => yields_getVarAndFunc.bind fun sc' h => Yields.pure ?_
    have hle : sc.i ≤ sc'.i := h.forward.1
    split
    · exact .inr ⟨Nat.le_succ_of_le hle,h.forward.2⟩
    · exact .inr ⟨hle,h.forward.2⟩

theorem coreStep_slice {sc : Scan} {v : UInt8} (hs : sc.status.isSlice = true) :
    coreStep c cb s parent parseAssign sc v = sliceStep cb s parent parseAssign sc v := by
  rw [coreStep,if_pos hs]

theorem coreStep_word {sc : Scan} {v : UInt8} (hs : sc.status.isSlice = false)
    (hv : sc.status.isVariable = true) :
    coreStep c cb s parent parseAssign sc v = wordStep c cb s parent parseAssign sc v := by
  simp only [coreStep,hs,hv,Bool.false_eq_true,Bool.true_eq_false,false_and,if_false,if_true]

/-- A `$` opens its word in the pass that reads it. -/
theorem coreStep_start {sc : Scan} (hs : sc.status.isSlice = false)
    (hv : sc.status.isVariable = false) :
    coreStep c cb s parent parseAssign sc 36 =
      pure { startWord sc with i := sc.i+1,token := [36] } := by
  have hw : isWordByte 36 = true := by decide
  simp [coreStep,hs,hv,startWord,wordStep,hw]

theorem coreStep_text {sc : Scan} {v : UInt8} (hs : sc.status.isSlice = false)
    (hv : sc.status.isVariable = false) (h36 : v ≠ 36) :
    coreStep c cb s parent parseAssign sc v =
      pure { sc with i := sc.i+1,token := sc.token++[v] } := by
  simp only [coreStep,hs,hv,h36,Bool.false_eq_true,and_false,if_false]

/-- A pass leaves fewer passes. -/
theorem yields_coreStep {sc : Scan} {v : UInt8} (hv : s[sc.i]? = some v) :
    Yields (coreStep c cb s parent parseAssign sc v) fun sc' =>
      sc'.passes s.length < sc.passes s.length := by
  have hi : sc.i < s.length := (List.getElem?_eq_some_iff.mp hv).1
  have hnext : ∀ sc' : Scan, sc'.i = sc.i+1 → sc'.passes s.length < sc.passes s.length := by
    intro sc' h
    rw [Scan.passes,Scan.passes,h]
    split <;> omega
  cases hs : sc.status.isSlice with
  | true =>
    rw [coreStep_slice hs]
    exact fun st sc' st' h => hnext sc' (yields_sliceStep st sc' st' h)
  | false =>
    cases hvar : sc.status.isVariable with
    | true =>
      rw [coreStep_word hs hvar]
      intro st sc' st' h
      cases yields_wordStep st sc' st' h with
      | inl h => exact hnext sc' h
      | inr h =>
        have hclosed : ¬(sc'.status.isVariable = true ∧ sc'.status.isSlice = false) := by
          cases h.2 with
          | inl h => simp [h]
          | inr h => simp [h]
        rw [Scan.passes,Scan.passes,if_neg hclosed,if_pos ⟨hvar,hs⟩]
        have := h.1
        omega
    | false =>
      by_cases h36 : v = 36
      · rw [h36,coreStep_start hs hvar]
        exact Yields.pure (hnext _ rfl)
      · rw [coreStep_text hs hvar h36]
        exact Yields.pure (hnext _ rfl)

/-! ### Runs of the loop -/

/-- With enough passes their number does not matter. -/
theorem coreLoop_congr (n : ℕ) : ∀ {n' : ℕ} {sc : Scan}, sc.passes s.length < n →
    sc.passes s.length < n' →
      coreLoop c cb s parent parseAssign n sc = coreLoop c cb s parent parseAssign n' sc := by
  induction n with
  | zero => exact fun h => absurd h (Nat.not_lt_zero _)
  | succ n ih =>
    intro n' sc hn hn'
    cases n' with
    | zero => exact absurd hn' (Nat.not_lt_zero _)
    | succ n' =>
      rw [coreLoop,coreLoop]
      cases hv : s[sc.i]? with
      | none => rfl
      | some v =>
        apply (yields_coreStep hv).bind_congr
        intro sc' h
        apply ih <;> omega

variable (c cb s parent parseAssign)

/-- The rest of `ParseCore` from the head of its loop. -/
def run (sc : Scan) : M ω Any :=
  coreLoop c cb s parent parseAssign (sc.passes s.length+1) sc >>=
    coreFinish c cb s parent parseAssign

variable {c cb s parent parseAssign}

theorem run_none {sc : Scan} (h : s[sc.i]? = none) :
    run c cb s parent parseAssign sc = coreFinish c cb s parent parseAssign sc := by
  rw [run,coreLoop,h]
  rfl

theorem run_some {sc : Scan} {v : UInt8} (h : s[sc.i]? = some v) :
    run c cb s parent parseAssign sc =
      coreStep c cb s parent parseAssign sc v >>= run c cb s parent parseAssign := by
  rw [run,coreLoop,h]
  show (coreStep c cb s parent parseAssign sc v >>= _) >>= _ = _
  rw [bind_assoc]
  apply (yields_coreStep h).bind_congr
  intro sc' hlt
  rw [run,coreLoop_congr _ hlt (Nat.lt_succ_self _)]

theorem coreBody_eq_run : coreBody c cb s parent parseAssign =
    if 36 ∈ s then run c cb s parent parseAssign .init else pure (.str s) := rfl

end Core
end GurlConf
end RecycleBin
