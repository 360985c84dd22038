import RecycleBin.GurlTemplate

/-! How much of its template a scan depends on. A pass that ends within a prefix does not
read beyond it, and a scan behind a prefix runs as a scan of the rest. -/
namespace RecycleBin
namespace GurlConf
open GurlText Lockstep

variable {ω : Type}

/-! ### Arguments -/

/-- Behind the end of the text the number of passes does not matter. -/
theorem argsLoop_congr {s : Bytes} (n : ℕ) : ∀ {n' : ℕ} {a : Args}, s.length < a.j+n →
    s.length < a.j+n' → argsLoop s n a = argsLoop s n' a := by
  have hend : ∀ (n : ℕ) (a : Args), s.length ≤ a.j → argsLoop s n a = .ok none := by
    intro n a h
    cases n with
    | zero => rfl
    | succ n => rw [argsLoop,List.getElem?_eq_none h]
  induction n with
  | zero =>
    intro n' a h _
    rw [hend 0 a h.le,hend n' a h.le]
  | succ n ih =>
    intro n' a h h'
    cases n' with
    | zero => rw [hend _ a h'.le,hend _ a h'.le]
    | succ n' =>
      rw [argsLoop,argsLoop]
      cases hb : s[a.j]? with
      | none => rfl
      | some b =>
        dsimp only
        cases hstep : argsStep s a b with
        | error p => rfl
        | ok r =>
          cases r with
          | inl r => rfl
          | inr a' =>
            have hlt : a.j < a'.j := argsStep_index hstep
            exact ih (by omega) (by omega)

section Prefix
variable {pre t u : Bytes}

end Prefix

section Suffix
variable {s : Bytes} {k : ℕ}

end Suffix

/-! ### A prefix -/

/-- The word depends on the token and on `curlyBracesLeft` only. -/
theorem getWord_eq (token : Bytes) (status : Status) : getWord token status =
    (getWord token ⟨0,false,false,0,status.curlyBracesLeft⟩).map fun r =>
      (r.1,r.2.1,{ status with curlyBracesLeft := false }) := by
  have hword : ∀ (w : Bytes) (isVar : Bool) (status' : Status),
      (if w = [] then Except.error Panic.index
        else .ok (w,isVar,{ status with curlyBracesLeft := false })) =
      (if w = [] then Except.error Panic.index else .ok (w,isVar,status')).map fun r =>
        (r.1,r.2.1,{ status with curlyBracesLeft := false }) := by
    intro w isVar status'
    split <;> rfl
  cases token with
  | nil => rfl
  | cons b token =>
    unfold getWord
    dsimp only [bind,Except.bind]
    split
    · cases (if b = 36 then (token,true) else (b::token,false)).1 with
      | nil => rfl
      | cons b' w => exact hword w _ _
    · exact hword _ _ _

theorem getWord_status {token : Bytes} {status : Status} {r : Bytes × Bool × Status}
    (h : getWord token status = .ok r) : r.2.2 = { status with curlyBracesLeft := false } := by
  rw [getWord_eq] at h
  cases hw : getWord token ⟨0,false,false,0,status.curlyBracesLeft⟩ with
  | error p =>
    rw [hw] at h
    cases h
  | ok w =>
    rw [hw] at h
    cases h
    rfl

/-- The pass at `s[sc.i]` calls a function, and not within the first `m` bytes. -/
def OpenCall (c : Conf ω) (s : Bytes) (m : ℕ) (sc : Scan) (v : UInt8) : Prop :=
  sc.status.isSlice = false ∧ sc.status.isVariable = true ∧ isWordByte v = false ∧
    ∃ r name, getWord sc.token sc.status = .ok r ∧ c.findFunc r.1 = true ∧
      sub s sc.status.wordStart sc.i = .ok name ∧ c.findFunc name = true ∧
      ∀ r', c.parseFuncArgs s name sc.i = .ok (some r') → m < if v = 125 then r'.2+1 else r'.2

section Passes
variable {c : Conf ω} {cb : Callbacks ω} {parent : Parent} {parseAssign : Bool} {pre t u : Bytes}

theorem findFunc_of_parseFuncArgs {s name : Bytes} {i : ℕ} {r : Option (List Bytes × ℕ)}
    (h : c.parseFuncArgs s name i = .ok r) : c.findFunc name = true := by
  rw [Conf.parseFuncArgs] at h
  by_contra hf
  rw [if_neg hf] at h
  cases h

/-- Such a pass ends within the prefix. -/
theorem yields_coreStep_local {sc : Scan} {v : UInt8} (hi : sc.i < pre.length)
    (hcall : ¬OpenCall c (pre++t) pre.length sc v) :
    Yields (coreStep c cb (pre++t) parent parseAssign sc v) fun sc' => sc'.i ≤ pre.length := by
  cases hs : sc.status.isSlice with
  | true =>
    rw [coreStep_slice hs]
    intro st sc' st' h
    rw [yields_sliceStep st sc' st' h]
    exact hi
  | false =>
    cases hvar : sc.status.isVariable with
    | false =>
      by_cases h36 : v = 36
      · rw [h36,coreStep_start hs hvar]
        exact Yields.pure hi
      · rw [coreStep_text hs hvar h36]
        exact Yields.pure hi
    | true =>
      rw [coreStep_word hs hvar,wordStep]
      cases hv : isWordByte v with
      | true => exact Yields.pure hi
      | false =>
        rw [if_neg Bool.false_ne_true]
        refine (yields_ofExcept _).bind fun r hw => yields_getVarAndFunc.bind fun sc' h =>
          Yields.pure ?_
        cases h with
        | call v' hf hname hr =>
          rw [getWord_status hw] at hname
          by_contra hlt
          refine hcall ⟨hs,hvar,hv,r,_,hw,hf,hname,findFunc_of_parseFuncArgs hr,?_⟩
          intro r' hr'
          cases hr.symm.trans hr'
          split at hlt <;> simp_all
        | slice _ _ => split <;> dsimp only <;> omega
        | index _ _ => split <;> dsimp only <;> omega
        | value _ _ => split <;> dsimp only <;> omega

end Passes

/-! ### The rest behind a prefix -/

/-- The scan `x` of a template is, up to the `k` bytes before it, the scan `y` of the rest. -/
structure Shifted (k : ℕ) (x y : Scan) : Prop where
  i : x.i = k+y.i
  token : x.token = y.token
  vals : x.vals = y.vals
  isVariable : x.status.isVariable = y.status.isVariable
  isSlice : x.status.isSlice = y.status.isSlice
  curlyBracesLeft : x.status.curlyBracesLeft = y.status.curlyBracesLeft

/-- The word of the token is not a function. -/
def Scan.NotFunc (c : Conf ω) (sc : Scan) : Prop :=
  ∀ r, getWord sc.token ⟨0,false,false,0,sc.status.curlyBracesLeft⟩ = .ok r → c.findFunc r.1 = false

/-- The places the two scans remember correspond, where the rest of the run needs them: the
start of a word that can be a call, and of an index unless it starts again. -/
structure Aligned (c : Conf ω) (w : Bytes) (k : ℕ) (x y : Scan) : Prop extends Shifted k x y where
  wordStart : y.status.isVariable = true ∨ y.token.head? = some 36 →
    x.status.wordStart = k+y.status.wordStart ∨ y.status.isSlice = true ∧ y.NotFunc c
  left : y.status.isSlice = true → x.status.left = k+y.status.left ∨ ∀ v, w[y.i]? = some v → v = 91

section Behind
variable {c : Conf ω} {cb : Callbacks ω} {parent : Parent} {parseAssign : Bool} {s : Bytes} {k : ℕ}

/-- The scan with `e` more bytes behind it. -/
def Scan.next (e : ℕ) (sc : Scan) : Scan := { sc with i := sc.i+e }

/-- What the scans `x` and `y` have become behind a word, and `e` more bytes. -/
def Behind (c : Conf ω) (s : Bytes) (k e : ℕ) (x y x' y' : Scan) : Prop :=
  Shifted k (x'.next e) (y'.next e) ∧
    (y.status.isSlice = false → x.status.wordStart = k+y.status.wordStart →
      Aligned c (s.drop k) k (x'.next e) (y'.next e))

/-- The word is closed. -/
theorem Shifted.closed {x y : Scan} (h : Shifted k x y) (e i : ℕ) (token : Bytes)
    (vals : List Any) : Behind c s k e x y ⟨k+i,token,vals,{ x.status with isVariable := false }⟩
      ⟨i,token,vals,{ y.status with isVariable := false }⟩ := by
  have hshift : Shifted k
      (Scan.next e ⟨k+i,token,vals,{ x.status with isVariable := false }⟩)
      (Scan.next e ⟨i,token,vals,{ y.status with isVariable := false }⟩) :=
    ⟨Nat.add_assoc k i e,rfl,rfl,rfl,h.isSlice,h.curlyBracesLeft⟩
  exact ⟨hshift,fun hs hw => ⟨hshift,fun _ => .inl hw,
    fun hs' => absurd (hs.symm.trans hs') Bool.false_ne_true⟩⟩

end Behind

end GurlConf
end RecycleBin
