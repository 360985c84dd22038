import RecycleBin.GurlWindow

/-! References `${name}` and `$name`. Where the scan of a template stands when it comes to a
reference decides whether the braces make a difference: they do not where the reference is a
word of its own that the next byte ends, in an index that starts again or never ends, and
behind a panic. -/
namespace RecycleBin
namespace GurlConf
open GurlText Lockstep

variable {ω : Type}

def braced (name : Bytes) : Bytes := 36::123::(name++[125])

def bare (name : Bytes) : Bytes := 36::name

/-! ### What a scan has read -/

/-- What holds of a scan between two passes. -/
structure Scan.Sane (s : Bytes) (sc : Scan) : Prop where
  curlyBracesLeft : sc.status.isVariable = false → sc.status.curlyBracesLeft = false
  left : sc.status.isSlice = true → sc.status.left < sc.i ∨ s[sc.i]? = some 91

section Passes
variable {c : Conf ω} {cb : Callbacks ω} {s : Bytes} {parent : Parent} {parseAssign : Bool}

theorem Scan.Sane.init : Scan.init.Sane s := ⟨fun _ => rfl,fun h => nomatch h⟩

/-- Outside of an index nothing is asked of `left`. -/
theorem Scan.Sane.of_plain {sc : Scan} (hs : sc.status.isSlice = false)
    (hc : sc.status.isVariable = false → sc.status.curlyBracesLeft = false) : sc.Sane s :=
  ⟨hc,fun h => absurd (hs.symm.trans h) Bool.false_ne_true⟩

theorem yields_sliceStep_sane {sc : Scan} {v : UInt8} (h : sc.Sane s)
    (hs : sc.status.isSlice = true) (hv : s[sc.i]? = some v) :
    Yields (sliceStep cb s parent parseAssign sc v) (Scan.Sane s) := by
  rw [sliceStep]
  split
  next hother =>
    refine Yields.pure ⟨h.curlyBracesLeft,fun _ => .inl ?_⟩
    have hlt : sc.status.left < sc.i := (h.left hs).resolve_right fun h91 =>
      hother.1 (Option.some.inj (hv.symm.trans h91))
    exact Nat.lt_succ_of_lt hlt
  split
  · exact Yields.pure ⟨h.curlyBracesLeft,fun _ => .inl (Nat.lt_succ_self _)⟩
  refine (yields_ofExcept _).bind fun r hr => (Yields.trivial _).bind fun vv _ => ?_
  split
  · exact yields_panic _ _
  refine (Yields.trivial _).bind fun text _ => (Yields.trivial _).bind fun pos _ =>
    (Yields.trivial _).bind fun n _ => ?_
  split
  · refine (Yields.trivial _).bind fun elem _ => Yields.pure (.of_plain rfl fun _ => ?_)
    rw [getWord_status hr]
  · exact yields_panic _ _

theorem yields_wordStep_sane {sc : Scan} {v : UInt8} (hs : sc.status.isSlice = false)
    (hvar : sc.status.isVariable = true) (hv : s[sc.i]? = some v) :
    Yields (wordStep c cb s parent parseAssign sc v) (Scan.Sane s) := by
  rw [wordStep]
  split
  · exact Yields.pure (.of_plain hs fun h => absurd (hvar.symm.trans h) Bool.true_eq_false.mp)
  refine (yields_ofExcept _).bind fun r hr => yields_getVarAndFunc.bind fun sc' h => Yields.pure ?_
  have hslice : r.2.2.isSlice = false := by
    rw [getWord_status hr]
    exact hs
  have hcurly : r.2.2.curlyBracesLeft = false := by rw [getWord_status hr]
  cases h with
  | call v' _ _ _ => split <;> exact .of_plain hslice fun _ => hcurly
  | slice _ _ => split <;> exact .of_plain hslice fun _ => hcurly
  | index _ h91 =>
    have hv91 : v = 91 := Option.some.inj (hv.symm.trans h91)
    have h125 : v ≠ 125 := by
      rw [hv91]
      decide
    rw [if_neg h125]
    exact ⟨fun _ => hcurly,fun _ => .inr h91⟩
  | value _ _ => split <;> exact .of_plain hslice fun _ => hcurly

theorem yields_coreStep_sane {sc : Scan} {v : UInt8} (h : sc.Sane s) (hv : s[sc.i]? = some v) :
    Yields (coreStep c cb s parent parseAssign sc v) (Scan.Sane s) := by
  cases hs : sc.status.isSlice with
  | true =>
    rw [coreStep_slice hs]
    exact yields_sliceStep_sane h hs hv
  | false =>
    cases hvar : sc.status.isVariable with
    | true =>
      rw [coreStep_word hs hvar]
      exact yields_wordStep_sane hs hvar hv
    | false =>
      by_cases h36 : v = 36
      · rw [h36,coreStep_start hs hvar]
        exact Yields.pure (.of_plain hs fun h => nomatch h)
      · rw [coreStep_text hs hvar h36]
        exact Yields.pure (.of_plain hs fun _ => h.curlyBracesLeft hvar)

variable (c cb s parent parseAssign)

/-- The scans within the first `m` bytes of the template, with the state they leave. -/
inductive Reaches (m : ℕ) (st : Store ω) : Scan → Store ω → Prop
  | init : Reaches m st .init st
  | step {sc sc' : Scan} {t t' : Store ω} {v : UInt8} : Reaches m st sc t → sc.i < m →
      s[sc.i]? = some v → ¬OpenCall c s m sc v →
      coreStep c cb s parent parseAssign sc v t = .ok (sc',t') → Reaches m st sc' t'

variable {c cb s parent parseAssign}

end Passes

section Prefix
variable {c : Conf ω} {cb : Callbacks ω} {parent : Parent} {parseAssign : Bool} {pre r u : Bytes}
  {st t : Store ω} {sc : Scan}

namespace Reaches

theorem sane {s : Bytes} {m : ℕ} (h : Reaches c cb s parent parseAssign m st sc t) : sc.Sane s := by
  induction h with
  | init => exact .init
  | step _ _ hv _ hstep ih => exact yields_coreStep_sane ih hv _ _ _ hstep

theorem within (h : Reaches c cb (pre++r) parent parseAssign pre.length st sc t) :
    sc.i ≤ pre.length := by
  cases h with
  | init => exact Nat.zero_le _
  | step _ hi _ hcall hstep => exact yields_coreStep_local hi hcall _ _ _ hstep

/-- The scan comes to the byte behind the prefix, or to the pass that keeps it from there: one
that stops, or a call. -/
theorem total (h : Reaches c cb (pre++r) parent parseAssign pre.length st sc t) :
    ∃ sc' t', Reaches c cb (pre++r) parent parseAssign pre.length st sc' t' ∧
      (sc'.i = pre.length ∨ sc'.i < pre.length ∧ ∃ v, (pre++r)[sc'.i]? = some v ∧
        (OpenCall c (pre++r) pre.length sc' v ∨ ¬OpenCall c (pre++r) pre.length sc' v ∧
          ∃ e, coreStep c cb (pre++r) parent parseAssign sc' v t' = .error e)) := by
  induction hn : sc.passes (pre++r).length using Nat.strong_induction_on generalizing sc t with
  | _ n ih =>
    by_cases hend : sc.i = pre.length
    · exact ⟨sc,t,h,.inl hend⟩
    have hi : sc.i < pre.length := lt_of_le_of_ne h.within hend
    obtain ⟨v,hv⟩ : ∃ v, (pre++r)[sc.i]? = some v :=
      ⟨pre[sc.i],(List.getElem?_append_left hi).trans (List.getElem?_eq_getElem hi)⟩
    by_cases hcall : OpenCall c (pre++r) pre.length sc v
    · exact ⟨sc,t,h,.inr ⟨hi,v,hv,.inl hcall⟩⟩
    cases hstep : coreStep c cb (pre++r) parent parseAssign sc v t with
    | error e => exact ⟨sc,t,h,.inr ⟨hi,v,hv,.inr ⟨hcall,e,hstep⟩⟩⟩
    | ok x =>
      have hpass : x.1.passes (pre++r).length < n := hn ▸ yields_coreStep hv t x.1 x.2 hstep
      exact ih _ hpass (h.step hi hv hcall hstep) rfl

end Reaches

end Prefix

/-! ### References and the text behind them -/

/-- A name of a variable. -/
structure IsName (name : Bytes) : Prop where
  ne_nil : name ≠ []
  bytes : ∀ b ∈ name, isNameByte b = true

theorem joinVals_append_nil (vals : List Any) : ∀ out : Bytes,
    joinVals out (vals++[.str []]) = joinVals out vals := by
  induction vals with
  | nil =>
    intro out
    show Any.str (out++[]) = .str out
    rw [List.append_nil]
  | cons v vals ih =>
    intro out
    cases v with
    | str t => exact ih (out++t)
    | int n => rfl
    | slice s => rfl
    | bool b => rfl
    | other n => rfl

section Behind
variable {c : Conf ω} {cb : Callbacks ω} {s w : Bytes} {parent : Parent} {parseAssign : Bool}
  {sc : Scan}

/-- `$name` becomes the value of the variable, where the next byte ends the word and is no `}`. -/
theorem run_bare {name r t : Bytes} {st : Store ω} (hp : sc.status.Plain) (hn : IsName name)
    (hf : c.findFunc name = false) (ht : lookup st parent name = some t)
    (hend : ∀ b, r.head? = some b → isWordByte b = false ∧ b ≠ 125)
    (h : s.drop sc.i = 36::(name++r)) :
    run c cb s parent parseAssign sc st =
      run c cb s parent parseAssign (sc.refer (name.length+1) t) st := by
  have hword : s.drop (sc.dollar.collect name).i = r := by
    rw [Scan.collect,← List.drop_drop]
    show List.drop name.length (s.drop (sc.i+1)) = r
    rw [drop_succ h,List.drop_left]
  have hget : getWord (sc.dollar.collect name).token (sc.dollar.collect name).status =
      .ok (name,true,(sc.dollar.collect name).status) :=
    getWord_bare hp.curlyBracesLeft hn.ne_nil
  have hrefer : (sc.dollar.collect name).close t = sc.refer (name.length+1) t := by
    simp only [Scan.close,Scan.refer,Scan.collect,Scan.dollar,startWord,hp.curlyBracesLeft]
    congr 1
    omega
  have hrun : run c cb s parent parseAssign sc st =
      run c cb s parent parseAssign (sc.dollar.collect name) st := by
    rw [run_dollar hp h,run_word name (x := sc.dollar) hp.isSlice rfl hn.bytes (drop_succ h)]
  rw [hrun]
  cases r with
  | nil =>
    have hnil : s.drop (sc.refer (name.length+1) t).i = [] := by
      rw [← hrefer]
      exact hword
    have htoken : (sc.dollar.collect name).token ≠ [] := List.cons_ne_nil 36 name
    rw [run_nil hword,run_nil hnil,coreFinish,if_neg htoken,hget,ofExcept_ok,pure_bind]
    dsimp only
    rw [if_pos rfl,bind_ok (getVarAndFunc_text hf ht),hrefer]
    show Except.ok (joinVals [] ((sc.refer (name.length+1) t).vals++[.str []]),st) = _
    rw [joinVals_append_nil]
    rfl
  | cons b r =>
    have hb := hend b rfl
    rw [run_close (x := sc.dollar.collect name) hp.isSlice rfl hword hb.1 hget hf ht,if_neg hb.2]
    exact congrArg (fun x => run c cb s parent parseAssign x st) hrefer

/-- Text without brackets is not looked at between the word of a slice and its index, and
within the index. -/
theorem run_skip (t : Bytes) : ∀ {x : Scan} {r : Bytes}, x.status.isSlice = true →
    (∀ b ∈ t, b ≠ 91 ∧ b ≠ 93) → s.drop x.i = t++r →
      run c cb s parent parseAssign x = run c cb s parent parseAssign (x.next t.length) := by
  induction t with
  | nil => exact fun _ _ _ => rfl
  | cons b t ih =>
    intro sc r hs ht h
    have hb := ht b List.mem_cons_self
    have ht' : ∀ b ∈ t, b ≠ 91 ∧ b ≠ 93 := fun b h => ht b (List.mem_cons_of_mem _ h)
    have hnext : (sc.next 1).next t.length = sc.next (b::t).length := by
      simp only [Scan.next,List.length_cons]
      congr 1
      omega
    rw [run_cons h,coreStep_slice hs,sliceStep,if_pos hb,pure_bind,← hnext]
    exact ih (x := sc.next 1) hs ht' (drop_succ h)

end Behind

/-- What a scan makes of an occurrence of `${name}`: a reference to a variable, before the byte
`next`; or to a function, or to what has become neither text nor a number; a part of another
word, or of the arguments of a call; text it skips, or does not come to. -/
inductive Kind
  | text (next : Option UInt8)
  | function
  | rebound
  | word
  | argument
  | skipped
  | stopped

section Occurrences
variable (c : Conf ω) (parent : Parent) (parseAssign : Bool) (name : Bytes)

/-- Scans of `pre`, before `${name}` and `post`. -/
abbrev Before (d : ℕ) (pre post : Bytes) (st : Store ω) (sc : Scan) (t : Store ω) : Prop :=
  Reaches c (c.callbacks d) (pre++(braced name++post)) parent parseAssign pre.length st sc t

/-- The occurrence of `${name}` between `pre` and `post` is of that kind. In the index of a slice
it is one of the template that `ParseCore` is called with for the index. -/
inductive Occurs : Kind → ℕ → Bytes → Bytes → Store ω → Prop
  | text {d pre post st sc t} : Before c parent parseAssign name d pre post st sc t →
      sc.i = pre.length → sc.status.isSlice = false → sc.status.isVariable = false →
      c.findFunc name = false → (lookup t parent name).isSome →
        Occurs (.text post.head?) d pre post st
  | function {d pre post st sc t} : Before c parent parseAssign name d pre post st sc t →
      sc.i = pre.length → sc.status.isSlice = false → sc.status.isVariable = false →
      c.findFunc name = true → Occurs .function d pre post st
  | rebound {d pre post st sc t} : Before c parent parseAssign name d pre post st sc t →
      sc.i = pre.length → sc.status.isSlice = false → sc.status.isVariable = false →
      c.findFunc name = false → lookup t parent name = none → Occurs .rebound d pre post st
  | word {d pre post st sc t} : Before c parent parseAssign name d pre post st sc t →
      sc.i = pre.length → sc.status.isSlice = false → sc.status.isVariable = true →
      Occurs .word d pre post st
  | index {k d pre post₁ post₂ st sc t} :
      Before c parent parseAssign name (d+1) pre (post₁++93::post₂) st sc t →
      sc.i = pre.length → sc.status.isSlice = true → (∀ b ∈ post₁, b ≠ 91 ∧ b ≠ 93) →
      Occurs k d (pre.drop (sc.status.left+1)) post₁ t → Occurs k (d+1) pre (post₁++93::post₂) st
  | deep {pre post₁ post₂ st sc t} :
      Before c parent parseAssign name 0 pre (post₁++93::post₂) st sc t →
      sc.i = pre.length → sc.status.isSlice = true → (∀ b ∈ post₁, b ≠ 91 ∧ b ≠ 93) →
      Occurs .stopped 0 pre (post₁++93::post₂) st
  | skipped {d pre post₁ post₂ st sc t} :
      Before c parent parseAssign name d pre (post₁++post₂) st sc t →
      sc.i = pre.length → sc.status.isSlice = true → (∀ b ∈ post₁, b ≠ 91 ∧ b ≠ 93) →
      (∀ b, post₂.head? = some b → b = 91) → sc.NotFunc c →
        Occurs .skipped d pre (post₁++post₂) st
  -- the word of the slice is looked up again at the end, then with its brace
  | call {d pre post₁ post₂ st sc t} :
      Before c parent parseAssign name d pre (post₁++post₂) st sc t →
      sc.i = pre.length → sc.status.isSlice = true → (∀ b ∈ post₁, b ≠ 91 ∧ b ≠ 93) →
      (∀ b, post₂.head? = some b → b = 91) → ¬sc.NotFunc c →
        Occurs .function d pre (post₁++post₂) st
  | argument {d pre post st sc t v} : Before c parent parseAssign name d pre post st sc t →
      sc.i < pre.length → (pre++(braced name++post))[sc.i]? = some v →
      OpenCall c (pre++(braced name++post)) pre.length sc v → Occurs .argument d pre post st
  | stopped {d pre post st sc t v e} : Before c parent parseAssign name d pre post st sc t →
      sc.i < pre.length → (pre++(braced name++post))[sc.i]? = some v →
      ¬OpenCall c (pre++(braced name++post)) pre.length sc v →
      coreStep c (c.callbacks d) (pre++(braced name++post)) parent parseAssign sc v t = .error e →
      Occurs .stopped d pre post st

/-- The braces make no difference to the result and to the state. -/
def Agree (d : ℕ) (pre post : Bytes) (st : Store ω) : Prop :=
  c.parseCore d (pre++(braced name++post)) parent parseAssign st =
    c.parseCore d (pre++(bare name++post)) parent parseAssign st

variable {c parent parseAssign name}

/-! ### Every occurrence has a kind -/

variable {d : ℕ} {pre post post₁ post₂ : Bytes} {st t : Store ω} {sc : Scan}

theorem no_bracket_of_name {b : UInt8} (h : isNameByte b = true) : b ≠ 91 ∧ b ≠ 93 :=
  ⟨ne_of_name h (by decide),ne_of_name h (by decide)⟩

theorem no_bracket_bare (hn : IsName name) : ∀ b ∈ bare name, b ≠ 91 ∧ b ≠ 93 := by
  intro b hb
  cases hb with
  | head => decide
  | tail _ hb => exact no_bracket_of_name (hn.bytes b hb)

/-- The kinds of occurrences whose braces make no difference. -/
def Kind.Good : Kind → Prop
  | .text next => next ≠ some 36 ∧ next ≠ some 123 ∧ next ≠ some 125
  | .skipped => True
  | .stopped => True
  | _ => False

end Occurrences

/-! ### Where they make one -/

/-- A function that returns its arguments, and one that makes a slice of `x`. -/
def demo : Conf Unit where
  funcMap name :=
    if name = ascii "f" then some fun _ val =>
      pure ({ val with rvArgs := .str val.callArgs.flatten },none)
    else if name = ascii "g" then some fun _ val => do
      modify fun st =>
        { st with rootMap := Function.update st.rootMap (ascii "x") (some (.slice ⟨0,0,0⟩)) }
      pure ({ val with rvArgs := .str [] },none)
    else none
  grow := id

/-- The occurrences of a kind may lose their braces: those of the name of a variable that is
bound to a string or an int, where the next byte is of no name. -/
def Kind.Agrees (k : Kind) : Prop :=
  ∀ (ω : Type) (c : Conf ω) (parent : Parent) (parseAssign : Bool) (name : Bytes) (d : ℕ)
    (pre post : Bytes) (st : Store ω), IsName name → (lookup st parent name).isSome →
      (∀ b, post.head? = some b → isNameByte b = false) →
        Occurs c parent parseAssign name k d pre post st →
          Agree c parent parseAssign name d pre post st

theorem isName_one {b : UInt8} (h : isNameByte b = true) : IsName [b] := by
  refine ⟨List.cons_ne_nil _ _,fun b' hb => ?_⟩
  rw [List.mem_singleton.mp hb]
  exact h

end GurlConf
end RecycleBin
