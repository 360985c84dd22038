import RecycleBin.GurlStringEq

/-! Values that `$string_eq` takes as they are: those without a `$`, and those in which each `$`
begins another call of it that cannot fail. Others are looked up, or stop the program. -/
namespace RecycleBin
namespace GurlConf
open GurlText Lockstep

variable {ω : Type}

/-- From position `i` on each `$` begins a call of `string_eq` with at least two arguments, which
are such texts. -/
inductive Constant : Bytes → ℕ → Prop
  | done {s : Bytes} {i : ℕ} : s.drop i = [] → Constant s i
  | byte {s r : Bytes} {i : ℕ} {b : UInt8} : s.drop i = b::r → b ≠ 36 → Constant s (i+1) →
      Constant s i
  | call {s r : Bytes} {i j : ℕ} {v : UInt8} {args : List Bytes} :
      s.drop i = 36::(eqName++v::r) → isWordByte v = false →
      argsRun s ⟨i+10,i+10,0,true,[]⟩ = .ok (some (args,j)) → 2 ≤ args.length →
      (∀ a ∈ args, Constant a 0) → Constant s (if v = 125 then j+1 else j) → Constant s i

theorem constant_of_noDollar {s t : Bytes} : ∀ {i : ℕ}, s.drop i = t → 36 ∉ t → Constant s i := by
  induction t with
  | nil => exact fun h _ => .done h
  | cons b t ih =>
    intro i h ht
    have hb : b ≠ 36 := fun hb => ht (by simp [hb])
    exact .byte h hb (ih (drop_succ h) fun hmem => ht (List.mem_cons_of_mem b hmem))

/-! ### Depths -/

theorem eventually_of_succ {P : ℕ → Prop} (h : ∀ᶠ d in Filter.atTop, P (d+1)) :
    ∀ᶠ d in Filter.atTop, P d := by
  have ⟨D,hD⟩ := Filter.eventually_atTop.mp h
  refine Filter.eventually_atTop.mpr ⟨D+1,?_⟩
  intro d hd
  have hpred := hD (d-1) (by omega)
  rwa [Nat.sub_add_cancel (by omega)] at hpred

theorem eventually_succ {P : ℕ → Prop} (h : ∀ᶠ d in Filter.atTop, P d) :
    ∀ᶠ d in Filter.atTop, P (d+1) := (Filter.tendsto_add_atTop_nat 1).eventually h

theorem eventually_mem {P : Bytes → ℕ → Prop} {l : List Bytes}
    (h : ∀ a ∈ l, ∀ᶠ d in Filter.atTop, P a d) : ∀ᶠ d in Filter.atTop, ∀ a ∈ l, P a d :=
  (Filter.eventually_all_finite (List.finite_toSet l)).mpr h

/-! ### Arguments that are their own values -/

theorem mapM_self {ps : Bytes → M ω Bytes} {st : Store ω} {args : List Bytes}
    (h : ∀ a ∈ args, ps a st = .ok (a,st)) : args.mapM ps st = .ok (args,st) := by
  induction args with
  | nil => rfl
  | cons a args ih =>
    have hrest := ih fun b hb => h b (List.mem_cons_of_mem a hb)
    rw [List.mapM_cons,bind_ok (h a List.mem_cons_self),bind_ok hrest]
    rfl

theorem eqArgs_self {ps : ParseString ω} {parent : Parent} {st : Store ω} {args : List Bytes}
    (a : Bytes) (h : ∀ b ∈ args, ps b parent false st = .ok (b,st)) :
    eqArgs ps parent a args st = .ok (args.all (a = ·),st) := by
  induction args with
  | nil => rfl
  | cons b args ih =>
    rw [eqArgs,bind_ok (h b List.mem_cons_self)]
    by_cases hab : a = b
    · rw [if_neg (not_not.mpr hab),ih fun b hb => h b (List.mem_cons_of_mem _ hb)]
      simp [hab]
    · rw [if_pos hab]
      simp [hab]
      rfl

theorem callFunc_self {ps : ParseString ω} {parent : Parent} {st : Store ω} {a b : Bytes}
    {args : List Bytes} (h : ∀ x ∈ a::b::args, ps x parent false st = .ok (x,st)) :
    callFunc stringEq ps ⟨eqName,a::b::args,.other 0,parent⟩ st =
      .ok (.bool ((b::args).all (a = ·)),st) := by
  have hrest := eqArgs_self a fun x hx => h x (List.mem_cons_of_mem a hx)
  rw [callFunc_stringEq,bind_ok (h a List.mem_cons_self),bind_ok hrest]
  rfl

/-! ### Texts that are their own values -/

/-- A string or a bool. -/
def Any.IsPlain : Any → Prop
  | .str _ | .bool _ => True
  | _ => False

theorem joinVals_bool {vals : List Any} (h : ∀ v ∈ vals, v.IsPlain) (hb : ∃ b, .bool b ∈ vals)
    (out : Bytes) : ∃ b, joinVals out vals = .bool b := by
  induction vals generalizing out with
  | nil =>
    have ⟨b,hb⟩ := hb
    cases hb
  | cons v vals ih =>
    have hv := h v List.mem_cons_self
    cases v with
    | bool b => exact ⟨b,rfl⟩
    | str t =>
      apply ih fun w hw => h w (List.mem_cons_of_mem _ hw)
      have ⟨b,hb⟩ := hb
      cases hb with
      | tail _ hb => exact ⟨b,hb⟩
    | int n => exact hv.elim
    | slice s => exact hv.elim
    | other n => exact hv.elim

/-- Between words, with strings and bools so far. -/
structure Scan.Ready (sc : Scan) : Prop where
  plain : sc.status.Plain
  noDollar : 36 ∉ sc.token
  vals : ∀ v ∈ sc.vals, v.IsPlain

section Settled
variable {c : Conf ω} {cb : Callbacks ω} {s : Bytes} {parent : Parent} {parseAssign : Bool}
  {sc : Scan} {st : Store ω}

theorem coreFinish_ready (h : sc.Ready) (hb : ∃ b, .bool b ∈ sc.vals) :
    ∃ b, coreFinish c cb s parent parseAssign sc st = .ok (.bool b,st) := by
  rw [coreFinish]
  by_cases ht : sc.token = []
  · obtain ⟨b,hb⟩ := joinVals_bool h.vals hb []
    rw [if_pos ht,hb]
    exact ⟨b,rfl⟩
  · have hhead : sc.token.head? ≠ some 36 := by
      intro hhead
      exact h.noDollar (List.mem_of_head? hhead)
    have hget := getWord_text ht hhead h.plain.curlyBracesLeft
    have hvals : ∀ v ∈ sc.vals++[.str sc.token], v.IsPlain := by
      intro v hv
      cases List.mem_append.mp hv with
      | inl hv => exact h.vals v hv
      | inr hv =>
        rw [List.mem_singleton.mp hv]
        trivial
    obtain ⟨b,hb⟩ := joinVals_bool hvals (hb.imp fun b hb => List.mem_append_left _ hb) []
    rw [if_neg ht,hget,ofExcept_ok,pure_bind]
    refine ⟨b,?_⟩
    rw [← hb]
    rfl

theorem Scan.Ready.called (h : sc.Ready) (j : ℕ) (b : Bool) : (sc.called j (.bool b)).Ready := by
  refine ⟨Scan.called_plain h.plain j _,List.not_mem_nil,?_⟩
  intro v hv
  cases List.mem_append.mp hv with
  | inr hv =>
    rw [List.mem_singleton.mp hv]
    trivial
  | inl hv =>
    unfold startWord at hv
    dsimp only at hv
    split at hv
    · exact h.vals v hv
    · cases List.mem_append.mp hv with
      | inl hv => exact h.vals v hv
      | inr hv =>
        rw [List.mem_singleton.mp hv]
        trivial

end Settled

/-- From some depth on the rest of the text comes to a bool, if there is one so far or a `$` in
the rest. -/
def Settled (c : Conf ω) (parent : Parent) (s : Bytes) (i : ℕ) : Prop :=
  ∀ᶠ d in Filter.atTop, ∀ (sc : Scan) (st : Store ω), sc.Ready → sc.i = i →
    (∃ b, .bool b ∈ sc.vals) ∨ 36 ∈ s.drop i →
      ∃ b, run c (c.callbacks d) s parent false sc st = .ok (.bool b,st)

section Constants
variable {c : Conf ω} {parent : Parent}

/-- Such a text is its own value: a bool is none that a string could be made of. -/
theorem Settled.parseString {a : Bytes} (h : Settled c parent a 0) : ∀ᶠ d in Filter.atTop,
    ∀ st, (c.callbacks d).parseString a parent false st = .ok (a,st) := by
  apply eventually_of_succ
  filter_upwards [h] with d hd st
  show (parseBody c (c.callbacks d) a parent false >>= _) st = _
  rw [parseBody,if_pos rfl,coreBody_eq_run]
  by_cases h36 : 36 ∈ a
  · obtain ⟨b,hb⟩ := hd .init st ⟨⟨rfl,rfl,rfl⟩,List.not_mem_nil,by simp [Scan.init]⟩ rfl (.inr h36)
    rw [if_pos h36,bind_ok hb]
    rfl
  · rw [if_neg h36]
    rfl

theorem Constant.settled (hc : c.funcMap eqName = some stringEq) {s : Bytes} {i : ℕ}
    (h : Constant s i) : Settled c parent s i := by
  induction h with
  | done hnil =>
    refine Filter.Eventually.of_forall ?_
    intro d sc st hr hi hb
    have hbool := hb.resolve_right (by simp [hnil])
    rw [run_nil (hi ▸ hnil)]
    exact coreFinish_ready hr hbool
  | @byte s r i b hdrop hne _ ih =>
    filter_upwards [ih] with d hd sc st hr hi hb
    have hb36 : 36 ∉ [b] := by simpa using Ne.symm hne
    have htext : run c (c.callbacks d) s parent false sc =
        run c (c.callbacks d) s parent false (sc.collect [b]) :=
      run_text [b] hr.plain hb36 (hi ▸ hdrop)
    have hready : (sc.collect [b]).Ready := by
      refine ⟨hr.plain,?_,hr.vals⟩
      intro hmem
      cases List.mem_append.mp hmem with
      | inl hmem => exact hr.noDollar hmem
      | inr hmem => exact hb36 hmem
    have hnext : (sc.collect [b]).i = i+1 := by
      rw [← hi]
      rfl
    have hrest : 36 ∈ s.drop i → 36 ∈ s.drop (i+1) := by
      intro hmem
      rw [hdrop] at hmem
      rw [drop_succ hdrop]
      exact (List.mem_cons.mp hmem).resolve_left (Ne.symm hne)
    rw [htext]
    exact hd (sc.collect [b]) st hready hnext (hb.imp_right hrest)
  | @call s r i j v args hdrop hv hargs hlen _ _ ihargs ih =>
    filter_upwards [ih,eventually_mem fun a ha => (ihargs a ha).parseString]
      with d hd hps sc st hr hi hb
    have hmap := mapM_self fun a ha => hps a ha st
    obtain ⟨a,b,rest,rfl⟩ : ∃ a b rest, args = a::b::rest := by
      match args, hlen with
      | a::b::rest, _ => exact ⟨a,b,rest,rfl⟩
    have hcall := callFunc_self fun x hx => hps x hx st
    rw [run_call hr.plain (hi ▸ hdrop) hv hc (hi ▸ hargs),bind_ok hmap,bind_ok hcall]
    exact hd _ st (hr.called _ _) rfl (.inl ⟨_,List.mem_append_right _ List.mem_cons_self⟩)

/-- A constant text is its own value. -/
theorem Constant.parseString {a : Bytes} (h : Constant a 0) (parent : Parent)
    (hc : c.funcMap eqName = some stringEq) : ∀ᶠ d in Filter.atTop,
      ∀ st, (c.callbacks d).parseString a parent false st = .ok (a,st) :=
  (h.settled hc).parseString

end Constants

/-- Constant values are data. -/
theorem data_of_constant {a b : Bytes} (ha : Constant a 0) (hb : Constant b 0) : Data a b := by
  intro ω c x y st parent parseAssign hc hx hy hfx hfy hbx hby
  apply eventually_of_succ
  filter_upwards [eventually_succ (ha.parseString parent hc),
    eventually_succ (hb.parseString parent hc)] with d hda hdb
  have hself : ∀ z ∈ [a,b], (c.callbacks (d+1)).parseString z parent false st = .ok (z,st) := by
    intro z hz
    simp only [List.mem_cons,List.not_mem_nil,or_false] at hz
    cases hz with
    | inl hz => exact hz ▸ hda st
    | inr hz => exact hz ▸ hdb st
  rw [parseCore_template d hc hx hy hfx hfy hbx hby,callFunc_self hself]
  simp

/-! ### Arguments are shorter than their text -/

theorem trimWords_length (ws : List Bytes) (n : ℕ) (s : Bytes) :
    (trimWords ws n s).length ≤ s.length := by
  induction n generalizing s with
  | zero => exact Nat.le_refl _
  | succ n ih =>
    rw [trimWords]
    cases ws.find? fun w => w.isPrefixOf s with
    | none => exact Nat.le_refl _
    | some w =>
      have hdrop : (s.drop w.length).length ≤ s.length := by
        rw [List.length_drop]
        exact Nat.sub_le _ _
      exact (ih _).trans hdrop

theorem trimSpace_length (s : Bytes) : (trimSpace s).length ≤ s.length := by
  have hleft := trimWords_length spaces s.length s
  have hright := trimWords_length (spaces.map List.reverse) (trimWords spaces s.length s).length
    (trimWords spaces s.length s).reverse
  rw [List.length_reverse] at hright
  unfold trimSpace
  rw [List.length_reverse]
  exact hright.trans hleft

/-- The arguments so far are shorter than the text, and so will be the next. -/
structure Args.Short (s : Bytes) (a : Args) : Prop where
  start : 1 ≤ a.start
  args : ∀ x ∈ a.args, x.length < s.length

theorem Args.Short.next {s arg : Bytes} {a : Args} (h : a.Short s)
    (hs : sub s a.start a.j = .ok arg) :
    ∀ x ∈ if trimSpace arg = [] then a.args else a.args++[trimSpace arg], x.length < s.length := by
  have hlen : arg.length < s.length := by
    have hstart := h.start
    rw [sub] at hs
    split at hs
    next hle =>
      cases hs
      rw [List.length_drop,List.length_take]
      omega
    · cases hs
  intro x hx
  split at hx
  · exact h.args x hx
  · cases List.mem_append.mp hx with
    | inl hx => exact h.args x hx
    | inr hx =>
      rw [List.mem_singleton.mp hx]
      exact (trimSpace_length arg).trans_lt hlen

/-- The arguments a pass of the loop leaves. -/
def ArgsShort (s : Bytes) : Sum (List Bytes × ℕ) Args → Prop
  | .inl r => ∀ x ∈ r.1, x.length < s.length
  | .inr a => a.Short s

theorem argsComma_short {s : Bytes} {a a' : Args} {b : UInt8} (h : a.Short s)
    (ha : argsComma s a b = .ok a') : a'.Short s := by
  rw [argsComma] at ha
  split at ha
  · obtain ⟨arg,hsub,ha⟩ := except_bind_ok ha
    cases ha
    exact ⟨Nat.succ_pos _,h.next hsub⟩
  · cases ha
    exact h

theorem argsStep_short {s : Bytes} {a : Args} {b : UInt8} {r : Sum (List Bytes × ℕ) Args}
    (h : a.Short s) (hr : argsStep s a b = .ok r) : ArgsShort s r := by
  rw [argsStep] at hr
  split at hr
  · cases hr
    exact ⟨h.start,h.args⟩
  split at hr
  · cases hr
    refine ⟨?_,h.args⟩
    show 1 ≤ if a.first = true then a.j+1 else a.start
    split
    · exact Nat.succ_pos _
    · exact h.start
  · obtain ⟨a',ha,hr⟩ := except_bind_ok hr
    have ha' := argsComma_short h ha
    rw [argsClose] at hr
    split at hr
    · cases hr
    split at hr
    · split at hr
      · cases hr
        exact ⟨ha'.start,ha'.args⟩
      · obtain ⟨arg,hsub,hr⟩ := except_bind_ok hr
        cases hr
        exact ha'.next hsub
    · cases hr
      exact ⟨ha'.start,ha'.args⟩

theorem argsLoop_short {s : Bytes} (n : ℕ) : ∀ {a : Args} {r : List Bytes × ℕ}, a.Short s →
    argsLoop s n a = .ok (some r) → ∀ x ∈ r.1, x.length < s.length := by
  induction n with
  | zero => exact fun _ h => nomatch h
  | succ n ih =>
    intro a r ha h
    rw [argsLoop] at h
    split at h
    · cases h
    · obtain ⟨x,hx,h⟩ := except_bind_ok h
      have hshort := argsStep_short ha hx
      cases x with
      | inl r' =>
        cases h
        exact hshort
      | inr a' => exact ih hshort h

/-! ### Words -/

/-- The scan once word bytes have been collected. -/
def Scan.gather (sc : Scan) (t : Bytes) : Scan := { sc with
  i := sc.i+t.length,token := sc.token++t
  status := { sc.status with
    curlyBracesLeft := sc.status.curlyBracesLeft || decide (123 ∈ t) } }

theorem Scan.gather_nil (sc : Scan) : sc.gather [] = sc := by
  simp [Scan.gather]

theorem Scan.gather_append (sc : Scan) (t u : Bytes) :
    (sc.gather t).gather u = sc.gather (t++u) := by
  simp [Scan.gather,Nat.add_assoc,Bool.or_assoc]

theorem run_gather {c : Conf ω} {cb : Callbacks ω} {s : Bytes} {parent : Parent}
    {parseAssign : Bool} (t : Bytes) : ∀ {x : Scan} {r : Bytes}, x.status.isSlice = false →
      x.status.isVariable = true → (∀ b ∈ t, isWordByte b = true) → s.drop x.i = t++r →
        run c cb s parent parseAssign x = run c cb s parent parseAssign (x.gather t) := by
  induction t with
  | nil =>
    intro sc r _ _ _ _
    rw [sc.gather_nil]
  | cons b t ih =>
    intro sc r hs hv ht h
    have hb := ht b List.mem_cons_self
    have ht' : ∀ b ∈ t, isWordByte b = true := fun b h => ht b (List.mem_cons_of_mem _ h)
    have hone : decide (123 ∈ [b]) = decide (b = 123) := by
      simp [eq_comm]
    calc run c cb s parent parseAssign sc
        = run c cb s parent parseAssign (sc.gather [b]) := by
          rw [run_cons h,coreStep_word hs hv,wordStep,if_pos hb,pure_bind,Scan.gather,hone]
          rfl
      _ = run c cb s parent parseAssign (sc.gather (b::t)) := by
          rw [ih (x := sc.gather [b]) hs hv ht' (drop_succ h),sc.gather_append]
          rfl

theorem getWord_dollar {w : Bytes} {status : Status} {r : Bytes × Bool × Status}
    (h : getWord (36::w) status = .ok r) : r.2.1 = true ∧ r.1.length ≤ w.length := by
  have hword : ∀ (u : Bytes) (status' : Status), u.length ≤ w.length →
      (if u = [] then Except.error Panic.index else .ok (u,true,status')) = .ok r →
        r.2.1 = true ∧ r.1.length ≤ w.length := by
    intro u status' hu h
    split at h
    · cases h
    · cases h
      exact ⟨rfl,hu⟩
  unfold getWord at h
  dsimp only [bind,Except.bind] at h
  rw [if_pos rfl] at h
  split at h
  · cases w with
    | nil => cases h
    | cons b w => exact hword w _ (Nat.le_succ _) h
  · exact hword w _ (Nat.le_refl _) h

/-! ### A configuration with `string_eq` alone -/

/-- There is no other function. -/
def lone : Conf Unit := ⟨fun name => if name = eqName then some stringEq else none,id⟩

def noParent : Parent := fun _ => none

theorem lone_funcMap : lone.funcMap eqName = some stringEq := by
  simp [lone]

theorem eq_of_findFunc {name : Bytes} (h : lone.findFunc name = true) : name = eqName := by
  by_contra hne
  simp [Conf.findFunc,lone,hne] at h

/-- No variable has a name of at most `n` bytes. -/
def Lone (n : ℕ) (st : Store Unit) : Prop := ∀ w : Bytes, w.length ≤ n → st.rootMap w = none

section Lone
variable {n : ℕ} {st : Store Unit} {s : Bytes} {sc : Scan}

/-- There a short word can only be a call. -/
theorem getVarAndFunc_lone {ps : ParseString Unit} {word : Bytes} {r : Scan × Store Unit}
    (hst : Lone n st) (hw : word.length ≤ n)
    (h : lone.getVarAndFunc ps s word noParent false sc st = .ok r) :
    sub s sc.status.wordStart sc.i = .ok eqName ∧
      ∃ x, argsRun s ⟨sc.i,sc.i,0,true,[]⟩ = .ok (some x) := by
  rw [Conf.getVarAndFunc] at h
  by_cases hf : lone.findFunc word = true
  · rw [if_pos hf] at h
    obtain ⟨name,hname,h⟩ := ofExcept_bind_ok h
    obtain ⟨x,hargs,h⟩ := ofExcept_bind_ok h
    have hfind := findFunc_of_parseFuncArgs hargs
    rw [Conf.parseFuncArgs,if_pos hfind] at hargs
    rw [eq_of_findFunc hfind] at hname
    refine ⟨hname,?_⟩
    cases x with
    | some x => exact ⟨x,hargs⟩
    | none => cases h
  · have hfind : findVal word noParent st = .ok (none,st) := by
      rw [findVal,hst word hw]
      rfl
    rw [if_neg hf,bind_ok hfind] at h
    cases h

/-- The word behind a `$` is then the name of the function. -/
theorem eq_of_close {w : Bytes} {ps : ParseString Unit} {x : Bytes × Bool × Status}
    {r : Scan × Store Unit} (hst : Lone n st) (hw : w.length ≤ n)
    (hsub : sub s (sc.i+1) (sc.i+1+w.length) = .ok w)
    (hget : getWord (sc.dollar.gather w).token (sc.dollar.gather w).status = .ok x)
    (h : lone.getVarAndFunc ps s x.1 noParent false
      { sc.dollar.gather w with status := x.2.2 } st = .ok r) :
    w = eqName ∧ ∃ x, argsRun s ⟨sc.i+10,sc.i+10,0,true,[]⟩ = .ok (some x) := by
  have hshort : x.1.length ≤ w.length := (getWord_dollar hget).2
  obtain ⟨hname,y,hy⟩ := getVarAndFunc_lone hst (by omega) h
  rw [getWord_status hget] at hname
  have heq : w = eqName := by
    have := hsub.symm.trans hname
    exact Except.ok.inj this
  have hi : (sc.dollar.gather w).i = sc.i+10 := by
    show sc.i+1+w.length = sc.i+10
    rw [heq,eqName_eq]
    rfl
  refine ⟨heq,y,?_⟩
  rw [← hi]
  exact hy

/-- A `$` that a scan gets over begins a call. -/
theorem call_of_ok {cb : Callbacks Unit} {t : Bytes} {r : Any × Store Unit} (hst : Lone n st)
    (hs : s.length ≤ n) (hp : sc.status.Plain) (hdrop : s.drop sc.i = 36::t)
    (h : run lone cb s noParent false sc st = .ok r) :
    ∃ v r' x, t = eqName++v::r' ∧ isWordByte v = false ∧
      argsRun s ⟨sc.i+10,sc.i+10,0,true,[]⟩ = .ok (some x) := by
  let w := t.takeWhile isWordByte
  have ht : t = w++t.dropWhile isWordByte := (List.takeWhile_append_dropWhile).symm
  have hw : ∀ b ∈ w, isWordByte b = true := fun b hb =>
    List.all_eq_true.mp List.all_takeWhile b hb
  have hlen : s.length = sc.i+1+w.length+(t.dropWhile isWordByte).length := by
    have h1 := congrArg List.length hdrop
    have h2 := congrArg List.length ht
    rw [List.length_append] at h2
    rw [List.length_drop,List.length_cons] at h1
    omega
  have hword : s.drop (sc.dollar.gather w).i = t.dropWhile isWordByte := by
    rw [Scan.gather,← List.drop_drop]
    show List.drop w.length (s.drop (sc.i+1)) = _
    rw [drop_succ hdrop]
    conv_lhs => rw [ht]
    exact List.drop_left
  have hsub : sub s (sc.i+1) (sc.i+1+w.length) = .ok w :=
    sub_of_drop ((drop_succ hdrop).trans ht) (by omega) rfl
  rw [run_dollar hp hdrop,run_gather w (x := sc.dollar) hp.isSlice rfl hw
    ((drop_succ hdrop).trans ht)] at h
  have hslice : (sc.dollar.gather w).status.isSlice = false := hp.isSlice
  cases hr : t.dropWhile isWordByte with
  | nil =>
    -- the text ends with the word, so that there is no bracket
    rw [hr] at hword hlen
    have htoken : (sc.dollar.gather w).token ≠ [] := List.cons_ne_nil 36 w
    rw [run_nil hword,coreFinish,if_neg htoken] at h
    obtain ⟨x,hget,h⟩ := ofExcept_bind_ok h
    have hvar : x.2.1 = true := (getWord_dollar hget).1
    dsimp only at h
    rw [if_pos hvar] at h
    obtain ⟨sc',st',hclose,_⟩ := bind_eq_ok h
    obtain ⟨heq,y,hy⟩ := eq_of_close hst (by omega) hsub hget hclose
    have hend : s[sc.i+10]? = none := by
      apply List.getElem?_eq_none
      rw [hlen,heq,eqName_eq]
      exact Nat.le_refl _
    rw [argsRun,argsLoop,hend] at hy
    cases hy
  | cons v r' =>
    have hv : isWordByte v = false := by
      have hhead := List.head?_dropWhile_not isWordByte t
      rw [hr] at hhead
      simpa using hhead
    rw [hr] at hword
    rw [run_cons hword,coreStep_word hslice rfl,wordStep,hv,if_neg Bool.false_ne_true] at h
    obtain ⟨sc',st',hstep,_⟩ := bind_eq_ok h
    obtain ⟨x,hget,hstep⟩ := ofExcept_bind_ok hstep
    obtain ⟨sc'',st'',hclose,_⟩ := bind_eq_ok hstep
    obtain ⟨heq,y,hy⟩ := eq_of_close hst (by omega) hsub hget hclose
    exact ⟨v,r',y,by rw [ht,heq,hr],hv,hy⟩

/-- From some depth on a program returns. -/
def Returns {α : Type} (m : ℕ → M Unit α) (st : Store Unit) : Prop :=
  ∀ᶠ d in Filter.atTop, ∃ r, m d st = .ok r

/-- `ParseString` at a depth. -/
def expand (a : Bytes) (d : ℕ) : M Unit Bytes := (lone.callbacks d).parseString a noParent false

theorem Returns.bind {α β : Type} {m : ℕ → M Unit α} {f : ℕ → α → M Unit β}
    (h : Returns (fun d => m d >>= f d) st) : Returns m st := by
  filter_upwards [h] with d hd
  have ⟨r,hr⟩ := hd
  have ⟨a,t,ha,_⟩ := bind_eq_ok hr
  exact ⟨(a,t),ha⟩

/-- What follows a program whose value is known returns, too. -/
theorem Returns.then {α β : Type} {m : ℕ → M Unit α} {f : ℕ → α → M Unit β} {a : α}
    (h : Returns (fun d => m d >>= f d) st) (ha : ∀ᶠ d in Filter.atTop, m d st = .ok (a,st)) :
    Returns (fun d => f d a) st := by
  filter_upwards [h,ha] with d hd had
  rwa [bind_ok had] at hd

/-- If the arguments are expanded and are constant when they are, then they are. -/
theorem constant_args {args : List Bytes}
    (hconst : ∀ a ∈ args, Returns (expand a) st → Constant a 0)
    (h : Returns (fun d => args.mapM fun a => expand a d) st) : ∀ a ∈ args, Constant a 0 := by
  induction args with
  | nil => exact fun a ha => nomatch ha
  | cons a args ih =>
    have hcons : Returns (fun d => expand a d >>= fun b =>
        (args.mapM fun a => expand a d) >>= fun bs => pure (b::bs)) st := by
      filter_upwards [h] with d hd
      rwa [List.mapM_cons] at hd
    have ha := hconst a List.mem_cons_self hcons.bind
    have hself : ∀ᶠ d in Filter.atTop, expand a d st = .ok (a,st) := by
      filter_upwards [ha.parseString noParent lone_funcMap] with d hd
      exact hd st
    have hrest := ih (fun b hb => hconst b (List.mem_cons_of_mem a hb)) (hcons.then hself).bind
    intro b hb
    cases List.mem_cons.mp hb with
    | inl hb => exact hb ▸ ha
    | inr hb => exact hrest b hb

/-- A text that is expanded there is scanned. -/
theorem returns_run {a : Bytes} (h : Returns (expand a) st) (h36 : 36 ∈ a) :
    Returns (fun d => run lone (lone.callbacks d) a noParent false .init) st := by
  filter_upwards [eventually_succ h] with d hd
  obtain ⟨r,hr⟩ := hd
  change (parseBody lone (lone.callbacks d) a noParent false >>= _) st = .ok r at hr
  obtain ⟨v,t,hv,_⟩ := bind_eq_ok hr
  rw [parseBody,if_pos rfl,coreBody_eq_run,if_pos h36] at hv
  exact ⟨(v,t),hv⟩

/-- `string_eq` wants two arguments. -/
theorem two_args {args : List Bytes} {ps : ℕ → ParseString Unit} {parent : Parent}
    (h : Returns (fun d => callFunc stringEq (ps d) ⟨eqName,args,.other 0,parent⟩) st) :
    2 ≤ args.length := by
  match args, h with
  | _::_::_, _ => simp
  | [_], h =>
    have ⟨d,r,hr⟩ := h.exists
    cases hr
  | [], h =>
    have ⟨d,r,hr⟩ := h.exists
    cases hr

/-- A text is constant from where a scan gets to its end. -/
theorem constant_of_run (hst : Lone n st) (s : Bytes) (hs : s.length ≤ n) (sc : Scan)
    (hp : sc.status.Plain)
    (h : Returns (fun d => run lone (lone.callbacks d) s noParent false sc) st) :
    Constant s sc.i := by
  induction hlen : s.length using Nat.strong_induction_on generalizing s sc with
  | _ len ihargs =>
    induction hleft : s.length-sc.i using Nat.strong_induction_on generalizing sc with
    | _ left ih =>
      cases hdrop : s.drop sc.i with
      | nil => exact .done hdrop
      | cons b t =>
        have hi : sc.i < s.length := by
          have := congrArg List.length hdrop
          rw [List.length_drop,List.length_cons] at this
          omega
        by_cases h36 : b = 36
        · subst h36
          have ⟨d,r,hr⟩ := h.exists
          obtain ⟨v,r',⟨args,j⟩,rfl,hv,hargs⟩ := call_of_ok hst hs hp hdrop hr
          have hj : sc.i+10 < j := argsLoop_index _ hargs
          have hshort : ∀ a ∈ args, a.length < s.length :=
            argsLoop_short _ ⟨by show 1 ≤ sc.i+10; omega,by simp⟩ hargs
          have hcall : Returns (fun d => (args.mapM fun a => expand a d) >>= fun args =>
              callFunc stringEq (lone.callbacks d).parseString ⟨eqName,args,.other 0,noParent⟩ >>=
                fun val => run lone (lone.callbacks d) s noParent false
                  (sc.called (if v = 125 then j+1 else j) val)) st := by
            filter_upwards [h] with d hd
            rwa [run_call hp hdrop hv lone_funcMap hargs] at hd
          have hconst : ∀ a ∈ args, Constant a 0 := by
            apply constant_args _ hcall.bind
            intro a ha hret
            by_cases ha36 : 36 ∈ a
            · exact ihargs a.length (hlen ▸ hshort a ha) a ((hshort a ha).le.trans hs) .init
                ⟨rfl,rfl,rfl⟩ (returns_run hret ha36) rfl
            · exact constant_of_noDollar rfl ha36
          have hself : ∀ᶠ d in Filter.atTop, ∀ a ∈ args, expand a d st = .ok (a,st) := by
            apply eventually_mem
            intro a ha
            filter_upwards [(hconst a ha).parseString noParent lone_funcMap] with d hd
            exact hd st
          have hafter := hcall.then (hself.mono fun d hd => mapM_self hd)
          have htwo := two_args hafter.bind
          obtain ⟨a,b,rest,rfl⟩ : ∃ a b rest, args = a::b::rest := by
            match args, htwo with
            | a::b::rest, _ => exact ⟨a,b,rest,rfl⟩
          have hrest := hafter.then (hself.mono fun d hd => callFunc_self hd)
          have hnext : sc.i < if v = 125 then j+1 else j := by
            split <;> omega
          refine .call hdrop hv hargs htwo hconst ?_
          exact ih _ (by show s.length-(if v = 125 then j+1 else j) < left; omega) _
            (Scan.called_plain hp _ _) hrest rfl
        · have hb36 : 36 ∉ [b] := by simpa using Ne.symm h36
          refine .byte hdrop h36 ?_
          refine ih _ (by show s.length-(sc.i+1) < left; omega) (sc.collect [b]) hp ?_ rfl
          filter_upwards [h] with d hd
          rwa [run_text [b] hp hb36 hdrop] at hd

end Lone

/-- A variable for each of two values, with names longer than both. -/
def twoNames (a b : Bytes) : Bytes × Bytes :=
  (List.replicate (max a.length b.length+1) 120,List.replicate (max a.length b.length+1) 121)

def twoStore (a b : Bytes) : Store Unit where
  rootMap name :=
    if name = (twoNames a b).1 then some (.str a)
    else if name = (twoNames a b).2 then some (.str b)
    else none
  heap _ := []
  fresh := 0
  world := ()

theorem twoNames_isName (a b : Bytes) : IsName (twoNames a b).1 ∧ IsName (twoNames a b).2 := by
  have hrep : ∀ (n : ℕ) (v : UInt8), isNameByte v = true → IsName (List.replicate (n+1) v) := by
    intro n v hv
    refine ⟨List.cons_ne_nil _ _,?_⟩
    intro w hw
    rw [List.eq_of_mem_replicate hw]
    exact hv
  exact ⟨hrep _ 120 (by decide),hrep _ 121 (by decide)⟩

theorem twoNames_findFunc (a b : Bytes) :
    lone.findFunc (twoNames a b).1 = false ∧ lone.findFunc (twoNames a b).2 = false := by
  have hrep : ∀ (n : ℕ) (v : UInt8), v ∉ eqName → lone.findFunc (List.replicate (n+1) v) = false := by
    intro n v hv
    rw [Bool.eq_false_iff]
    intro hf
    have heq := eq_of_findFunc hf
    apply hv
    rw [← heq]
    exact List.mem_cons_self
  exact ⟨hrep _ 120 (by decide),hrep _ 121 (by decide)⟩

theorem twoStore_lone (a b : Bytes) : Lone (max a.length b.length) (twoStore a b) := by
  intro w hw
  have hne : ∀ v : UInt8, w ≠ List.replicate (max a.length b.length+1) v := by
    intro v he
    rw [he,List.length_replicate] at hw
    omega
  simp [twoStore,twoNames,hne]

theorem twoStore_bound (a b : Bytes) : Bound (twoStore a b) noParent (twoNames a b).1 a ∧
    Bound (twoStore a b) noParent (twoNames a b).2 b := by
  have hne : (twoNames a b).2 ≠ (twoNames a b).1 := by
    intro h
    have hhead := congrArg List.head? h
    exact absurd hhead (by simp [twoNames,List.replicate_succ])
  constructor
  · simp [Bound,twoStore]
  · simp [Bound,twoStore,hne]

/-- A value that is expanded among names longer than itself is constant. -/
theorem constant_of_expand {n : ℕ} {st : Store Unit} {a : Bytes} (hst : Lone n st)
    (ha : a.length ≤ n) (h : Returns (expand a) st) : Constant a 0 := by
  by_cases h36 : 36 ∈ a
  · exact constant_of_run hst a ha .init ⟨rfl,rfl,rfl⟩ (returns_run h h36)
  · exact constant_of_noDollar rfl h36

theorem constant_of_data {a b : Bytes} (h : Data a b) : Constant a 0 ∧ Constant b 0 := by
  have ⟨hnx,hny⟩ := twoNames_isName a b
  have ⟨hfx,hfy⟩ := twoNames_findFunc a b
  have ⟨hbx,hby⟩ := twoStore_bound a b
  have hst := twoStore_lone a b
  have hdata := h Unit lone _ _ (twoStore a b) noParent false lone_funcMap hnx hny hfx hfy hbx hby
  -- the two values are expanded one after the other
  have hboth : Returns (fun d => expand a d >>= fun a' => expand b d >>= fun b' =>
      (if a' ≠ b' then pure false else pure true) >>= fun rv => pure (Any.bool rv))
      (twoStore a b) := by
    apply eventually_of_succ
    filter_upwards [eventually_succ hdata] with d hd
    rw [parseCore_template d lone_funcMap hnx hny hfx hfy hbx hby,callFunc_stringEq] at hd
    simp only [eqArgs,bind_assoc] at hd
    exact ⟨_,hd⟩
  have ha := constant_of_expand hst (le_max_left _ _) hboth.bind
  have hself : ∀ᶠ d in Filter.atTop, expand a d (twoStore a b) = .ok (a,twoStore a b) := by
    filter_upwards [ha.parseString noParent lone_funcMap] with d hd
    exact hd _
  exact ⟨ha,constant_of_expand hst (le_max_right _ _) (hboth.then hself).bind⟩

/-- `$string_eq($x, $y)` compares two values if and only if each `$` in them begins another call of
`string_eq` that cannot fail, as none does in a value without a `$`. -/
theorem data_iff (a b : Bytes) : Data a b ↔ Constant a 0 ∧ Constant b 0 :=
  ⟨constant_of_data,fun h => data_of_constant h.1 h.2⟩

/-- `x` and `y` are bound to `$z`. -/
def dollarStore : Store Unit where
  rootMap name := if name = ascii "x" ∨ name = ascii "y" then some (.str (ascii "$z")) else none
  heap _ := []
  fresh := 0
  world := ()

/-- The value `$z` is looked up. -/
theorem not_data_dollar : ¬(∀ a b : Bytes, Data a b) ∧
    lone.parseCore 2 (eqTemplate (ascii "x") (ascii "y")) noParent false dollarStore =
      .error (.panic (.notFound (ascii "z"))) := by
  refine ⟨?_,by rfl⟩
  intro h
  have ⟨hconst,_⟩ := constant_of_data (h (ascii "$z") (ascii "$z"))
  cases hconst with
  | done hdrop => cases hdrop
  | byte hdrop hne _ =>
    cases hdrop
    exact hne rfl
  | call hdrop => cases hdrop

end GurlConf
end RecycleBin
