import RecycleBin.GurlReference

/-! `$string_eq` in a template. Its arguments are expanded where the call stands, and the
function expands what came of them once more: a value is taken for a template. -/
namespace RecycleBin
namespace GurlConf
open GurlText Lockstep

variable {ω : Type}

/-- The loop of `StringEq`, up to the first argument that differs. -/
def eqArgs (ps : ParseString ω) (parent : Parent) (a : Bytes) : List Bytes → M ω Bool
  | [] => pure true
  | arg::args => do
    let arg ← ps arg parent false
    if a ≠ arg then pure false else eqArgs ps parent a args

def stringEq : Func ω := fun ps val =>
  match val.callArgs with
  | a::b::args => do
    let a ← ps a val.parent false
    let rv ← eqArgs ps val.parent a (b::args)
    pure ({ val with callArgs := a::b::args,rvArgs := .bool rv },none)
  | _ => pure (val,some (ascii "Too few parameters for calling $$string_eq()"))

def eqName : Bytes := ascii "string_eq"

theorem eqName_eq : eqName = [115,116,114,105,110,103,95,101,113] := by
  have hlist : "string_eq".toList = ['s','t','r','i','n','g','_','e','q'] := String.toList_ofList
  rw [eqName,ascii,hlist]
  rfl

/-- `$string_eq($x, $y)`. -/
def eqTemplate (x y : Bytes) : Bytes := 36::(eqName++40::36::(x++44::32::36::(y++[41])))

/-- The variable is bound to a string. -/
def Bound (st : Store ω) (parent : Parent) (x a : Bytes) : Prop :=
  (st.rootMap x).or (parent x) = some (.str a)

/-- The values are data: whatever variables of a configuration with `string_eq` are bound to them,
and whatever else is bound or not, from some depth on the template is true iff they are equal. -/
def Data (a b : Bytes) : Prop :=
  ∀ (ω : Type) (c : Conf ω) (x y : Bytes) (st : Store ω) (parent : Parent) (parseAssign : Bool),
    c.funcMap eqName = some stringEq → IsName x → IsName y → c.findFunc x = false →
      c.findFunc y = false → Bound st parent x a → Bound st parent y b →
        ∀ᶠ d in Filter.atTop, c.parseCore d (eqTemplate x y) parent parseAssign st =
          .ok (.bool (a = b),st)

/-! ### The arguments of a call -/

/-- The loop of `parseFuncArgs` with passes for the whole text. -/
def argsRun (s : Bytes) (a : Args) : Except Panic (Option (List Bytes × ℕ)) :=
  argsLoop s (s.length+1) a

theorem argsRun_some {s : Bytes} {a : Args} {b : UInt8} (h : s[a.j]? = some b) :
    argsRun s a = argsStep s a b >>= fun r =>
      match r with
      | .inl r => .ok (some r)
      | .inr a => argsRun s a := by
  rw [argsRun,argsLoop,h]
  dsimp only
  cases hstep : argsStep s a b with
  | error p => rfl
  | ok r =>
    cases r with
    | inl r => rfl
    | inr a' =>
      have hlt : a.j < a'.j := argsStep_index hstep
      exact argsLoop_congr s.length (by omega) (by omega)

/-- Bytes that are no blanks, brackets and commas are passed over. -/
theorem argsRun_text {s : Bytes} (t : Bytes) : ∀ {a : Args} {r : Bytes},
    (∀ v ∈ t, v ≠ 32 ∧ v ≠ 40 ∧ v ≠ 41 ∧ v ≠ 44) → s.drop a.j = t++r →
      argsRun s a = argsRun s { a with j := a.j+t.length } := by
  induction t with
  | nil => exact fun _ _ => rfl
  | cons v t ih =>
    intro a r ht h
    have ⟨h32,h40,h41,h44⟩ := ht v List.mem_cons_self
    have ht' : ∀ v ∈ t, v ≠ 32 ∧ v ≠ 40 ∧ v ≠ 41 ∧ v ≠ 44 :=
      fun v h => ht v (List.mem_cons_of_mem _ h)
    have hv : s[a.j]? = some v := getElem?_of_drop h
    have hstep : argsStep s a v = .ok (.inr { a with j := a.j+1 }) := by
      rw [argsStep,if_neg h32,if_neg h40,argsComma,if_neg (fun h => h44 h.1)]
      show argsClose s a = _
      rw [argsClose,hv]
      exact if_neg h41
    rw [argsRun_some hv,hstep]
    show argsRun s { a with j := a.j+1 } = _
    rw [ih (a := { a with j := a.j+1 }) ht' (drop_succ h),List.length_cons,
      show a.j+1+t.length = a.j+(t.length+1) by omega]

/-! ### White space around an argument -/

theorem trimWords_none {ws : List Bytes} {b : UInt8} (h : ∀ w ∈ ws, w ≠ [] ∧ b ∉ w) (n : ℕ)
    (r : Bytes) : trimWords ws n (b::r) = b::r := by
  cases n with
  | zero => rfl
  | succ n =>
    have hnone : (ws.find? fun w => w.isPrefixOf (b::r)) = none := by
      rw [List.find?_eq_none]
      intro w hw hpre
      have ⟨hne,hb⟩ := h w hw
      cases w with
      | nil => exact hne rfl
      | cons v w =>
        have hv : v = b := (List.cons_prefix_cons.mp (List.isPrefixOf_iff_prefix.mp hpre)).1
        exact hb (hv ▸ List.mem_cons_self)
    rw [trimWords,hnone]

/-- No white space. -/
def Visible (b : UInt8) : Prop := ∀ w ∈ spaces, b ∉ w

theorem trimSpace_self {u : Bytes} {b v : UInt8} (hb : Visible b) (hv : Visible v)
    (hu : u.head? = some b) (hu' : u.getLast? = some v) : trimSpace u = u := by
  have hne : ∀ w ∈ spaces, w ≠ [] := by decide
  obtain ⟨r,rfl⟩ := List.head?_eq_some_iff.mp hu
  have hlast : (b::r).reverse.head? = some v := by rw [List.head?_reverse,hu']
  obtain ⟨r',hr'⟩ := List.head?_eq_some_iff.mp hlast
  have hrev : ∀ w ∈ spaces.map List.reverse, w ≠ [] ∧ v ∉ w := by
    intro w hw
    obtain ⟨w',hw',rfl⟩ := List.mem_map.mp hw
    exact ⟨fun h => hne w' hw' (List.reverse_eq_nil_iff.mp h),
      fun h => hv w' hw' (List.mem_reverse.mp h)⟩
  rw [trimSpace,trimWords_none fun w hw => ⟨hne w hw,hb w hw⟩]
  rw [hr',trimWords_none hrev,← hr',List.reverse_reverse]

theorem trimSpace_blank (u : Bytes) : trimSpace (32::u) = trimSpace u := by
  have hfind : (spaces.find? fun w => w.isPrefixOf (32::u)) = some [32] := by rfl
  have htrim : trimWords spaces (32::u).length (32::u) = trimWords spaces u.length u := by
    rw [List.length_cons,trimWords,hfind]
    rfl
  rw [trimSpace,htrim]
  rfl

theorem visible_name {b : UInt8} (h : isNameByte b = true) : Visible b := by
  have hspaces : spaces.all (fun w => w.all fun v => !isNameByte v) = true := by decide
  intro w hw hb
  have hv := List.all_eq_true.mp (List.all_eq_true.mp hspaces w hw) b hb
  rw [h] at hv
  cases hv

/-- A reference is no shorter for being trimmed. -/
theorem trimSpace_bare {x : Bytes} (hx : IsName x) : trimSpace (36::x) = 36::x := by
  have hdollar : Visible 36 := by
    unfold Visible
    decide
  have hlast : (36::x).getLast? = x.getLast? := by
    cases x with
    | nil => exact absurd rfl hx.ne_nil
    | cons b x => rfl
  obtain ⟨v,hv⟩ := Option.isSome_iff_exists.mp (List.getLast?_isSome.mpr hx.ne_nil)
  have hmem : v ∈ x := List.mem_of_getLast? hv
  exact trimSpace_self hdollar (visible_name (hx.bytes v hmem)) rfl (hlast.trans hv)

/-! ### The arguments of the template -/

theorem sub_of_drop {s u r : Bytes} {a b : ℕ} (h : s.drop a = u++r) (ha : a ≤ s.length)
    (hb : b = a+u.length) : sub s a b = .ok u := by
  have hlen : s.length-a = u.length+r.length := by
    rw [← List.length_drop,h,List.length_append]
  have hle : a ≤ b ∧ b ≤ s.length := by omega
  rw [sub,if_pos hle,List.drop_take,h,hb,Nat.add_sub_cancel_left,List.take_left]

theorem argsRun_open {s : Bytes} {j : ℕ} (h : s[j]? = some 40) :
    argsRun s ⟨j,j,0,true,[]⟩ = argsRun s ⟨j+1,j+1,1,false,[]⟩ := by
  rw [argsRun_some h]
  rfl

/-- Behind the opening bracket of the only call. -/
theorem argsRun_comma {s u r : Bytes} {j : ℕ} (h : s.drop j = u++44::32::r)
    (hu : ∀ v ∈ u, v ≠ 32 ∧ v ≠ 40 ∧ v ≠ 41 ∧ v ≠ 44) (hj : j ≤ s.length) (hne : trimSpace u ≠ [])
    (args : List Bytes) :
    argsRun s ⟨j,j,1,false,args⟩ =
      argsRun s ⟨j+u.length+2,j+u.length+1,1,false,args++[trimSpace u]⟩ := by
  have hdrop : s.drop (j+u.length) = 44::32::r := by
    rw [← List.drop_drop,h,List.drop_left]
  have hblank : s[j+u.length+1]? = some 32 := getElem?_of_drop (drop_succ hdrop)
  have hcomma : argsComma s ⟨j+u.length,j,1,false,args⟩ 44 =
      .ok ⟨j+u.length+1,j+u.length+1,1,false,args++[trimSpace u]⟩ := by
    rw [argsComma,if_pos ⟨rfl,rfl⟩,sub_of_drop h hj rfl]
    show Except.ok _ = _
    rw [if_neg hne]
  have hstep : argsStep s ⟨j+u.length,j,1,false,args⟩ 44 =
      .ok (.inr ⟨j+u.length+2,j+u.length+1,1,false,args++[trimSpace u]⟩) := by
    rw [argsStep,if_neg (by decide),if_neg (by decide),hcomma]
    show argsClose s _ = _
    rw [argsClose,hblank]
    exact if_neg (by decide)
  rw [argsRun_text u (a := ⟨j,j,1,false,args⟩) hu h,argsRun_some (getElem?_of_drop hdrop),hstep]
  rfl

theorem argsRun_close {s u r : Bytes} {j k : ℕ} (h : s.drop k = u++41::r) (hk : k ≤ s.length)
    (hj : j = k+u.length) (hne : trimSpace u ≠ []) (args : List Bytes) :
    argsRun s ⟨j,k,1,false,args⟩ = .ok (some (args++[trimSpace u],j+1)) := by
  have hget : s[j]? = some 41 := by
    apply getElem?_of_drop (r := r)
    rw [hj,← List.drop_drop,h,List.drop_left]
  have hstep : argsStep s ⟨j,k,1,false,args⟩ 41 = .ok (.inl (args++[trimSpace u],j+1)) := by
    rw [argsStep,if_neg (by decide),if_neg (by decide),argsComma,if_neg (by simp)]
    show argsClose s _ = _
    rw [argsClose,hget]
    show (if (41 : UInt8) = 41 then _ else _) = _
    rw [if_pos rfl,if_neg (by simp),sub_of_drop h hk hj]
    show Except.ok _ = _
    rw [if_neg hne]
  rw [argsRun_some hget,hstep]
  rfl

theorem name_args {x : Bytes} (hx : IsName x) :
    ∀ v ∈ 36::x, v ≠ 32 ∧ v ≠ 40 ∧ v ≠ 41 ∧ v ≠ 44 := by
  intro v hv
  cases List.mem_cons.mp hv with
  | inl h => rw [h]; decide
  | inr h =>
    have hname := hx.bytes v h
    exact ⟨ne_of_name hname (by decide),ne_of_name hname (by decide),ne_of_name hname (by decide),
      ne_of_name hname (by decide)⟩

/-- The two references are the arguments. -/
theorem argsRun_template {x y : Bytes} (hx : IsName x) (hy : IsName y) :
    argsRun (eqTemplate x y) ⟨10,10,0,true,[]⟩ =
      .ok (some ([36::x,36::y],(eqTemplate x y).length)) := by
  have hlen : (eqTemplate x y).length = x.length+y.length+16 := by
    simp [eqTemplate,eqName_eq]
    omega
  have hopen : (eqTemplate x y).drop 10 = 40::((36::x)++44::32::((36::y)++[41])) := by
    rw [eqTemplate,eqName_eq]
    rfl
  have hfirst := drop_succ hopen
  have hsecond : (eqTemplate x y).drop (11+(36::x).length+1) = (32::36::y)++[41] := by
    rw [← List.drop_drop,← List.drop_drop,hfirst,List.drop_left]
    rfl
  have hrest := drop_succ hsecond
  have hbare : ∀ {z : Bytes}, IsName z → trimSpace (36::z) ≠ [] := by
    intro z hz
    rw [trimSpace_bare hz]
    exact List.cons_ne_nil _ _
  have hblank : trimSpace (32::36::y) = 36::y := by
    rw [trimSpace_blank,trimSpace_bare hy]
  have hle : 11 ≤ (eqTemplate x y).length := by omega
  rw [argsRun_open (getElem?_of_drop hopen),argsRun_comma hfirst (name_args hx) hle (hbare hx) [],
    argsRun_text (36::y) (a := ⟨11+(36::x).length+2,_,1,false,_⟩) (name_args hy) hrest,
    argsRun_close hsecond (by simp only [List.length_cons]; omega)
      (by simp only [List.length_cons]; omega) (by rw [hblank]; exact List.cons_ne_nil _ _),
    hblank,trimSpace_bare hx]
  simp only [List.nil_append,List.singleton_append,List.length_cons]
  rw [hlen,show 11+(x.length+1)+2+(y.length+1)+1 = x.length+y.length+16 by omega]

/-! ### Calls in a template -/

/-- The scan behind a call. -/
def Scan.called (sc : Scan) (j : ℕ) (v : Any) : Scan where
  i := j
  token := []
  vals := (startWord sc).vals++[v]
  status := ⟨sc.i+1,false,sc.status.isSlice,sc.status.left,false⟩

theorem Scan.called_plain {sc : Scan} (hp : sc.status.Plain) (j : ℕ) (v : Any) :
    (sc.called j v).status.Plain := ⟨rfl,hp.isSlice,rfl⟩

section Calls
variable {c : Conf ω} {cb : Callbacks ω} {s : Bytes} {parent : Parent} {parseAssign : Bool}
  {sc : Scan}

/-- The call is evaluated on the values of its arguments. -/
theorem getVarAndFunc_call {args : List Bytes} {j : ℕ} (hp : sc.status.Plain)
    (hc : c.funcMap eqName = some stringEq)
    (hname : sub s (sc.dollar.collect eqName).status.wordStart (sc.dollar.collect eqName).i =
      .ok eqName)
    (hargs : argsRun s ⟨sc.i+10,sc.i+10,0,true,[]⟩ = .ok (some (args,j))) :
    c.getVarAndFunc cb.parseString s eqName parent parseAssign (sc.dollar.collect eqName) =
      ((args.mapM fun a => cb.parseString a parent parseAssign) >>= fun args =>
        callFunc stringEq cb.parseString ⟨eqName,args,.other 0,parent⟩ >>= fun val =>
          pure (sc.called j val)) := by
  have hfind : c.findFunc eqName = true := by
    rw [Conf.findFunc,hc]
    rfl
  have hparse : c.parseFuncArgs s eqName (sc.dollar.collect eqName).i = .ok (some (args,j)) := by
    rw [Conf.parseFuncArgs,if_pos hfind]
    exact hargs
  rw [Conf.getVarAndFunc,hfind,if_pos rfl,hname,ofExcept_ok,pure_bind,hparse,ofExcept_ok,pure_bind]
  dsimp only
  simp only [hc]
  congr 1
  funext args
  congr 1
  funext val
  simp only [Scan.called,Scan.collect,Scan.dollar,startWord,hp.curlyBracesLeft]

theorem run_call {v : UInt8} {r : Bytes} {args : List Bytes} {j : ℕ} (hp : sc.status.Plain)
    (h : s.drop sc.i = 36::(eqName++v::r)) (hv : isWordByte v = false)
    (hc : c.funcMap eqName = some stringEq)
    (hargs : argsRun s ⟨sc.i+10,sc.i+10,0,true,[]⟩ = .ok (some (args,j))) :
    run c cb s parent parseAssign sc =
      ((args.mapM fun a => cb.parseString a parent parseAssign) >>= fun args =>
        callFunc stringEq cb.parseString ⟨eqName,args,.other 0,parent⟩ >>= fun val =>
          run c cb s parent parseAssign (sc.called (if v = 125 then j+1 else j) val)) := by
  have hbytes : ∀ b ∈ eqName, isNameByte b = true := by
    rw [eqName_eq]
    exact List.all_eq_true.mp rfl
  have hword : s.drop (sc.dollar.collect eqName).i = v::r := by
    rw [Scan.collect,← List.drop_drop]
    show List.drop eqName.length (s.drop (sc.i+1)) = _
    rw [drop_succ h,List.drop_left]
  have hle : sc.i+1 ≤ s.length := by
    have hlen := congrArg List.length h
    simp only [List.length_drop,List.length_cons] at hlen
    omega
  have hname : sub s (sc.dollar.collect eqName).status.wordStart (sc.dollar.collect eqName).i =
      .ok eqName := sub_of_drop (drop_succ h) hle rfl
  have hget : getWord (sc.dollar.collect eqName).token (sc.dollar.collect eqName).status =
      .ok (eqName,true,(sc.dollar.collect eqName).status) :=
    getWord_bare hp.curlyBracesLeft (by rw [eqName_eq]; decide)
  have hslice : (sc.dollar.collect eqName).status.isSlice = false := hp.isSlice
  rw [run_dollar hp h,run_word eqName (x := sc.dollar) hp.isSlice rfl hbytes (drop_succ h),
    run_cons hword,coreStep_word hslice rfl,wordStep,hv,if_neg Bool.false_ne_true,hget,
    ofExcept_ok,pure_bind]
  dsimp only
  rw [getVarAndFunc_call hp hc hname hargs]
  simp only [bind_assoc,pure_bind]
  congr 1
  funext args
  congr 1
  funext val
  by_cases h125 : v = 125
  · simp only [h125,if_true]
    rfl
  · simp only [h125,if_false]

end Calls

/-! ### The template -/

theorem lookup_of_bound {st : Store ω} {parent : Parent} {x a : Bytes} (h : Bound st parent x a) :
    lookup st parent x = some a := by
  unfold Bound at h
  rw [lookup]
  cases hroot : st.rootMap x with
  | some v =>
    rw [hroot] at h
    have hv : v = .str a := Option.some.inj h
    rw [hv]
    rfl
  | none =>
    rw [hroot,Option.none_or] at h
    rw [h]
    rfl

section Template
variable {c : Conf ω} {parent : Parent} {parseAssign : Bool} {st : Store ω} {x y a b : Bytes}

/-- Where nothing is assigned all of the text is the value. -/
theorem assignLoop_none (cb : Callbacks ω) (parent : Parent) (st : Store ω) {s : Bytes}
    (hs : ∀ b ∈ s, b ≠ 61 ∧ b ≠ 91) (n : ℕ) :
    ∀ {e : Assign}, e.wEnd = 0 → e.word = [] → e.slicePos = .notFound → e.isEqual = false →
      ∃ e', assignLoop cb s parent n e st = .ok (e',st) ∧ e'.word = [] ∧ e'.wEnd = 0 := by
  induction n with
  | zero => exact fun {e} h1 h2 _ _ => ⟨e,rfl,h2,h1⟩
  | succ n ih =>
    intro e h1 h2 h3 h4
    rw [assignLoop]
    cases hv : s[e.i]? with
    | none =>
      dsimp only
      rw [if_pos h2]
      exact ⟨{ e with wEnd := 0 },rfl,h2,rfl⟩
    | some v =>
      have ⟨h61,h91⟩ := hs v (List.mem_of_getElem? hv)
      have hstep : ∃ e', assignStep cb s parent e v st = .ok (.inr e',st) ∧ e'.wEnd = 0 ∧
          e'.word = [] ∧ e'.slicePos = .notFound ∧ e'.isEqual = false := by
        by_cases hvar : e.isVariable = false
        · by_cases h36 : v = 36
          · refine ⟨{ e with i := e.i+1,isVariable := true,wStart := e.i+1 },?_,h1,h2,h3,h4⟩
            simp [assignStep,hvar,h36,h3,h4]
            rfl
          · refine ⟨{ e with i := e.i+1 },?_,h1,h2,h3,h4⟩
            simp [assignStep,hvar,h36]
            rfl
        · refine ⟨{ e with i := e.i+1 },?_,h1,h2,h3,h4⟩
          simp [assignStep,hvar,h61,h91,h3,h4]
          rfl
      have ⟨e',hstep,h1',h2',h3',h4'⟩ := hstep
      dsimp only
      rw [bind_ok hstep]
      exact ih h1' h2' h3' h4'

/-- A text without assignments and indices is all value. -/
theorem parseBody_unassigned {cb : Callbacks ω} {s : Bytes} (hs : ∀ b ∈ s, b ≠ 61 ∧ b ≠ 91) :
    parseBody c cb s parent parseAssign st = coreBody c cb s parent parseAssign st := by
  cases parseAssign with
  | false => rfl
  | true =>
    have ⟨e,he,hword,hend⟩ := assignLoop_none cb parent st hs (s.length+1)
      (e := ⟨0,0,0,[],false,.notFound,0,false⟩) rfl rfl rfl rfl
    have hsub : sub s e.wEnd s.length = .ok s := by
      rw [hend]
      exact sub_of_drop (r := []) (by simp) (Nat.zero_le _) (Nat.zero_add _).symm
    rw [parseBody,if_neg Bool.true_eq_false.mp,bind_ok he,hsub,ofExcept_ok,pure_bind]
    cases hcore : coreBody c cb s parent true st with
    | error e => exact bind_error hcore
    | ok r => exact (bind_ok hcore).trans (congrFun (if_pos hword) _)

theorem coreBody_bare {cb : Callbacks ω} (hx : IsName x) (hf : c.findFunc x = false)
    (h : Bound st parent x a) : coreBody c cb (36::x) parent parseAssign st = .ok (.str a,st) := by
  have hplain : Scan.init.status.Plain := ⟨rfl,rfl,rfl⟩
  have hnil : (36::x).drop (Scan.init.refer (x.length+1) a).i = [] := by
    simp [Scan.refer,Scan.init]
  have htext : (36::x).drop Scan.init.i = 36::(x++[]) := by simp [Scan.init]
  rw [coreBody_eq_run,if_pos List.mem_cons_self,
    run_bare hplain hx hf (lookup_of_bound h) (by simp) htext,run_nil hnil,
    coreFinish_expanded (Scan.Expanded.init.refer (x.length+1))]
  rfl

/-- A reference is expanded to the value of its variable. -/
theorem parseString_bare (d : ℕ) (hx : IsName x) (hf : c.findFunc x = false)
    (h : Bound st parent x a) :
    (c.callbacks (d+1)).parseString (36::x) parent parseAssign st = .ok (a,st) := by
  have hbytes : ∀ b ∈ 36::x, b ≠ 61 ∧ b ≠ 91 := by
    intro b hb
    cases List.mem_cons.mp hb with
    | inl h => rw [h]; decide
    | inr h =>
      have hname := hx.bytes b h
      exact ⟨ne_of_name hname (by decide),ne_of_name hname (by decide)⟩
  have hbody : parseBody c (c.callbacks d) (36::x) parent parseAssign st = .ok (.str a,st) :=
    (parseBody_unassigned hbytes).trans (coreBody_bare hx hf h)
  show (parseBody c (c.callbacks d) (36::x) parent parseAssign >>= _) st = _
  rw [bind_ok hbody]
  rfl

theorem callFunc_stringEq (ps : ParseString ω) (args : List Bytes) :
    callFunc stringEq ps ⟨eqName,a::b::args,.other 0,parent⟩ =
      (ps a parent false >>= fun a => eqArgs ps parent a (b::args) >>= fun rv => pure (.bool rv)) := by
  rw [callFunc,stringEq]
  simp only [bind_assoc,pure_bind]

/-- The template is what the function makes of the two values. -/
theorem parseCore_template (d : ℕ) (hc : c.funcMap eqName = some stringEq) (hx : IsName x)
    (hy : IsName y) (hfx : c.findFunc x = false) (hfy : c.findFunc y = false)
    (hbx : Bound st parent x a) (hby : Bound st parent y b) :
    c.parseCore (d+1) (eqTemplate x y) parent parseAssign st =
      callFunc stringEq (c.callbacks (d+1)).parseString ⟨eqName,[a,b],.other 0,parent⟩ st := by
  have hplain : Scan.init.status.Plain := ⟨rfl,rfl,rfl⟩
  have hargs : argsRun (eqTemplate x y) ⟨Scan.init.i+10,Scan.init.i+10,0,true,[]⟩ =
      .ok (some ([36::x,36::y],(eqTemplate x y).length)) := argsRun_template hx hy
  have hmap : ([36::x,36::y].mapM fun a => (c.callbacks (d+1)).parseString a parent parseAssign) st =
      .ok ([a,b],st) := by
    simp only [List.mapM_cons,List.mapM_nil]
    rw [bind_ok (parseString_bare d hx hfx hbx),bind_assoc,bind_ok (parseString_bare d hy hfy hby)]
    rfl
  show coreBody c (c.callbacks (d+1)) (eqTemplate x y) parent parseAssign st = _
  have hmem : 36 ∈ eqTemplate x y := List.mem_cons_self
  have htext : (eqTemplate x y).drop Scan.init.i =
      36::(eqName++40::36::(x++44::32::36::(y++[41]))) := rfl
  rw [coreBody_eq_run,if_pos hmem,run_call hplain htext (by decide) hc hargs,
    bind_ok hmap]
  have hend : ∀ v : Any, run c (c.callbacks (d+1)) (eqTemplate x y) parent parseAssign
      (Scan.init.called (eqTemplate x y).length v) = pure v := by
    intro v
    rw [run_nil List.drop_length,coreFinish]
    cases v <;> rfl
  simp only [show ((40 : UInt8) = 125) = False by decide,if_false,hend,bind_pure]

end Template

end GurlConf
end RecycleBin
