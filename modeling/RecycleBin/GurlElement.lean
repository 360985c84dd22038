import RecycleBin.GurlStringEq

/-! References `$arr[index]` to the elements of slices. The scan for the index starts again at
every `[` and stops at the first `]`, so that of nested references only the outermost slice and
the innermost index count. -/
namespace RecycleBin
namespace GurlConf
open GurlText Lockstep

variable {ω : Type}

/-- A decimal number. -/
def isNumber (t : Bytes) : Bool := t ≠ [] ∧ t.all isDigit

/-- The digits `t` behind the number `n`. -/
def numberFrom (n : ℕ) (t : Bytes) : ℕ := t.foldl (fun n b => n*10+(b.toNat-48)) n

def number (t : Bytes) : ℕ := numberFrom 0 t

/-- A variable bound to a slice. -/
structure Arr (c : Conf ω) (st : Store ω) (parent : Parent) where
  name : Bytes
  isName : IsName name
  notFunc : c.findFunc name = false
  slice : Slice
  bound : (st.rootMap name).or (parent name) = some (.slice slice)

variable {c : Conf ω} {st : Store ω} {parent : Parent}

def Arr.elems (a : Arr c st parent) : List Bytes := (st.heap a.slice.base).take a.slice.len

/-- A decimal literal, a variable that holds one, or an element of a slice. -/
inductive Index (c : Conf ω) (st : Store ω) (parent : Parent)
  | lit (t : Bytes) (h : isNumber t = true)
  | var (r : Ref c st parent) (h : isNumber r.value = true)
  | elem (a : Arr c st parent) (i : Index c st parent)

namespace Index

/-- How it is written. -/
def text : Index c st parent → Bytes
  | lit t _ => t
  | var r _ => 36::r.name
  | elem a i => 36::(a.name++91::(i.text++[93]))

/-- What it stands for, if all indices are in range. -/
def value : Index c st parent → Option Bytes
  | lit t _ => some t
  | var r _ => some r.value
  | elem a i => i.value.bind fun t => if isNumber t then a.elems[number t]? else none

/-- The brackets around the innermost index. -/
def depth : Index c st parent → ℕ
  | elem _ i => i.depth+1
  | _ => 0

/-- The text of the innermost index, and its value. -/
def inner : Index c st parent → Bytes × Bytes
  | lit t _ => (t,t)
  | var r _ => (36::r.name,r.value)
  | elem _ i => i.inner

end Index

/-! ### The scan of an index -/

section Scanning
variable {cb : Callbacks ω} {s : Bytes} {parseAssign : Bool} {sc : Scan}

/-- The scan at `i` within the index of the slice `name`, the last `[` being at `left`. -/
def Scan.index (sc : Scan) (name : Bytes) (left i : ℕ) : Scan where
  i := i
  token := 36::name
  vals := (startWord sc).vals
  status := ⟨sc.i+1,true,true,left,false⟩

theorem run_index_open {name r : Bytes} {left i : ℕ} (h : s.drop i = 91::r) :
    run c cb s parent parseAssign (sc.index name left i) =
      run c cb s parent parseAssign (sc.index name i (i+1)) := by
  have hi : s.drop (sc.index name left i).i = 91::r := h
  rw [run_cons hi,coreStep_slice rfl]
  rfl

theorem run_index_skip {name t r : Bytes} {left i : ℕ} (ht : ∀ b ∈ t, b ≠ 91 ∧ b ≠ 93)
    (h : s.drop i = t++r) :
    run c cb s parent parseAssign (sc.index name left i) =
      run c cb s parent parseAssign (sc.index name left (i+t.length)) :=
  run_skip t (x:=sc.index name left i) rfl ht h

/-- A word that is bound to a slice, before a bracket. -/
theorem run_arr (a : Arr c st parent) {r : Bytes} (hp : sc.status.Plain) (hr : r ≠ [])
    (h : s.drop sc.i = 36::(a.name++91::r)) :
    run c cb s parent parseAssign sc st = run c cb s parent parseAssign
      (sc.index a.name (sc.i+1+a.name.length) (sc.i+1+a.name.length+1)) st := by
  have hword : s.drop (sc.dollar.collect a.name).i = 91::r := by
    rw [Scan.collect,← List.drop_drop]
    change List.drop a.name.length (s.drop (sc.i+1)) = _
    rw [drop_succ h,List.drop_left]
  have hget : getWord (sc.dollar.collect a.name).token (sc.dollar.collect a.name).status =
      .ok (a.name,true,(sc.dollar.collect a.name).status) :=
    getWord_bare hp.curlyBracesLeft a.isName.ne_nil
  have hfind : findVal a.name parent st = .ok (some (.slice a.slice),st) := by rw [findVal,a.bound]
  have hindex : ¬(s.length ≤ (sc.dollar.collect a.name).i+1 ∨
      s[(sc.dollar.collect a.name).i]? ≠ some 91) := by
    rw [getElem?_of_drop hword]
    have hne : s.drop ((sc.dollar.collect a.name).i+1) ≠ [] := by rwa [drop_succ hword]
    have hlt := List.drop_eq_nil_iff.not.mp hne
    simpa using hlt
  have hstep : coreStep c cb s parent parseAssign (sc.dollar.collect a.name) 91 st =
      .ok (sc.index a.name sc.status.left (sc.i+1+a.name.length),st) := by
    have hslice : (sc.dollar.collect a.name).status.isSlice = false := hp.isSlice
    rw [coreStep_word hslice rfl,wordStep,if_neg (by decide),hget,ofExcept_ok,pure_bind,
      Conf.getVarAndFunc]
    dsimp only
    rw [a.notFunc,if_neg Bool.false_ne_true]
    simp only [bind_assoc]
    rw [bind_ok hfind]
    dsimp only
    rw [if_neg hindex,pure_bind,if_neg (by decide)]
    have hcurly := hp.curlyBracesLeft
    simp only [Scan.collect,Scan.dollar,startWord,Scan.index,hcurly]
    rfl
  rw [run_dollar hp h,run_word a.name (x:=sc.dollar) hp.isSlice rfl a.isName.bytes (drop_succ h),
    run_cons hword,bind_ok hstep]
  exact congrFun (run_index_open (i:=sc.i+1+a.name.length) hword) st

theorem no_bracket_number {t : Bytes} (h : isNumber t = true) : ∀ b ∈ t, b ≠ 91 ∧ b ≠ 93 := by
  have hall : ∀ b ∈ t, isDigit b = true := List.all_eq_true.mp (of_decide_eq_true h).2
  intro b hb
  constructor <;> rintro rfl <;> exact absurd (hall _ hb) (by decide)

/-- The scan comes to the first `]` with the last `[` before it. -/
theorem run_innermost (i : Index c st parent) : ∀ {w r : Bytes} {left : ℕ},
    s.drop (left+1) = i.text++r → ∃ k,
      run c cb s parent parseAssign (sc.index w left (left+1)) =
        run c cb s parent parseAssign (sc.index w k (k+1+i.inner.1.length)) ∧
      s.drop (k+1) = i.inner.1++(List.replicate i.depth 93++r) := by
  induction i with
  | lit t ht =>
    intro w r left h
    exact ⟨left,run_index_skip (no_bracket_number ht) h,h⟩
  | var x hx =>
    intro w r left h
    exact ⟨left,run_index_skip (no_bracket_bare ⟨x.ne_nil,x.bytes⟩) h,h⟩
  | elem a i ih =>
    intro w r left h
    have htext : s.drop (left+1) = bare a.name++91::(i.text++93::r) := by
      rw [h,Index.text,bare]
      simp
    have hopen : s.drop (left+1+(bare a.name).length) = 91::(i.text++93::r) := by
      rw [← List.drop_drop,htext,List.drop_left]
    obtain ⟨k,hrun,hk⟩ := ih (w:=w) (drop_succ hopen)
    refine ⟨k,?_,?_⟩
    · rw [run_index_skip (no_bracket_bare a.isName) htext,run_index_open hopen,hrun]
      rfl
    · rw [hk,Index.depth,List.replicate_succ']
      simp [Index.inner]

/-- The scan behind an index. -/
def Scan.element (sc : Scan) (left i : ℕ) (t : Bytes) : Scan where
  i := i
  token := []
  vals := (startWord sc).vals++[.str t]
  status := ⟨sc.i+1,false,false,left,false⟩

/-- The first `]` ends the index. -/
theorem run_index_close (a : Arr c st parent) {u t r : Bytes} {k : ℕ}
    (h : s.drop (k+1) = u++93::r) (hk : k+1 ≤ s.length)
    (hu : cb.parseCore u parent parseAssign st = .ok (.str t,st)) :
    run c cb s parent parseAssign (sc.index a.name k (k+1+u.length)) st =
      (ofExcept (indexValue (.str t)) >>= fun n => readSlice a.slice n >>= fun e =>
        run c cb s parent parseAssign (sc.element k (k+1+u.length+1) e)) st := by
  have hclose : s.drop (k+1+u.length) = 93::r := by
    rw [← List.drop_drop,h,List.drop_left]
  have hget : getWord (36::a.name) (⟨sc.i+1,true,true,k,false⟩ : Status) =
      .ok (a.name,true,⟨sc.i+1,true,true,k,false⟩) := getWord_bare rfl a.isName.ne_nil
  have hfind : findVal a.name parent st = .ok (some (.slice a.slice),st) := by rw [findVal,a.bound]
  have hsub : sub s (k+1) (k+1+u.length) = .ok u := sub_of_drop h hk rfl
  have hi : s.drop (sc.index a.name k (k+1+u.length)).i = 93::r := hclose
  rw [run_cons hi,coreStep_slice rfl,sliceStep,
    if_neg (by decide),if_neg (by decide)]
  simp only [Scan.index,hget,ofExcept_ok,pure_bind,bind_assoc]
  rw [bind_ok hfind]
  simp only [hsub,ofExcept_ok,pure_bind,bind_assoc]
  rw [bind_ok hu]
  rfl

theorem Scan.Expanded.element {t u : Bytes} (left i : ℕ) (h : sc.Expanded t) :
    (sc.element left i u).Expanded (t++u) := by
  obtain ⟨-,hdollar,ts,hvals,ht⟩ := h.refer (u:=u) 0
  exact ⟨⟨rfl,rfl,rfl⟩,hdollar,ts,hvals,ht⟩

/-- From a scan between two pieces the text that is left is added to what there is. -/
theorem run_expanded {t u : Bytes} (h : sc.Expanded t) (hu : 36 ∉ u) (hs : s.drop sc.i = u)
    (st : Store ω) : run c cb s parent parseAssign sc st = .ok (.str (t++u),st) := by
  rw [run_text (r:=[]) u h.plain hu (by rw [hs,List.append_nil]),run_nil,
    coreFinish_expanded (h.collect hu)]
  rw [Scan.collect,← List.drop_drop,hs,List.drop_length]

end Scanning

/-! ### Templates -/

theorem noDollar_number {t : Bytes} (h : isNumber t = true) : 36 ∉ t := by
  have hall : ∀ b ∈ t, isDigit b = true := List.all_eq_true.mp (of_decide_eq_true h).2
  intro hb
  exact absurd (hall _ hb) (by decide)

theorem coreBody_ref (cb : Callbacks ω) (r : Ref c st parent) (parseAssign : Bool) :
    coreBody c cb (36::r.name) parent parseAssign st = .ok (.str r.value,st) := by
  have hname : IsName r.name := ⟨r.ne_nil,r.bytes⟩
  have hnil : (36::r.name).drop (Scan.init.refer (r.name.length+1) r.value).i = [] := by
    simp [Scan.refer,Scan.init]
  have htext : (36::r.name).drop Scan.init.i = 36::(r.name++[]) := by simp [Scan.init]
  rw [coreBody_eq_run,if_pos List.mem_cons_self,
    run_bare ⟨rfl,rfl,rfl⟩ hname r.notFunc r.bound (by simp) htext,run_nil hnil,
    coreFinish_expanded (Scan.Expanded.init.refer (r.name.length+1))]
  rfl

/-- The innermost index is expanded to its value. -/
theorem parseCore_inner (d : ℕ) (i : Index c st parent) (parseAssign : Bool) :
    (c.callbacks (d+1)).parseCore i.inner.1 parent parseAssign st = .ok (.str i.inner.2,st) := by
  change coreBody c (c.callbacks d) _ parent parseAssign st = _
  induction i with
  | lit t ht =>
    have hno : 36 ∉ (Index.lit t ht : Index c st parent).inner.1 := noDollar_number ht
    rw [coreBody,if_neg hno]
    rfl
  | var r hr => exact coreBody_ref _ r parseAssign
  | elem a i ih => exact ih

/-- What a reference is expanded to: the outermost slice at the innermost index, before the
other closing brackets. -/
theorem parseCore_element (d : ℕ) (a : Arr c st parent) (i : Index c st parent)
    (parseAssign : Bool) {pre post : Bytes} (hpre : 36 ∉ pre) (hpost : 36 ∉ post) :
    c.parseCore (d+1) (pre++((Index.elem a i).text++post)) parent parseAssign st =
      (ofExcept (indexValue (.str i.inner.2)) >>= fun n => readSlice a.slice n >>= fun e =>
        (pure (.str (pre++e++(List.replicate i.depth 93++post))) : M ω Any)) st := by
  generalize hs : pre++((Index.elem a i).text++post) = s
  have hmem : 36 ∈ s := by
    rw [← hs]
    simp [Index.text]
  have hopen : s.drop (Scan.init.collect pre).i = 36::(a.name++91::(i.text++93::post)) := by
    rw [← hs]
    simp [Scan.collect,Scan.init,Index.text]
  have hbehind : s.drop ((Scan.init.collect pre).i+1+a.name.length+1) = i.text++93::post := by
    rw [← List.drop_drop,← List.drop_drop,drop_succ hopen,List.drop_left]
    rfl
  obtain ⟨k,hrun,hk⟩ : ∃ k,
      run c (c.callbacks (d+1)) s parent parseAssign ((Scan.init.collect pre).index a.name _ _) =
        run c (c.callbacks (d+1)) s parent parseAssign ((Scan.init.collect pre).index a.name k
          (k+1+i.inner.1.length)) ∧
      s.drop (k+1) = i.inner.1++(List.replicate i.depth 93++93::post) :=
    run_innermost i hbehind
  have hclose : s.drop (k+1) = i.inner.1++93::(List.replicate i.depth 93++post) := by
    rw [hk,← List.cons_append,← List.replicate_succ,List.replicate_succ']
    simp
  have hlen : k+1 ≤ s.length := by
    by_contra hgt
    rw [List.drop_eq_nil_of_le (by omega)] at hclose
    simp at hclose
  have hstart : s.drop Scan.init.i = pre++((Index.elem a i).text++post) := hs.symm
  change coreBody c (c.callbacks (d+1)) s parent parseAssign st = _
  rw [coreBody_eq_run,if_pos hmem,run_text pre ⟨rfl,rfl,rfl⟩ hpre hstart,
    run_arr a ⟨rfl,rfl,rfl⟩ (by simp) hopen,hrun,
    run_index_close a hclose hlen (parseCore_inner d i parseAssign)]
  refine congrFun (bind_congr fun n => bind_congr fun e => ?_) st
  funext st'
  have hexp := (Scan.Expanded.init.collect hpre).element (u:=e) k (k+1+i.inner.1.length+1)
  have hrest : s.drop (Scan.element (Scan.init.collect pre) k (k+1+i.inner.1.length+1) e).i =
      List.replicate i.depth 93++post := by
    change s.drop (k+1+i.inner.1.length+1) = _
    rw [← List.drop_drop,← List.drop_drop,hclose,List.drop_left]
    rfl
  have hdollar : 36 ∉ List.replicate i.depth 93++post := by
    simp [hpost]
  exact run_expanded hexp hdollar hrest st'

theorem readSlice_eq_ok (a : Arr c st parent) {n : ℤ} {r : Bytes × Store ω} :
    readSlice a.slice n st = .ok r ↔ r.2 = st ∧ ∃ k : ℕ, n = k ∧ a.elems[k]? = some r.1 := by
  rw [readSlice]
  constructor
  · intro h
    split_ifs at h with hn
    split at h
    next t ht =>
      cases h
      refine ⟨rfl,n.toNat,by omega,?_⟩
      rw [Arr.elems,List.getElem?_take_of_lt (by omega),ht]
    · cases h
  · rintro ⟨hst,k,rfl,hk⟩
    obtain ⟨hlt,-⟩ := List.getElem?_eq_some_iff.mp hk
    rw [Arr.elems,List.length_take] at hlt
    rw [Arr.elems,List.getElem?_take_of_lt (by omega)] at hk
    rw [if_pos (by omega),Int.toNat_natCast,hk]
    exact congrArg (fun t => Except.ok (r.1,t)) hst.symm

theorem indexValue_eq_ok {t : Bytes} {n : ℤ} :
    indexValue (.str t) = .ok n ↔ parseInt t = .ok n := by
  rw [indexValue]
  cases parseInt t <;> simp

/-- In any text without `$` the reference is expanded to its element, and the text is kept. -/
def ExpandsElement (d : ℕ) (a : Arr c st parent) (i : Index c st parent) (parseAssign : Bool) : Prop :=
  ∀ pre post e, 36 ∉ pre → 36 ∉ post → (Index.elem a i).value = some e →
    c.parseCore (d+1) (pre++((Index.elem a i).text++post)) parent parseAssign st =
      .ok (.str (pre++(e++post)),st)

theorem expandsElement_of {d : ℕ} {a : Arr c st parent} {i : Index c st parent} {parseAssign : Bool}
    (h : ∀ e, (Index.elem a i).value = some e → ∃ (n : ℕ) (t : Bytes), parseInt i.inner.2 = .ok n ∧
      a.elems[n]? = some t ∧ t++List.replicate i.depth 93 = e) :
    ExpandsElement d a i parseAssign := by
  intro pre post e hpre hpost he
  obtain ⟨n,t,hn,ht,rfl⟩ := h e he
  rw [parseCore_element d a i parseAssign hpre hpost,indexValue_eq_ok.mpr hn,ofExcept_ok,pure_bind,
    bind_ok ((readSlice_eq_ok a).mpr ⟨rfl,n,rfl,ht⟩),List.append_assoc,List.append_assoc]
  rfl

/-- `$arr[index]` is expanded to its element exactly when the innermost index, read as a Go
integer, is one of the outermost slice, whose element there is it but for the brackets that
are left. -/
theorem expandsElement_iff (d : ℕ) (a : Arr c st parent) (i : Index c st parent)
    (parseAssign : Bool) :
    ExpandsElement d a i parseAssign ↔ ∀ e, (Index.elem a i).value = some e →
      ∃ (n : ℕ) (t : Bytes), parseInt i.inner.2 = .ok n ∧ a.elems[n]? = some t ∧
        t++List.replicate i.depth 93 = e := by
  constructor
  · intro h e he
    have hrun := h [] [] e (by simp) (by simp) he
    rw [parseCore_element d a i parseAssign (by simp) (by simp)] at hrun
    obtain ⟨n,hn,hindex⟩ := ofExcept_bind_ok hrun
    obtain ⟨t,st',hread,hend⟩ := Lockstep.bind_eq_ok hindex
    obtain ⟨-,k,rfl,ht⟩ := (readSlice_eq_ok a).mp hread
    have heq : [] ++ t++(List.replicate i.depth 93++[]) = [] ++ (e++[]) := by
      injection hend with hend
      injection (Prod.mk.inj hend).1
    exact ⟨k,t,indexValue_eq_ok.mp hn,ht,by simpa using heq⟩
  · exact expandsElement_of

/-! ### References without nesting -/

theorem le_numberFrom (t : Bytes) : ∀ n : ℕ, n ≤ numberFrom n t := by
  induction t with
  | nil => exact fun n => le_rfl
  | cons b t ih =>
    intro n
    have h := ih (n*10+(b.toNat-48))
    change n ≤ numberFrom (n*10+(b.toNat-48)) t
    omega

theorem parseDigits_number (t : Bytes) : ∀ n : ℕ, (∀ b ∈ t, isDigit b = true) →
    numberFrom n t < 2^64 → parseDigits 10 n t = .ok (numberFrom n t) := by
  induction t with
  | nil => exact fun _ _ _ => rfl
  | cons b t ih =>
    intro n ht hn
    have hb := ht b List.mem_cons_self
    have h95 : b ≠ 95 := by
      rintro rfl
      exact absurd hb (by decide)
    have hd : b.toNat-48 < 10 := by
      have h57 : b.toNat ≤ 57 := (of_decide_eq_true hb).2
      omega
    have hstep : numberFrom n (b::t) = numberFrom (n*10+(b.toNat-48)) t := rfl
    have hle := le_numberFrom t (n*10+(b.toNat-48))
    rw [hstep] at hn ⊢
    rw [parseDigits,if_neg h95,digitValue,if_pos hb]
    dsimp only
    rw [if_neg (by omega),if_neg (by omega)]
    exact ih _ (fun b h => ht b (List.mem_cons_of_mem _ h)) hn

/-- Without a superfluous zero in front the base is ten. -/
theorem parseInt_number {t : Bytes} (ht : isNumber t = true) (h0 : t.head? = some 48 → t = [48])
    (hn : number t < 2^63) : parseInt t = .ok (number t) := by
  have hne : t ≠ [] := (of_decide_eq_true ht).1
  have hall : ∀ b ∈ t, isDigit b = true := List.all_eq_true.mp (of_decide_eq_true ht).2
  by_cases hzero : t = [48]
  · rw [hzero]
    rfl
  have hhead : t.head? ≠ some 48 := fun h => hzero (h0 h)
  have hsign : ∀ b : UInt8, isDigit b = false → t.head? ≠ some b := by
    intro b hb h
    rw [hall b (List.mem_of_head? h)] at hb
    cases hb
  have hbase : basePrefix t = none := by
    rcases t with _ | ⟨b,_ | ⟨b',t⟩⟩
    · rfl
    · simp [basePrefix]
    · have h48 : b ≠ 48 := fun h => hhead (by rw [h]; rfl)
      rw [basePrefix]
      simp [h48]
  have h95 : 95 ∉ t := fun h => absurd (hall _ h) (by decide)
  have hdigits : parseDigits 10 0 t = .ok (number t) :=
    parseDigits_number t 0 hall (by rw [← number]; omega)
  have huint : parseUint t = .ok (number t) := by
    rw [parseUint,if_neg hne,hbase]
    dsimp only
    rw [if_neg hhead,hdigits]
    simp [h95]
    rfl
  have h45 := hsign 45 (by decide)
  have h43 := hsign 43 (by decide)
  rw [parseInt,if_neg hne]
  simp only [h45,h43,decide_false,or_self,if_false,huint]
  change (if _ then _ else _ : Except NumError ℤ) = _
  rw [if_neg (by simpa using hn)]
  simp

theorem Index.value_of_depth {i : Index c st parent} (hi : i.depth = 0) :
    i.value = some i.inner.2 ∧ isNumber i.inner.2 = true := by
  cases i with
  | lit t ht => exact ⟨rfl,ht⟩
  | var r hr => exact ⟨rfl,hr⟩
  | elem a i => cases hi

/-- A literal, or a variable, without a superfluous zero is expanded to its element. -/
theorem expandsElement_flat (d : ℕ) (a : Arr c st parent) {i : Index c st parent}
    (parseAssign : Bool) (hi : i.depth = 0) (h0 : i.inner.2.head? = some 48 → i.inner.2 = [48])
    (hn : number i.inner.2 < 2^63) : ExpandsElement d a i parseAssign := by
  obtain ⟨hval,hnum⟩ := Index.value_of_depth hi
  refine expandsElement_of fun e he => ?_
  rw [Index.value,hval,Option.bind_some,if_pos hnum] at he
  exact ⟨_,e,parseInt_number hnum h0 hn,he,by rw [hi]; exact List.append_nil e⟩

/-- Two slices `a` and `b`. -/
def slices : Store Unit where
  rootMap name :=
    if name = [97] then some (.slice ⟨0,2,2⟩)
    else if name = [98] then some (.slice ⟨1,1,1⟩)
    else none
  heap base := if base = 0 then [[120],[121]] else [[49]]
  fresh := 2
  world := ()

/-- `$a[$b[0]]`. -/
theorem not_expandsElement :
    ¬∀ (c : Conf Unit) (st : Store Unit) (parent : Parent) (a : Arr c st parent)
      (i : Index c st parent), ExpandsElement 0 a i true := by
  intro h
  have hname : ∀ {b : UInt8}, isNameByte b = true → IsName [b] := isName_one
  let c : Conf Unit := ⟨fun _ => none,id⟩
  let a : Arr c slices fun _ => none := ⟨[97],hname (by decide),rfl,⟨0,2,2⟩,by decide⟩
  let b : Arr c slices fun _ => none := ⟨[98],hname (by decide),rfl,⟨1,1,1⟩,by decide⟩
  have hrun := h c slices _ a (.elem b (.lit [48] (by decide))) [] [] [121] (by simp) (by simp) rfl
  have hvalue : (c.parseCore 1 [36,97,91,36,98,91,48,93,93] (fun _ => none) true slices).map Prod.fst =
      .ok (.str [120,93]) := by decide
  rw [show c.parseCore 1 [36,97,91,36,98,91,48,93,93] (fun _ => none) true slices = _ from hrun] at hvalue
  revert hvalue
  decide

end GurlConf
end RecycleBin
