import RecycleBin.GurlChain
import RecycleBin.GurlArgs
import RecycleBin.GurlAssign

/-! The headers of a step. They are expanded in a second pass over the list, which is only made
where `$root_header` is among them; what stands behind `$root_header` in its entry, blanks as
well, is read as part of its name once the text is at its end. -/
namespace RecycleBin
namespace GurlConf
open GurlText Lockstep

/-! ### White space -/

/-- A byte of a white space character. -/
def Blank (b : UInt8) : Prop := ∃ w ∈ spaces, b ∈ w

theorem Blank.plain {b : UInt8} (h : Blank b) : isWordByte b = false ∧ b ≠ 61 ∧ b ≠ 91 ∧ b ≠ 40 ∧
    b ≠ 41 ∧ b ≠ 44 ∧ b ≠ 125 := by
  have hall : spaces.all (fun w => w.all fun b => isWordByte b = false ∧ b ≠ 61 ∧ b ≠ 91 ∧ b ≠ 40 ∧
    b ≠ 41 ∧ b ≠ 44 ∧ b ≠ 125) = true := by decide
  obtain ⟨w,hw,hb⟩ := h
  exact of_decide_eq_true (List.all_eq_true.mp (List.all_eq_true.mp hall w hw) b hb)

theorem Blank.ne_dollar {b : UInt8} (h : Blank b) : b ≠ 36 := by
  rintro rfl
  exact absurd h.plain.1 (by decide)

theorem trimWords_split (ws : List Bytes) (n : ℕ) : ∀ t : Bytes,
    ∃ u, t = u++trimWords ws n t ∧ ∀ b ∈ u, ∃ w ∈ ws, b ∈ w := by
  induction n with
  | zero => exact fun t => ⟨[],rfl,by simp⟩
  | succ n ih =>
    intro t
    rw [trimWords]
    cases hfind : ws.find? fun w => w.isPrefixOf t with
    | none => exact ⟨[],rfl,by simp⟩
    | some w =>
      obtain ⟨r,hr⟩ := List.isPrefixOf_iff_prefix.mp (List.find?_some (p:=fun w : Bytes => w.isPrefixOf t) hfind)
      obtain ⟨u,hu,hblank⟩ := ih (t.drop w.length)
      refine ⟨w++u,?_,?_⟩
      · rw [List.append_assoc,← hu,← hr,List.drop_left]
      · intro b hb
        rcases List.mem_append.mp hb with hb | hb
        · exact ⟨w,List.mem_of_find?_eq_some hfind,hb⟩
        · exact hblank b hb

/-- Only white space is trimmed. -/
theorem trimSpace_split (t : Bytes) : ∃ u w, t = u++(trimSpace t++w) ∧ (∀ b ∈ u, Blank b) ∧
    ∀ b ∈ w, Blank b := by
  obtain ⟨u,hu,hleft⟩ := trimWords_split spaces t.length t
  obtain ⟨w,hw,hright⟩ := trimWords_split (spaces.map List.reverse)
    (trimWords spaces t.length t).length (trimWords spaces t.length t).reverse
  refine ⟨u,w.reverse,?_,hleft,?_⟩
  · have hback := congrArg List.reverse hw
    rw [List.reverse_reverse,List.reverse_append] at hback
    rw [trimSpace]
    exact hu.trans (congrArg (u++·) hback)
  · intro b hb
    obtain ⟨v,hv,hbv⟩ := hright b (List.mem_reverse.mp hb)
    obtain ⟨v',hv',rfl⟩ := List.mem_map.mp hv
    exact ⟨v',hv',List.mem_reverse.mp hbv⟩

/-! ### A word at the end of a text -/

section Scanning
variable {ω : Type} {c : Conf ω} {cb : Callbacks ω} {s : Bytes} {parent : Parent}
  {parseAssign : Bool} {st : Store ω} {name : Bytes}

theorem argsRun_blanks {s : Bytes} (t : Bytes) : ∀ {a : Args}, (∀ b ∈ t, Blank b) →
    s.drop a.j = t → argsRun s a = .ok none := by
  induction t with
  | nil => exact fun _ h => argsRun_end h
  | cons b t ih =>
    intro a ht h
    obtain ⟨-,-,-,h40,h41,h44,-⟩ := (ht b List.mem_cons_self).plain
    rw [argsRun_pass h h40 h41 fun h => absurd h h44]
    exact ih (fun b hb => ht b (List.mem_cons_of_mem _ hb)) (drop_succ h)

/-- A function without brackets behind its name. -/
theorem getVarAndFunc_uncalled {ps : ParseString ω} {sc : Scan} {w : Bytes}
    (hf : c.findFunc name = true) (hname : sub s sc.status.wordStart sc.i = .ok name)
    (hw : s.drop sc.i = w) (hblank : ∀ b ∈ w, Blank b) :
    c.getVarAndFunc ps s name parent parseAssign sc st = .error (.panic .nilPointer) := by
  have hargs : c.parseFuncArgs s name sc.i = .ok none := by
    rw [Conf.parseFuncArgs,if_pos hf]
    exact argsRun_blanks w (a:=⟨sc.i,sc.i,0,true,[]⟩) hblank hw
  rw [Conf.getVarAndFunc,if_pos hf,hname,ofExcept_ok,pure_bind,hargs]
  rfl

/-- The scan behind a slice; the name stays in the token. -/
def Scan.slice (sc : Scan) (sl : Slice) : Scan :=
  { sc with vals := sc.vals++[.slice sl],status := { sc.status with isVariable := false } }

theorem getVarAndFunc_slice {ps : ParseString ω} {sc : Scan} {sl : Slice}
    (hf : c.findFunc name = false) (hb : (st.rootMap name).or (parent name) = some (.slice sl))
    (hi : s[sc.i]? ≠ some 91) :
    c.getVarAndFunc ps s name parent parseAssign sc st = .ok (sc.slice sl,st) := by
  have hfind : findVal name parent st = .ok (some (.slice sl),st) := by rw [findVal,hb]
  rw [Conf.getVarAndFunc,if_neg (by rw [hf]; exact Bool.false_ne_true),bind_ok hfind]
  exact congrFun (if_pos (.inr hi)) st

/-- At the end of a text any value is taken. -/
theorem getVarAndFunc_end {ps : ParseString ω} {sc : Scan} {v : Any} (hf : c.findFunc name = false)
    (hb : (st.rootMap name).or (parent name) = some v) (hi : s.length ≤ sc.i+1) :
    ∃ sc' x, c.getVarAndFunc ps s name parent parseAssign sc st = .ok (sc',st) ∧
      sc'.vals = sc.vals++[x] := by
  have hfind : findVal name parent st = .ok (some v,st) := by rw [findVal,hb]
  rw [Conf.getVarAndFunc,if_neg (by rw [hf]; exact Bool.false_ne_true),bind_ok hfind]
  cases v with
  | slice sl =>
    refine ⟨sc.slice sl,.slice sl,?_,rfl⟩
    exact congrFun (if_pos (.inl hi)) st
  | int n => exact ⟨_,.str (itoa n),rfl,rfl⟩
  | str t => exact ⟨_,.str t,rfl,rfl⟩
  | bool b => exact ⟨_,.bool b,rfl,rfl⟩
  | other n => exact ⟨_,.other n,rfl,rfl⟩

theorem getVarAndFunc_unbound {ps : ParseString ω} {sc : Scan} (hf : c.findFunc name = false)
    (hb : (st.rootMap name).or (parent name) = none) :
    c.getVarAndFunc ps s name parent parseAssign sc st = .error (.panic (.notFound name)) := by
  have hfind : findVal name parent st = .ok (none,st) := by rw [findVal,hb]
  rw [Conf.getVarAndFunc,if_neg (by rw [hf]; exact Bool.false_ne_true),bind_ok hfind]
  rfl

/-- The first values are strings up to a slice. -/
theorem joinVals_slice (t : List Bytes) (sl : Slice) (vals : List Any) : ∀ out,
    joinVals out (t.map .str++.slice sl::vals) = .slice sl := by
  induction t with
  | nil => exact fun _ => rfl
  | cons u t ih => exact fun out => ih (out++u)

theorem coreFinish_word {x : Scan} (ht : x.token = 36::name) (hn : name ≠ [])
    (hc : x.status.curlyBracesLeft = false) :
    coreFinish c cb s parent parseAssign x =
      c.getVarAndFunc cb.parseString s name parent parseAssign x >>= fun sc =>
        pure (joinVals [] (sc.vals++[.str sc.token])) := by
  obtain ⟨i,token,vals,status⟩ := x
  dsimp only at ht hc
  rw [ht,coreFinish,if_neg (List.cons_ne_nil _ _),getWord_bare hc hn,ofExcept_ok,pure_bind]
  exact if_pos rfl

/-! ### A slice between blanks -/

/-- The scan behind the name of `u++36::(name++w)`. -/
def Scan.named (u name : Bytes) : Scan := (Scan.init.collect u).dollar.collect name

theorem named_vals (u name : Bytes) : ∃ t : List Bytes, (Scan.named u name).vals = t.map .str := by
  change ∃ t : List Bytes, (startWord (Scan.init.collect u)).vals = _
  rw [startWord]
  split
  · exact ⟨[],rfl⟩
  · exact ⟨[u],rfl⟩

variable {u w : Bytes} {sl : Slice}

theorem drop_named (hs : s = u++36::(name++w)) : s.drop (Scan.named u name).i = w := by
  have hi : (Scan.named u name).i = (u++36::name).length := by
    simp [Scan.named,Scan.collect,Scan.dollar,Scan.init,startWord]
    omega
  rw [hi,hs,← List.cons_append,← List.append_assoc,List.drop_left]

theorem sub_named (v : Bytes) (hs : s = u++36::(name++w)) (hv : v <+: name++w) :
    sub s (Scan.named u name).status.wordStart ((Scan.named u name).status.wordStart+v.length) =
      .ok v := by
  obtain ⟨r,hr⟩ := hv
  have hi : (Scan.named u name).status.wordStart = u.length+1 := by
    simp [Scan.named,Scan.collect,Scan.dollar,Scan.init,startWord]
  have hdrop : s.drop (u.length+1) = v++r := by
    rw [hs,← List.drop_drop,List.drop_left,hr]
    rfl
  rw [hi]
  exact sub_of_drop hdrop (by rw [hs]; simp) rfl

theorem coreBody_named (hn : IsName name) (hs : s = u++36::(name++w)) (hu : 36 ∉ u) :
    coreBody c cb s parent parseAssign =
      run c cb s parent parseAssign (Scan.named u name) := by
  have hmem : 36 ∈ s := by rw [hs]; simp
  have hdollar : s.drop (Scan.init.collect u).i = 36::(name++w) := by
    rw [hs]
    simp [Scan.collect,Scan.init]
  have hstart : s.drop Scan.init.i = u++36::(name++w) := hs
  rw [coreBody_eq_run,if_pos hmem,run_text u ⟨rfl,rfl,rfl⟩ hu hstart,run_dollar ⟨rfl,rfl,rfl⟩ hdollar,
    run_word name (x:=(Scan.init.collect u).dollar) rfl rfl hn.bytes (drop_succ hdollar)]
  rfl

/-- The end of the text, or of the word before blanks. -/
theorem run_named (hn : IsName name) (hs : s = u++36::(name++w)) (hw : ∀ b ∈ w, Blank b) :
    run c cb s parent parseAssign (Scan.named u name) =
      c.getVarAndFunc cb.parseString s name parent parseAssign (Scan.named u name) >>= fun sc =>
        if w = [] then pure (joinVals [] (sc.vals++[.str sc.token]))
        else run c cb s parent parseAssign sc := by
  have hdrop : s.drop (Scan.named u name).i = w := drop_named hs
  cases w with
  | nil => rw [run_nil hdrop,coreFinish_word rfl hn.ne_nil rfl]; rfl
  | cons v w =>
    obtain ⟨hword,-,-,-,-,-,h125⟩ := (hw v List.mem_cons_self).plain
    have hget : getWord (Scan.named u name).token (Scan.named u name).status =
        .ok (name,true,(Scan.named u name).status) := getWord_bare rfl hn.ne_nil
    rw [run_cons hdrop,coreStep_word rfl rfl,wordStep,if_neg (by rw [hword]; exact Bool.false_ne_true),
      hget,ofExcept_ok,pure_bind,bind_assoc]
    simp only [if_neg h125,pure_bind]
    rfl

/-- What stands behind a name is nothing, or makes the name of another variable with it. -/
def Ends (c : Conf ω) (st : Store ω) (parent : Parent) (name w : Bytes) : Prop :=
  w = [] ∨ c.findFunc (name++w) = false ∧ ((st.rootMap (name++w)).or (parent (name++w))).isSome

/-- From behind the slice to the end of the text. -/
theorem run_slice (hn : IsName name) (hs : s = u++36::(name++w)) (hw : ∀ b ∈ w, Blank b) :
    run c cb s parent parseAssign ((Scan.named u name).slice sl) =
      c.getVarAndFunc cb.parseString s (name++w) parent parseAssign
        (((Scan.named u name).slice sl).collect w) >>= fun sc =>
          pure (joinVals [] (sc.vals++[.str sc.token])) := by
  have hplain : ((Scan.named u name).slice sl).status.Plain := ⟨rfl,rfl,rfl⟩
  have hdrop : s.drop ((Scan.named u name).slice sl).i = w++[] := by
    rw [List.append_nil]
    exact drop_named hs
  have hnil : s.drop (((Scan.named u name).slice sl).collect w).i = [] := by
    rw [Scan.collect,← List.drop_drop,hdrop,List.append_nil,List.drop_length]
  have hne : name++w ≠ [] := List.append_ne_nil_of_left_ne_nil hn.ne_nil w
  rw [run_text w hplain (fun h => (hw 36 h).ne_dollar rfl) hdrop,run_nil hnil,
    coreFinish_word rfl hne rfl]

theorem getVarAndFunc_named {ps : ParseString ω} (hs : s = u++36::(name++w))
    (hw : ∀ b ∈ w, Blank b) (hf : c.findFunc name = false)
    (hb : (st.rootMap name).or (parent name) = some (.slice sl)) :
    c.getVarAndFunc ps s name parent parseAssign (Scan.named u name) st =
      .ok ((Scan.named u name).slice sl,st) := by
  apply getVarAndFunc_slice hf hb
  rw [← List.head?_drop,drop_named hs]
  intro h91
  exact (hw 91 (List.mem_of_head? h91)).plain.2.2.1 rfl

/-- A slice between blanks stands for itself. -/
theorem coreBody_slice (hn : IsName name) (hs : s = u++36::(name++w)) (hu : ∀ b ∈ u, Blank b)
    (hw : ∀ b ∈ w, Blank b) (hb : (st.rootMap name).or (parent name) = some (.slice sl))
    (hf : c.findFunc name = false) (he : Ends c st parent name w) :
    coreBody c cb s parent parseAssign st = .ok (.slice sl,st) := by
  obtain ⟨t,ht⟩ := named_vals u name
  have hvals : ∀ vs : List Any, joinVals [] (((Scan.named u name).slice sl).vals++vs) = .slice sl := by
    intro vs
    rw [Scan.slice,ht,List.append_assoc]
    exact joinVals_slice t sl vs []
  rw [coreBody_named hn hs fun h => (hu 36 h).ne_dollar rfl,run_named hn hs hw,
    bind_ok (getVarAndFunc_named hs hw hf hb)]
  split
  · rw [hvals]
    rfl
  next hne =>
    obtain ⟨hfunc,hsome⟩ := he.resolve_left hne
    obtain ⟨v,hv⟩ := Option.isSome_iff_exists.mp hsome
    have hi : s.length ≤ (((Scan.named u name).slice sl).collect w).i+1 := by
      have hdrop := drop_named hs
      have hlen := congrArg List.length hdrop
      rw [List.length_drop] at hlen
      change s.length ≤ (Scan.named u name).i+w.length+1
      omega
    obtain ⟨sc,x,hget,hsc⟩ : ∃ sc x, c.getVarAndFunc cb.parseString s (name++w) parent parseAssign
        (((Scan.named u name).slice sl).collect w) st = .ok (sc,st) ∧
          sc.vals = (((Scan.named u name).slice sl).collect w).vals++[x] :=
      getVarAndFunc_end hfunc hv hi
    rw [run_slice hn hs hw,bind_ok hget,hsc,List.append_assoc]
    change Except.ok (joinVals [] (((Scan.named u name).slice sl).vals++_),st) = _
    rw [hvals]

/-- Else its expansion panics. -/
theorem coreBody_slice_error (hn : IsName name) (hs : s = u++36::(name++w)) (hu : ∀ b ∈ u, Blank b)
    (hw : ∀ b ∈ w, Blank b) (hb : (st.rootMap name).or (parent name) = some (.slice sl))
    (h : ¬(c.findFunc name = false ∧ Ends c st parent name w)) :
    ∃ p, coreBody c cb s parent parseAssign st = .error (.panic p) := by
  rw [coreBody_named hn hs fun h => (hu 36 h).ne_dollar rfl,run_named hn hs hw]
  by_cases hf : c.findFunc name = true
  · have hi : (Scan.named u name).i = (Scan.named u name).status.wordStart+name.length := by
      simp [Scan.named,Scan.collect,Scan.dollar,startWord]
    have hsub := sub_named name hs (List.prefix_append name w)
    rw [← hi] at hsub
    exact ⟨_,bind_error (getVarAndFunc_uncalled hf hsub (drop_named hs) hw)⟩
  · have hf' : c.findFunc name = false := Bool.eq_false_of_not_eq_true hf
    have hends : ¬Ends c st parent name w := fun he => h ⟨hf',he⟩
    have hne : w ≠ [] := fun he => hends (.inl he)
    rw [bind_ok (getVarAndFunc_named hs hw hf' hb),if_neg hne,run_slice hn hs hw]
    by_cases hfunc : c.findFunc (name++w) = true
    · have hi : (((Scan.named u name).slice sl).collect w).i =
          (Scan.named u name).status.wordStart+(name++w).length := by
        simp [Scan.named,Scan.collect,Scan.dollar,Scan.slice,startWord]
        omega
      have hsub := sub_named (name++w) hs List.prefix_rfl
      rw [← hi] at hsub
      have hnil : s.drop (((Scan.named u name).slice sl).collect w).i = [] := by
        change s.drop ((Scan.named u name).i+w.length) = []
        rw [← List.drop_drop,drop_named hs,List.drop_length]
      exact ⟨_,bind_error (getVarAndFunc_uncalled hfunc hsub hnil (by simp))⟩
    · have hfunc' : c.findFunc (name++w) = false := Bool.eq_false_of_not_eq_true hfunc
      have hnone : (st.rootMap (name++w)).or (parent (name++w)) = none := by
        by_contra hsome
        exact hends (.inr ⟨hfunc',Option.isSome_iff_ne_none.mpr hsome⟩)
      exact ⟨_,bind_error (getVarAndFunc_unbound hfunc' hnone)⟩

end Scanning
end GurlConf

namespace GurlSend
open GurlText GurlConf Lockstep

variable {ω : Type} {c : Conf (World ω)} {d : ℕ} {m : SaveVar}

/-! ### The pass over the headers -/

def rootHeader : Bytes := ascii "root_header"

/-- What stands behind `$root_header` in its entry. -/
def trailing (hv : Bytes) : Bytes := (hv.dropWhile fun b => b ≠ 36).drop 12

theorem isRootHeader_split {hv : Bytes} (h : isRootHeader hv = true) :
    ∃ u, hv = u++36::(rootHeader++trailing hv) ∧ (∀ b ∈ u, Blank b) ∧ ∀ b ∈ trailing hv, Blank b := by
  have htrim : trimSpace hv = ascii "$root_header" := of_decide_eq_true h
  have hname : ascii "$root_header" = 36::rootHeader := by decide
  have hlen : rootHeader.length = 11 := by decide
  obtain ⟨u,w,hv',hu,hw⟩ := trimSpace_split hv
  rw [htrim,hname] at hv'
  have hskip : hv.dropWhile (fun b => b ≠ 36) = 36::(rootHeader++w) := by
    rw [hv',List.dropWhile_append_of_pos fun b hb => decide_eq_true (hu b hb).ne_dollar]
    rfl
  have htail : trailing hv = w := by
    rw [trailing,hskip,← List.cons_append]
    exact List.drop_left' (by rw [List.length_cons,hlen])
  rw [htail]
  exact ⟨u,hv',hu,hw⟩

/-- The headers the entries of a list stand for, one after the other: the root headers for
`$root_header`, and what is expanded for any other. -/
inductive HeadersTo (c : Conf (World ω)) (d : ℕ) (m : SaveVar) :
    List Bytes → Store (World ω) → List Bytes → Store (World ω) → Prop
  | nil {st : Store (World ω)} : HeadersTo c d m [] st [] st
  | root {hv : Bytes} {hs out : List Bytes} {st st' : Store (World ω)} {sl : Slice}
      (h : isRootHeader hv = true) (hroot : st.rootMap rootHeader = some (.slice sl))
      (hrest : HeadersTo c d m hs st out st') : HeadersTo c d m (hv::hs) st (elems st sl++out) st'
  | header {hv t : Bytes} {hs out : List Bytes} {st st₁ st' : Store (World ω)}
      (h : isRootHeader hv = false) (ht : parseString c d hv m true st = .ok (t,st₁))
      (hrest : HeadersTo c d m hs st₁ out st') : HeadersTo c d m (hv::hs) st (t::out) st'

/-- No function is called `root_header`, and nothing but another variable stands behind it. -/
def HeadersFit (c : Conf (World ω)) (d : ℕ) (m : SaveVar) : List Bytes → Store (World ω) → Prop
  | [], _ => True
  | hv::hs, st =>
    if isRootHeader hv then
      (c.findFunc rootHeader = false ∧ Ends c st m.parent rootHeader (trailing hv)) ∧
        HeadersFit c d m hs st
    else ∀ t st₁, parseString c d hv m true st = .ok (t,st₁) → HeadersFit c d m hs st₁

theorem isName_rootHeader : IsName rootHeader where
  ne_nil := by decide
  bytes := List.all_eq_true.mp (by decide)

theorem parseString_text {t : Bytes} (ht : ∀ b ∈ t, b ≠ 36 ∧ b ≠ 61 ∧ b ≠ 91)
    (st : Store (World ω)) : parseString c d t m true st = .ok (t,st) := by
  have hcore : coreBody c (c.callbacks d) t m.parent true st = .ok (.str t,st) := by
    rw [coreBody,if_neg fun h => (ht 36 h).1 rfl]
    rfl
  exact bind_ok ((parseBody_unassigned fun b hb => (ht b hb).2).trans hcore)

section Root
variable {hv : Bytes} {st : Store (World ω)} {sl : Slice}

theorem parse_root (h : isRootHeader hv = true) :
    parse c d hv m true st = coreBody c (c.callbacks d) hv m.parent true st := by
  obtain ⟨u,hv',hu,hw⟩ := isRootHeader_split h
  apply parseBody_unassigned
  intro b hb
  have hname : ∀ b ∈ 36::rootHeader, b ≠ 61 ∧ b ≠ 91 := by simp [rootHeader,ascii]
  rw [hv',← List.cons_append] at hb
  rcases List.mem_append.mp hb with hb | hb
  · exact ⟨(hu b hb).plain.2.1,(hu b hb).plain.2.2.1⟩
  · rcases List.mem_append.mp hb with hb | hb
    · exact hname b hb
    · exact ⟨(hw b hb).plain.2.1,(hw b hb).plain.2.2.1⟩

theorem parseSlice_root (h : isRootHeader hv = true)
    (hroot : st.rootMap rootHeader = some (.slice sl)) (hf : c.findFunc rootHeader = false)
    (he : Ends c st m.parent rootHeader (trailing hv)) :
    parseSlice c d hv m true st = .ok (sl,st) := by
  obtain ⟨u,hv',hu,hw⟩ := isRootHeader_split h
  have hb : (st.rootMap rootHeader).or (m.parent rootHeader) = some (.slice sl) := by
    rw [hroot,Option.some_or]
  have hparse : parse c d hv m true st = .ok (.slice sl,st) :=
    (parse_root h).trans (coreBody_slice isName_rootHeader hv' hu hw hb hf he)
  exact bind_ok hparse

theorem parseSlice_root_error (h : isRootHeader hv = true)
    (hroot : st.rootMap rootHeader = some (.slice sl))
    (hfit : ¬(c.findFunc rootHeader = false ∧ Ends c st m.parent rootHeader (trailing hv))) :
    ∃ p, parseSlice c d hv m true st = .error (.panic p) := by
  obtain ⟨u,hv',hu,hw⟩ := isRootHeader_split h
  have hb : (st.rootMap rootHeader).or (m.parent rootHeader) = some (.slice sl) := by
    rw [hroot,Option.some_or]
  obtain ⟨p,hp⟩ : ∃ p, coreBody c (c.callbacks d) hv m.parent true st = .error (.panic p) :=
    coreBody_slice_error isName_rootHeader hv' hu hw hb hfit
  have hparse : parse c d hv m true st = .error (.panic p) := (parse_root h).trans hp
  exact ⟨p,bind_error hparse⟩

end Root

theorem newHeader_root {hv : Bytes} (h : isRootHeader hv = true) (hs : List Bytes) :
    newHeader c d m (hv::hs) = parseSlice c d hv m true >>= fun sl => elements sl >>= fun new =>
      newHeader c d m hs >>= fun out => pure (new++out) := by
  rw [newHeader,if_pos h]
  simp only [bind_assoc]

theorem newHeader_other {hv : Bytes} (h : isRootHeader hv = false) (hs : List Bytes) :
    newHeader c d m (hv::hs) = parseString c d hv m true >>= fun t =>
      newHeader c d m hs >>= fun out => pure (t::out) := by
  rw [newHeader,if_neg (by rw [h]; exact Bool.false_ne_true)]
  simp only [pure_bind]
  rfl

theorem newHeader_ok {hs out : List Bytes} {st st' : Store (World ω)}
    (h : HeadersTo c d m hs st out st') (hfit : HeadersFit c d m hs st) :
    newHeader c d m hs st = .ok (out,st') := by
  induction h with
  | nil => rfl
  | @root hv hs out st st' sl h hroot hrest ih =>
    rw [HeadersFit,if_pos h] at hfit
    obtain ⟨⟨hf,he⟩,hfit⟩ := hfit
    have helems : elements sl st = .ok (elems st sl,st) := rfl
    rw [newHeader_root h,bind_ok (parseSlice_root h hroot hf he),bind_ok helems,bind_ok (ih hfit)]
    rfl
  | @header hv t hs out st st₁ st' h ht hrest ih =>
    rw [HeadersFit,if_neg (by rw [h]; exact Bool.false_ne_true)] at hfit
    rw [newHeader_other h,bind_ok ht,bind_ok (ih (hfit t st₁ ht))]
    rfl

theorem newHeader_fit {hs out : List Bytes} {st st' : Store (World ω)}
    (h : HeadersTo c d m hs st out st') : ∀ {r : List Bytes × Store (World ω)},
      newHeader c d m hs st = .ok r → HeadersFit c d m hs st := by
  induction h with
  | nil => exact fun _ => trivial
  | @root hv hs out st st' sl h hroot hrest ih =>
    intro r hr
    rw [newHeader_root h] at hr
    rw [HeadersFit,if_pos h]
    by_cases hfit : c.findFunc rootHeader = false ∧ Ends c st m.parent rootHeader (trailing hv)
    · have helems : elements sl st = .ok (elems st sl,st) := rfl
      rw [bind_ok (parseSlice_root h hroot hfit.1 hfit.2),bind_ok helems] at hr
      obtain ⟨new,st₁,hnew,-⟩ := Lockstep.bind_eq_ok hr
      exact ⟨hfit,ih hnew⟩
    · obtain ⟨p,hp⟩ := parseSlice_root_error (d:=d) h hroot hfit
      rw [bind_error hp] at hr
      cases hr
  | @header hv t hs out st st₁ st' h ht hrest ih =>
    intro r hr
    rw [newHeader_other h,bind_ok ht] at hr
    obtain ⟨new,st₂,hnew,-⟩ := Lockstep.bind_eq_ok hr
    rw [HeadersFit,if_neg (by rw [h]; exact Bool.false_ne_true)]
    intro t' st₁' ht'
    cases ht.symm.trans ht'
    exact ih hnew

/-! ### `BaseParse` -/

section Parse
variable {g : ℕ} {vars rangeMap : SaveVar} {reply : Option Reply} {s s₁ : Sys ω}

/-- `BaseParse` up to the headers: the map of the loop as it leaves it, and the scope in which
they are expanded. -/
def beforeHeaders (c : Conf (World ω)) (d g : ℕ) (vars : SaveVar) (reply : Option Reply)
    (rangeMap : SaveVar) : Run ω (SaveVar × Scope) := do
  let b ← act (base g)
  let inherited ← act (parentNextMap b)
  let maps := mergeMaps rangeMap (savedVars inherited)
  let sc : Scope := ⟨vars,reply,inherited,rangeMap.keys ≠ [],maps.2⟩
  act (modifyBase g fun b => { b with
    runF := b.f,runJfa := b.jfa,runUrl := b.url,runH := b.h,runO := b.o })
  note sc
  act do
    let url ← parseString c d b.url sc.map true
    modifyBase g fun b => { b with runUrl := url }
  parseFields c d g sc b.f.zipIdx
  return (maps.1,sc)

theorem baseParse_eq : baseParse c d g vars reply rangeMap =
    beforeHeaders c d g vars reply rangeMap >>= fun r =>
      act (parseHeaders c d g r.2.map) >>= fun _ => pure r.1 := by
  simp only [baseParse,beforeHeaders,bind_assoc,pure_bind]

theorem run_bind {α β : Type} {x : Run ω α} {f : α → Run ω β} {a : α} (h : x s = (.ok a,s₁)) :
    (x >>= f) s = f a s₁ := by
  change ExceptT.bindCont f (x s).1 (x s).2 = _
  rw [h]
  rfl

theorem run_bind_ok {α β : Type} {x : Run ω α} {f : α → Run ω β} {b : β}
    (h : (x >>= f) s = (.ok b,s₁)) : ∃ a s', x s = (.ok a,s') ∧ f a s' = (.ok b,s₁) := by
  change ExceptT.bindCont f (x s).1 (x s).2 = _ at h
  rcases hx : x s with ⟨a | e,s'⟩ <;> rw [hx] at h
  · cases h
  · exact ⟨_,s',rfl,h⟩

theorem act_ok {α : Type} {x : M (World ω) α} {a : α} {st : Store (World ω)}
    (h : x s.store = .ok (a,st)) : act x s = (.ok a,{ s with store := st }) := by
  rw [act,h]

theorem ok_of_act {α : Type} {x : M (World ω) α} {a : α} (h : act x s = (.ok a,s₁)) :
    ∃ st, x s.store = .ok (a,st) := by
  rw [act] at h
  cases hx : x s.store with
  | error e =>
    rw [hx] at h
    cases h
  | ok r =>
    rw [hx] at h
    cases h
    exact ⟨r.2,rfl⟩

/-- The list as the loop over it finds it. -/
theorem parseHeaders_eq {st : Store (World ω)} {H : List Bytes} (hH : (st.world.1 g).runH = H) :
    parseHeaders c d g m st = (if H.any isRootHeader then
      newHeader c d m H >>= fun new => modifyBase g fun b => { b with runH := new }
      else pure ()) st := by
  have hbase : base g st = .ok (st.world.1 g,st) := rfl
  rw [parseHeaders,bind_ok hbase,hH]

theorem baseParse_unexpanded {r : SaveVar × Scope} {H : List Bytes}
    (hbefore : beforeHeaders c d g vars reply rangeMap s = (.ok r,s₁))
    (hH : (s₁.store.world.1 g).runH = H) (hany : H.any isRootHeader = false) :
    baseParse c d g vars reply rangeMap s = (.ok r.1,s₁) := by
  have hheaders : parseHeaders c d g r.2.map s₁.store = .ok ((),s₁.store) := by
    rw [parseHeaders_eq hH,if_neg (by rw [hany]; exact Bool.false_ne_true)]
    rfl
  rw [baseParse_eq,run_bind hbefore]
  exact run_bind (act_ok hheaders)

/-- A step that gets to its headers has them all expanded exactly if `$root_header` is among them
and can be read wherever it stands, or if they stand for themselves. -/
theorem headers_expand_iff (c : Conf (World ω)) (d g : ℕ) (vars : SaveVar) (reply : Option Reply)
    (rangeMap : SaveVar) {s s₁ : Sys ω} {r : SaveVar × Scope} {H out : List Bytes}
    {st' : Store (World ω)} (hbefore : beforeHeaders c d g vars reply rangeMap s = (.ok r,s₁))
    (hH : (s₁.store.world.1 g).runH = H) (hto : HeadersTo c d r.2.map H s₁.store out st') :
    (∃ m s₂, baseParse c d g vars reply rangeMap s = (.ok m,s₂) ∧
        (s₂.store.world.1 g).runH = out) ↔
      if H.any isRootHeader then HeadersFit c d r.2.map H s₁.store else out = H := by
  cases hany : H.any isRootHeader with
  | false =>
    rw [if_neg Bool.false_ne_true,baseParse_unexpanded hbefore hH hany]
    constructor
    · rintro ⟨m,s₂,hs₂,hout⟩
      cases hs₂
      exact hout.symm.trans hH
    · rintro rfl
      exact ⟨r.1,s₁,rfl,hH⟩
  | true =>
    have hheaders := parseHeaders_eq (c:=c) (d:=d) (m:=r.2.map) hH
    rw [if_pos hany] at hheaders
    rw [if_pos rfl,baseParse_eq,run_bind hbefore]
    constructor
    · rintro ⟨m,s₂,hrun,-⟩
      obtain ⟨_,s',hact,-⟩ := run_bind_ok hrun
      obtain ⟨st,hst⟩ := ok_of_act hact
      rw [hheaders] at hst
      obtain ⟨new,st₁,hnew,-⟩ := Lockstep.bind_eq_ok hst
      exact newHeader_fit hto hnew
    · intro hfit
      rw [bind_ok (newHeader_ok hto hfit)] at hheaders
      refine ⟨r.1,_,run_bind (act_ok hheaders),?_⟩
      change (Function.update st'.world.1 g { st'.world.1 g with runH := out } g).runH = out
      rw [Function.update_self]

end Parse

/-! ### A step with headers -/

/-- One root header, and a variable `$a`. -/
def oneStep (h : List Bytes) : Store (World Unit) where
  rootMap x := if x = rootHeader then some (.slice ⟨1,1,1⟩)
    else if x = [97] then some (.str [120]) else none
  heap b := if b = 1 then [[107,58,118]] else []
  fresh := 2
  world := (fun _ => { plainBase "" with h := h },())

theorem oneStep_rootHeader (h : List Bytes) :
    (oneStep h).rootMap rootHeader = some (.slice ⟨1,1,1⟩) := by
  simp [oneStep]

theorem oneStep_a (h : List Bytes) : (oneStep h).rootMap [97] = some (.str [120]) := by
  have hne : ([97] : Bytes) ≠ rootHeader := by decide
  simp [oneStep,hne]

def bareConf : Conf (World Unit) := ⟨fun _ => none,id⟩

/-- The step before its headers are expanded. -/
def ready (h : List Bytes) : Sys Unit := (beforeHeaders bareConf 1 0 ∅ none ∅ ⟨oneStep h,[]⟩).2

theorem beforeHeaders_oneStep (h : List Bytes) : beforeHeaders bareConf 1 0 ∅ none ∅ ⟨oneStep h,[]⟩ =
    (.ok (∅,⟨∅,none,none,false,∅⟩),ready h) := rfl

theorem ready_runH (h : List Bytes) : ((ready h).store.world.1 0).runH = h := rfl

/-- The root header, and a text. -/
theorem headers_expand_root : ∃ m s₂, baseParse bareConf 1 0 ∅ none ∅
    ⟨oneStep [36::rootHeader,[104]],[]⟩ = (.ok m,s₂) ∧
      (s₂.store.world.1 0).runH = [[107,58,118],[104]] := by
  have hroot : isRootHeader (36::rootHeader) = true := by decide
  have hany : [36::rootHeader,[104]].any isRootHeader = true := by decide
  have hfalse : isRootHeader [104] = false := by decide
  have hbound : (ready [36::rootHeader,[104]]).store.rootMap rootHeader = some (.slice ⟨1,1,1⟩) :=
    oneStep_rootHeader [36::rootHeader,[104]]
  have htext : parseString bareConf 1 [104] ∅ true (ready [36::rootHeader,[104]]).store =
      .ok ([104],(ready [36::rootHeader,[104]]).store) := parseString_text (by simp) _
  refine (headers_expand_iff bareConf 1 0 ∅ none ∅ (beforeHeaders_oneStep _) (ready_runH _)
    (.root hroot hbound (.header hfalse htext .nil))).mpr ?_
  rw [if_pos hany,HeadersFit,if_pos hroot,HeadersFit,if_neg (by rw [hfalse]; exact Bool.false_ne_true)]
  exact ⟨⟨rfl,.inl (by decide)⟩,fun _ _ _ => trivial⟩

/-- Without `$root_header` no header is expanded. -/
theorem headers_not_expanded : ¬∀ (c : Conf (World Unit)) (d g : ℕ) (vars : SaveVar)
    (reply : Option Reply) (rangeMap : SaveVar) (s s₁ : Sys Unit) (r : SaveVar × Scope)
    (H out : List Bytes) (st' : Store (World Unit)),
      beforeHeaders c d g vars reply rangeMap s = (.ok r,s₁) → (s₁.store.world.1 g).runH = H →
        HeadersTo c d r.2.map H s₁.store out st' →
          ∃ m s₂, baseParse c d g vars reply rangeMap s = (.ok m,s₂) ∧
            (s₂.store.world.1 g).runH = out := by
  intro h
  have hfalse : isRootHeader [36,97] = false := by decide
  have hbound : (ready [[36,97]]).store.rootMap [97] = some (.str [120]) :=
    oneStep_a [[36,97]]
  have hvalue : parseString bareConf 1 [36,97] ∅ true (ready [[36,97]]).store =
      .ok ([120],(ready [[36,97]]).store) := by
    apply parseString_bare 1 ⟨by simp,List.all_eq_true.mp rfl⟩ rfl
    rw [Bound,hbound]
    rfl
  have hkept := baseParse_unexpanded (beforeHeaders_oneStep [[36,97]]) (ready_runH _)
    (by decide)
  obtain ⟨m,s₂,hrun,hout⟩ := h _ _ _ _ _ _ _ _ _ _ _ _ (beforeHeaders_oneStep [[36,97]])
    (ready_runH _) (.header hfalse hvalue .nil)
  cases hkept.symm.trans hrun
  rw [ready_runH] at hout
  exact absurd hout (by decide)

end GurlSend
end RecycleBin
