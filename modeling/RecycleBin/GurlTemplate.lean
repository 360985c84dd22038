import RecycleBin.GurlScan

/-! Variable templates: text and references `${name}` in any order. `ParseCore` puts the
values of the variables in the place of their references. -/
namespace RecycleBin
namespace GurlConf
open GurlText Lockstep

variable {ω : Type}

/-- A byte of a name: a letter, a digit or `_`. -/
def isNameByte (b : UInt8) : Bool :=
  isDigit b ∨ (97 ≤ b ∧ b ≤ 122) ∨ (65 ≤ b ∧ b ≤ 90) ∨ b = 95

theorem isWordByte_of_name {b : UInt8} (h : isNameByte b = true) : isWordByte b = true := by
  simp only [isNameByte,isWordByte,decide_eq_true_eq] at h ⊢
  tauto

theorem ne_of_name {b v : UInt8} (h : isNameByte b = true) (hv : isNameByte v = false) : b ≠ v := by
  intro hb
  rw [hb,hv] at h
  exact Bool.false_ne_true h

/-- The text of a string, or of an int in decimal. -/
def text : Any → Option Bytes
  | .str v => some v
  | .int n => some (itoa n)
  | _ => none

/-- The text of a variable: its value in `rootMap`, else in `parent`. -/
def lookup (st : Store ω) (parent : Parent) (name : Bytes) : Option Bytes :=
  match st.rootMap name with
  | some v => text v
  | none => (parent name).bind text

section Scanning
variable {c : Conf ω} {cb : Callbacks ω} {s : Bytes} {parent : Parent} {parseAssign : Bool}

/-! ### The rest of the input -/

theorem getElem?_of_drop {i : ℕ} {b : UInt8} {r : Bytes} (h : s.drop i = b::r) : s[i]? = some b := by
  rw [← List.head?_drop,h]
  rfl

theorem drop_succ {i : ℕ} {b : UInt8} {r : Bytes} (h : s.drop i = b::r) : s.drop (i+1) = r := by
  rw [← List.drop_drop,h]
  rfl

theorem run_cons {sc : Scan} {b : UInt8} {r : Bytes} (h : s.drop sc.i = b::r) :
    run c cb s parent parseAssign sc =
      coreStep c cb s parent parseAssign sc b >>= run c cb s parent parseAssign :=
  run_some (getElem?_of_drop h)

theorem run_nil {sc : Scan} (h : s.drop sc.i = []) :
    run c cb s parent parseAssign sc = coreFinish c cb s parent parseAssign sc := by
  apply run_none
  rw [← List.head?_drop,h]
  rfl

/-! ### Text -/

/-- Outside of words and indices. -/
structure Status.Plain (status : Status) : Prop where
  isVariable : status.isVariable = false
  isSlice : status.isSlice = false
  curlyBracesLeft : status.curlyBracesLeft = false

/-- The scan once `t` has been collected in the token. -/
def Scan.collect (sc : Scan) (t : Bytes) : Scan := { sc with i := sc.i+t.length,token := sc.token++t }

theorem Scan.collect_nil (sc : Scan) : sc.collect [] = sc := by
  simp [Scan.collect]

theorem Scan.collect_append (sc : Scan) (t u : Bytes) :
    (sc.collect t).collect u = sc.collect (t++u) := by
  simp [Scan.collect,Nat.add_assoc]

theorem run_text (t : Bytes) : ∀ {x : Scan} {r : Bytes}, x.status.Plain → 36 ∉ t →
    s.drop x.i = t++r →
      run c cb s parent parseAssign x = run c cb s parent parseAssign (x.collect t) := by
  induction t with
  | nil =>
    intro sc r _ _ _
    rw [sc.collect_nil]
  | cons b t ih =>
    intro sc r hp ht h
    have hb : b ≠ 36 := fun hb => ht (by simp [hb])
    have ht' : 36 ∉ t := fun h => ht (List.mem_cons_of_mem b h)
    calc run c cb s parent parseAssign sc
        = run c cb s parent parseAssign (sc.collect [b]) := by
          rw [run_cons h,coreStep_text hp.isSlice hp.isVariable hb,pure_bind]
          rfl
      _ = run c cb s parent parseAssign (sc.collect (b::t)) := by
          rw [ih (x := sc.collect [b]) hp ht' (drop_succ h),sc.collect_append]
          rfl

/-! ### References -/

/-- Word bytes without a brace are collected behind the `$` of their word. -/
theorem run_word (t : Bytes) : ∀ {x : Scan} {r : Bytes}, x.status.isSlice = false →
    x.status.isVariable = true → (∀ b ∈ t, isNameByte b = true) → s.drop x.i = t++r →
      run c cb s parent parseAssign x = run c cb s parent parseAssign (x.collect t) := by
  induction t with
  | nil =>
    intro sc r _ _ _ _
    rw [sc.collect_nil]
  | cons b t ih =>
    intro sc r hs hv ht h
    have hb := ht b List.mem_cons_self
    have ht' : ∀ b ∈ t, isNameByte b = true := fun b h => ht b (List.mem_cons_of_mem _ h)
    have hbrace : (b = 123) = False := eq_false (ne_of_name hb (by decide))
    calc run c cb s parent parseAssign sc
        = run c cb s parent parseAssign (sc.collect [b]) := by
          rw [run_cons h,coreStep_word hs hv,wordStep,if_pos (isWordByte_of_name hb),pure_bind]
          simp only [hbrace,decide_false,Bool.or_false]
          rfl
      _ = run c cb s parent parseAssign (sc.collect (b::t)) := by
          rw [ih (x := sc.collect [b]) hs hv ht' (drop_succ h),sc.collect_append]
          rfl

theorem exists_of_lookup {st : Store ω} {name t : Bytes} (h : lookup st parent name = some t) :
    ∃ v, (st.rootMap name).or (parent name) = some v ∧ text v = some t := by
  rw [lookup] at h
  cases hroot : st.rootMap name with
  | some v =>
    rw [hroot] at h
    exact ⟨v,rfl,h⟩
  | none =>
    rw [hroot] at h
    obtain ⟨v,hv,ht⟩ := Option.bind_eq_some_iff.mp h
    exact ⟨v,by rw [hv]; rfl,ht⟩

/-- The scan behind a word whose value is `t`. -/
def Scan.close (sc : Scan) (t : Bytes) : Scan := { sc with
  token := [],vals := sc.vals++[.str t],status := { sc.status with isVariable := false } }

theorem getVarAndFunc_text {ps : ParseString ω} {word t : Bytes} {sc : Scan} {st : Store ω}
    (hf : c.findFunc word = false) (ht : lookup st parent word = some t) :
    c.getVarAndFunc ps s word parent parseAssign sc st = .ok (sc.close t,st) := by
  obtain ⟨v,hv,htext⟩ := exists_of_lookup ht
  have hfind : findVal word parent st = .ok (some v,st) := by rw [findVal,hv]
  rw [Conf.getVarAndFunc,hf,if_neg Bool.false_ne_true,bind_ok hfind]
  cases v with
  | str v =>
    cases htext
    rfl
  | int n =>
    cases htext
    rfl
  | slice _ => cases htext
  | bool _ => cases htext
  | other _ => cases htext

/-- A word ends at the first byte that is none of its own; a `}` is stepped over. -/
theorem run_close {x : Scan} {v : UInt8} {r word t : Bytes} {isVar : Bool} {status : Status}
    {st : Store ω} (hs : x.status.isSlice = false) (hv : x.status.isVariable = true)
    (h : s.drop x.i = v::r) (hb : isWordByte v = false)
    (hw : getWord x.token x.status = .ok (word,isVar,status))
    (hf : c.findFunc word = false) (ht : lookup st parent word = some t) :
    run c cb s parent parseAssign x st = run c cb s parent parseAssign
      ({ x with i := if v = 125 then x.i+1 else x.i,status := status }.close t) st := by
  have hstep : coreStep c cb s parent parseAssign x v st =
      .ok ({ x with i := if v = 125 then x.i+1 else x.i,status := status }.close t,st) := by
    rw [coreStep_word hs hv,wordStep,hb,if_neg Bool.false_ne_true,hw,ofExcept_ok,pure_bind,
      bind_ok (getVarAndFunc_text hf ht)]
    by_cases h125 : v = 125
    · rw [if_pos h125,if_pos h125]
      rfl
    · rw [if_neg h125,if_neg h125]
      rfl
  rw [run_cons h,bind_ok hstep]

theorem getWord_bare {name : Bytes} {status : Status} (hc : status.curlyBracesLeft = false)
    (hn : name ≠ []) : getWord (36::name) status = .ok (name,true,status) := by
  have hstatus : { status with curlyBracesLeft := false } = status := by rw [← hc]
  simp only [getWord,hc,hstatus,if_true,if_false,Bool.false_eq_true]
  show (if name = [] then _ else _) = _
  rw [if_neg hn]

theorem getWord_braced {name : Bytes} {status : Status} (hc : status.curlyBracesLeft = true)
    (hn : name ≠ []) : getWord (36::123::name) status =
      .ok (name,true,{ status with curlyBracesLeft := false }) := by
  simp only [getWord,hc,if_true]
  show (if name = [] then _ else _) = _
  rw [if_neg hn]

theorem getWord_text {token : Bytes} {status : Status} (hn : token ≠ [])
    (h36 : token.head? ≠ some 36) (hc : status.curlyBracesLeft = false) :
    getWord token status = .ok (token,false,status) := by
  have hstatus : { status with curlyBracesLeft := false } = status := by rw [← hc]
  cases token with
  | nil => exact absurd rfl hn
  | cons b w =>
    have hb : b ≠ 36 := fun h => h36 (by rw [h]; rfl)
    simp only [getWord,hc,hstatus,if_neg hb,Bool.false_eq_true,if_false]
    rfl

/-- The scan behind a `$`. -/
def Scan.dollar (sc : Scan) : Scan := { startWord sc with i := sc.i+1,token := [36] }

theorem run_dollar {sc : Scan} {r : Bytes} (hp : sc.status.Plain) (h : s.drop sc.i = 36::r) :
    run c cb s parent parseAssign sc = run c cb s parent parseAssign sc.dollar := by
  rw [run_cons h,coreStep_start hp.isSlice hp.isVariable,pure_bind]
  rfl

/-- A `{` inside a word; a name in braces starts with one. -/
theorem run_brace {x : Scan} {r : Bytes} (hs : x.status.isSlice = false)
    (hv : x.status.isVariable = true) (h : s.drop x.i = 123::r) :
    run c cb s parent parseAssign x = run c cb s parent parseAssign
      { x.collect [123] with status := { x.status with curlyBracesLeft := true } } := by
  have hw : isWordByte 123 = true := by decide
  rw [run_cons h,coreStep_word hs hv,wordStep,if_pos hw,pure_bind]
  simp only [decide_true,Bool.or_true]
  rfl

/-- The scan behind a reference of length `n` whose value is `t`. -/
def Scan.refer (sc : Scan) (n : ℕ) (t : Bytes) : Scan where
  i := sc.i+n
  token := []
  vals := (startWord sc).vals++[.str t]
  status := ⟨sc.i+1,false,sc.status.isSlice,sc.status.left,false⟩

/-- `${name}` becomes the value of the variable. -/
theorem run_braced {sc : Scan} {name r t : Bytes} {st : Store ω} (hp : sc.status.Plain)
    (hn : name ≠ []) (hb : ∀ b ∈ name, isNameByte b = true) (hf : c.findFunc name = false)
    (ht : lookup st parent name = some t) (h : s.drop sc.i = 36::123::(name++125::r)) :
    run c cb s parent parseAssign sc st =
      run c cb s parent parseAssign (sc.refer (name.length+3) t) st := by
  let word : Scan := { sc.dollar.collect [123] with
    status := { sc.dollar.status with curlyBracesLeft := true } }
  have hword : s.drop word.i = name++125::r := drop_succ (drop_succ h)
  have hend : s.drop (word.collect name).i = 125::r := by
    rw [Scan.collect,← List.drop_drop,hword,List.drop_left]
  have hget : getWord (word.collect name).token (word.collect name).status =
      .ok (name,true,{ word.status with curlyBracesLeft := false }) :=
    getWord_braced rfl hn
  have hclosed : { word.collect name with
      i := if (125 : UInt8) = 125 then (word.collect name).i+1 else (word.collect name).i
      status := { word.status with curlyBracesLeft := false } }.close t =
        sc.refer (name.length+3) t := by
    rw [if_pos rfl]
    simp only [Scan.close,Scan.refer,Scan.collect,word,Scan.dollar,startWord,List.length_singleton]
    congr 1
    omega
  rw [run_dollar hp h,run_brace (x := sc.dollar) hp.isSlice rfl (drop_succ h),
    run_word name (x := word) hp.isSlice rfl hb hword,
    run_close (x := word.collect name) hp.isSlice rfl hend (by decide) hget hf ht,hclosed]

/-! ### Values -/

theorem joinVals_str (ts : List Bytes) : ∀ out : Bytes,
    joinVals out (ts.map Any.str) = .str (out++ts.flatten) := by
  induction ts with
  | nil =>
    intro out
    rw [List.flatten_nil,List.append_nil]
    rfl
  | cons t ts ih =>
    intro out
    show joinVals (out++t) (ts.map Any.str) = _
    rw [ih,List.flatten_cons,List.append_assoc]

/-- Between two pieces, with the text `t` so far: in the values, and in the token. -/
structure Scan.Expanded (sc : Scan) (t : Bytes) : Prop where
  plain : sc.status.Plain
  noDollar : 36 ∉ sc.token
  texts : ∃ ts : List Bytes, sc.vals = ts.map Any.str ∧ ts.flatten++sc.token = t

theorem Scan.Expanded.init : Scan.init.Expanded [] :=
  ⟨⟨rfl,rfl,rfl⟩,List.not_mem_nil,[],rfl,rfl⟩

theorem Scan.Expanded.collect {sc : Scan} {t u : Bytes} (h : sc.Expanded t) (hu : 36 ∉ u) :
    (sc.collect u).Expanded (t++u) := by
  obtain ⟨ts,hvals,ht⟩ := h.texts
  refine ⟨h.plain,?_,ts,hvals,?_⟩
  · intro hmem
    cases List.mem_append.mp hmem with
    | inl hmem => exact h.noDollar hmem
    | inr hmem => exact hu hmem
  · show ts.flatten++(sc.token++u) = t++u
    rw [← List.append_assoc,ht]

theorem Scan.Expanded.refer {sc : Scan} {t u : Bytes} (n : ℕ) (h : sc.Expanded t) :
    (sc.refer n u).Expanded (t++u) := by
  obtain ⟨ts,hvals,ht⟩ := h.texts
  refine ⟨⟨rfl,h.plain.isSlice,rfl⟩,List.not_mem_nil,?_⟩
  by_cases htoken : sc.token = []
  · refine ⟨ts++[u],?_,?_⟩
    · simp only [Scan.refer,startWord,if_pos htoken,hvals,List.map_append,List.map_singleton]
    · rw [htoken,List.append_nil] at ht
      simp [Scan.refer,ht]
  · refine ⟨ts++[sc.token]++[u],?_,?_⟩
    · simp only [Scan.refer,startWord,if_neg htoken,hvals,List.map_append,List.map_singleton]
    · simp [Scan.refer,← ht]

/-- At the end of the input the values and the token are the result. -/
theorem coreFinish_expanded {sc : Scan} {t : Bytes} {st : Store ω} (h : sc.Expanded t) :
    coreFinish c cb s parent parseAssign sc st = .ok (.str t,st) := by
  obtain ⟨ts,hvals,ht⟩ := h.texts
  rw [coreFinish]
  by_cases htoken : sc.token = []
  · rw [htoken,List.append_nil] at ht
    rw [if_pos htoken,hvals,joinVals_str,ht]
    rfl
  · have hget := getWord_text htoken (fun h36 => h.noDollar (List.mem_of_head? h36))
      h.plain.curlyBracesLeft
    rw [if_neg htoken,hget,ofExcept_ok,pure_bind,if_neg Bool.false_ne_true,pure_bind,hvals]
    show Except.ok (joinVals [] (ts.map Any.str++[sc.token].map Any.str),st) = _
    rw [← List.map_append,joinVals_str,List.flatten_append,← ht]
    simp

end Scanning

/-! ### Templates -/

/-- A reference to a variable bound to a string or an int. -/
structure Ref (c : Conf ω) (st : Store ω) (parent : Parent) where
  name : Bytes
  ne_nil : name ≠ []
  bytes : ∀ b ∈ name, isNameByte b = true
  notFunc : c.findFunc name = false
  value : Bytes
  bound : lookup st parent name = some value

/-- A piece of a template: text without `$`, or a reference in braces. -/
inductive Piece (c : Conf ω) (st : Store ω) (parent : Parent)
  | text (t : Bytes) (noDollar : 36 ∉ t)
  | ref (r : Ref c st parent)

variable {c : Conf ω} {cb : Callbacks ω} {st : Store ω} {parent : Parent} {parseAssign : Bool}

namespace Piece

def render : Piece c st parent → Bytes
  | .text t _ => t
  | .ref r => 36::123::(r.name++[125])

def expand : Piece c st parent → Bytes
  | .text t _ => t
  | .ref r => r.value

theorem length_render_ref (r : Ref c st parent) : (ref r).render.length = r.name.length+3 := by
  simp [render]

/-- Without a `$` there is nothing to expand. -/
theorem expand_eq_render (p : Piece c st parent) (h : 36 ∉ p.render) : p.expand = p.render := by
  cases p with
  | text t ht => rfl
  | ref r => exact absurd List.mem_cons_self h

end Piece

/-- From between two pieces, each of them adds its value to the text. -/
theorem run_pieces (s : Bytes) (ps : List (Piece c st parent)) : ∀ {sc : Scan} {t : Bytes},
    sc.Expanded t → s.drop sc.i = ps.flatMap Piece.render →
      run c cb s parent parseAssign sc st = .ok (.str (t++ps.flatMap Piece.expand),st) := by
  induction ps with
  | nil =>
    intro sc t h hdrop
    rw [run_nil hdrop,coreFinish_expanded h]
    simp
  | cons p ps ih =>
    intro sc t h hdrop
    rw [List.flatMap_cons] at hdrop
    rw [List.flatMap_cons,← List.append_assoc]
    cases p with
    | text u hu =>
      have hrest : s.drop (sc.collect u).i = ps.flatMap Piece.render := by
        rw [Scan.collect,← List.drop_drop,hdrop]
        exact List.drop_left
      rw [run_text u h.plain hu hdrop]
      exact ih (h.collect hu) hrest
    | ref r =>
      have hdrop' : s.drop sc.i = 36::123::(r.name++125::ps.flatMap Piece.render) := by
        rw [hdrop]
        simp [Piece.render]
      have hrest : s.drop (sc.refer (r.name.length+3) r.value).i = ps.flatMap Piece.render := by
        rw [Scan.refer,← List.drop_drop,hdrop]
        exact List.drop_left' (Piece.length_render_ref r)
      rw [run_braced h.plain r.ne_nil r.bytes r.notFunc r.bound hdrop']
      exact ih (h.refer _) hrest

/-- The result is the text of the pieces with the values in the place of the references. -/
theorem parseCore_render (d : ℕ) (ps : List (Piece c st parent)) :
    c.parseCore d (ps.flatMap Piece.render) parent parseAssign st =
      .ok (.str (ps.flatMap Piece.expand),st) := by
  show coreBody c (c.callbacks d) _ parent parseAssign st = _
  rw [coreBody_eq_run]
  split
  next h => exact run_pieces _ ps .init rfl
  next h =>
    have heq : ps.flatMap Piece.expand = ps.flatMap Piece.render := by
      apply List.flatMap_congr
      intro p hp
      exact p.expand_eq_render fun h36 => h (List.mem_flatMap.mpr ⟨p,hp,h36⟩)
    rw [heq]
    rfl

/-- `rootMap` before `parent`, and no separator between two references. -/
example :
    let c : Conf Unit := ⟨fun _ => none,id⟩
    let st : Store Unit := ⟨fun n => if n = ascii "a" then some (.int 80) else none,fun _ => [],0,()⟩
    let parent : Parent := fun n => if n = ascii "a" then none else some (.str (ascii "x:"))
    ((c.parseCore 0 (ascii "<${b}${a}>\x7b") parent true st).map Prod.fst).toOption =
      some (.str (ascii "<x:80>\x7b")) := by
  decide

end GurlConf
end RecycleBin
