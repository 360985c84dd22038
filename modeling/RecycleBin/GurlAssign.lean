import RecycleBin.GurlElement

/-! Assignments `$a = v`, `$a[...] = v` and `$a[k] = v`: how `Parse` reads the statement, what
it stores, and which other slices see it. -/
namespace RecycleBin
namespace GurlConf
open GurlText Lockstep

variable {ω : Type}

/-! ### The bytes of an index -/

theorem mem_of_trimWords {ws : List Bytes} {n : ℕ} {t : Bytes} {b : UInt8}
    (h : b ∈ trimWords ws n t) : b ∈ t := by
  induction n generalizing t with
  | zero => exact h
  | succ n ih =>
    rw [trimWords] at h
    split at h
    · exact List.mem_of_mem_drop (ih h)
    · exact h

theorem mem_of_trimSpace {t : Bytes} {b : UInt8} (h : b ∈ trimSpace t) : b ∈ t :=
  mem_of_trimWords (List.mem_reverse.mp (mem_of_trimWords (List.mem_reverse.mp h)))

/-- The bytes of an integer: digits, letters, underscores and signs. -/
def isIntByte (b : UInt8) : Bool := b = 95 ∨ b = 43 ∨ b = 45 ∨ (digitValue b).isSome

theorem parseDigits_bytes {base n m : ℕ} {t : Bytes} (h : parseDigits base n t = .ok m) :
    ∀ b ∈ t, isIntByte b = true := by
  induction t generalizing n with
  | nil => simp
  | cons v t ih =>
    rw [parseDigits] at h
    have hrest : ∃ n', isIntByte v = true ∧ parseDigits base n' t = .ok m := by
      split_ifs at h with h95
      · exact ⟨n,by simp [isIntByte,h95],h⟩
      · split at h
        next d hd =>
          split_ifs at h
          exact ⟨_,by simp [isIntByte,hd],h⟩
        · cases h
    obtain ⟨n',hv,ht⟩ := hrest
    intro b hb
    rcases List.mem_cons.mp hb with rfl | hb
    · exact hv
    · exact ih ht b hb

theorem basePrefix_eq {t u : Bytes} {base : ℕ} (h : basePrefix t = some (base,u)) :
    ∃ v, t = 48::v::u ∧ isIntByte v = true := by
  rw [basePrefix.eq_def] at h
  split at h
  next v r =>
    have hletter : 97 ≤ lower v ∧ lower v ≤ 122 := by
      split_ifs at h with h₁ h₂ h₃
      · rw [h₁]; decide
      · rw [h₂]; decide
      · rw [h₃]; decide
    have hv : isIntByte v = true := by
      by_cases hd : isDigit v = true
      · simp [isIntByte,digitValue,hd]
      · simp [isIntByte,digitValue,hd,hletter]
    have hu : r = u := by
      split_ifs at h <;> exact (Prod.mk.inj (Option.some.inj h)).2
    exact ⟨v,by rw [hu],hv⟩
  · cases h

theorem eq_ok_of_bind {α β ε : Type} {x : Except ε α} {f : α → Except ε β} {b : β}
    (h : (x >>= f) = .ok b) : ∃ a, x = .ok a := by
  cases x with
  | error e => cases h
  | ok a => exact ⟨a,rfl⟩

theorem parseUint_bytes {t : Bytes} {m : ℕ} (h : parseUint t = .ok m) :
    ∀ b ∈ t, isIntByte b = true := by
  by_cases hne : t = []
  · simp [hne]
  rw [parseUint,if_neg hne] at h
  have hplain : (∀ {u : Bytes} {base : ℕ}, basePrefix t = some (base,u) → u = []) →
      ∀ b ∈ t, isIntByte b = true := by
    intro hshort b hb
    have hdigits : (∃ r n, t = 48::r ∧ parseDigits 8 0 r = .ok n) ∨
        ∃ n, parseDigits 10 0 t = .ok n := by
      by_cases hz : t.head? = some 48
      · obtain ⟨r,rfl⟩ := List.head?_eq_some_iff.mp hz
        refine .inl ⟨r,?_⟩
        rcases hbase : basePrefix (48::r) with _ | ⟨base,_ | ⟨v,u⟩⟩ <;> rw [hbase] at h
        · exact (eq_ok_of_bind h).imp fun n hn => ⟨rfl,hn⟩
        · exact (eq_ok_of_bind h).imp fun n hn => ⟨rfl,hn⟩
        · cases hshort hbase
      · refine .inr ?_
        rcases hbase : basePrefix t with _ | ⟨base,_ | ⟨v,u⟩⟩ <;> rw [hbase] at h
        · dsimp only at h
          rw [if_neg hz] at h
          exact eq_ok_of_bind h
        · dsimp only at h
          rw [if_neg hz] at h
          exact eq_ok_of_bind h
        · cases hshort hbase
    rcases hdigits with ⟨r,n,rfl,hn⟩ | ⟨n,hn⟩
    · rcases List.mem_cons.mp hb with rfl | hb
      · decide
      · exact parseDigits_bytes hn b hb
    · exact parseDigits_bytes hn b hb
  rcases hbase : basePrefix t with _ | ⟨base,_ | ⟨v,u⟩⟩
  · exact hplain fun hu => by cases hbase.symm.trans hu
  · exact hplain fun hu => by cases hbase.symm.trans hu; rfl
  · rw [hbase] at h
    obtain ⟨n,hn⟩ := eq_ok_of_bind h
    obtain ⟨w,rfl,hw⟩ := basePrefix_eq hbase
    intro b hb
    rcases List.mem_cons.mp hb with rfl | hb
    · decide
    · rcases List.mem_cons.mp hb with rfl | hb
      · exact hw
      · exact parseDigits_bytes hn b hb

theorem parseInt_bytes {t : Bytes} {k : ℤ} (h : parseInt t = .ok k) :
    ∀ b ∈ t, isIntByte b = true := by
  by_cases hne : t = []
  · simp [hne]
  rw [parseInt,if_neg hne] at h
  obtain ⟨n,hn⟩ := eq_ok_of_bind h
  intro b hb
  split_ifs at hn with hsign
  · obtain ⟨v,r,rfl⟩ := List.exists_cons_of_ne_nil hne
    rcases List.mem_cons.mp hb with rfl | hb
    · have hv : b = 45 ∨ b = 43 := by simpa using hsign
      rcases hv with rfl | rfl <;> decide
    · exact parseUint_bytes hn b hb
  · exact parseUint_bytes hn b hb

/-! ### The statements -/

/-- An index: a literal, or a variable that holds one. -/
inductive Position (c : Conf ω) (st : Store ω) (parent : Parent) (k : ℕ)
  | lit (t : Bytes) (h : parseInt t = .ok k)
  | var (r : Ref c st parent) (h : parseInt r.value = .ok k)

def Position.text {c : Conf ω} {st : Store ω} {parent : Parent} {k : ℕ} :
    Position c st parent k → Bytes
  | lit t _ => t
  | var r _ => 36::r.name

/-- What stands before the `=`, behind the name. -/
inductive Target (c : Conf ω) (st : Store ω) (parent : Parent)
  | var
  | add
  | elem (k : ℕ) (i : Position c st parent k)

namespace Target
variable {c : Conf ω} {st : Store ω} {parent : Parent}

def text : Target c st parent → Bytes
  | var => []
  | add => [91,46,46,46,93]
  | elem _ i => 91::(i.text++[93])

def slicePos : Target c st parent → SlicePos
  | var => .notFound
  | add => .iota
  | elem k _ => .at k

end Target

/-- The statement up to the value, with `m` and `n` blanks around the `=`. -/
def assignHead {c : Conf ω} {st : Store ω} {parent : Parent} (name : Bytes)
    (target : Target c st parent) (m n : ℕ) : Bytes :=
  36::(name++(target.text++(List.replicate m 32++61::List.replicate n 32)))

section Reading
variable {c : Conf ω} {st : Store ω} {parent : Parent} {k : ℕ} {name : Bytes}

theorem not_special_of_int {b : UInt8} (h : isIntByte b = true) :
    b ≠ 61 ∧ b ≠ 91 ∧ b ≠ 93 ∧ b ≠ 46 ∧ b ≠ 36 := by
  refine ⟨?_,?_,?_,?_,?_⟩ <;> rintro rfl <;> exact absurd h (by decide)

theorem Position.not_special (i : Position c st parent k) :
    ∀ b ∈ i.text, b ≠ 61 ∧ b ≠ 91 ∧ b ≠ 93 ∧ b ≠ 46 := by
  intro b hb
  cases i with
  | lit t h =>
    obtain ⟨h₁,h₂,h₃,h₄,-⟩ := not_special_of_int (parseInt_bytes h b hb)
    exact ⟨h₁,h₂,h₃,h₄⟩
  | var r h =>
    rcases List.mem_cons.mp hb with rfl | hb
    · decide
    · have hname := r.bytes b hb
      exact ⟨ne_of_name hname (by decide),ne_of_name hname (by decide),
        ne_of_name hname (by decide),ne_of_name hname (by decide)⟩

/-- The text in the brackets is expanded to an integer. -/
theorem Position.parseCore (d : ℕ) (i : Position c st parent k) :
    ∃ t, (c.callbacks (d+1)).parseCore i.text parent false st = .ok (.str t,st) ∧
      parseInt t = .ok k := by
  change ∃ t, coreBody c (c.callbacks d) _ parent false st = _ ∧ _
  cases i with
  | lit t h =>
    have hno : 36 ∉ (Position.lit t h : Position c st parent k).text :=
      fun hb => (not_special_of_int (parseInt_bytes h _ hb)).2.2.2.2 rfl
    refine ⟨t,?_,h⟩
    rw [coreBody,if_neg hno]
    rfl
  | var r h => exact ⟨r.value,coreBody_ref _ r false,h⟩

end Reading

/-! ### The scan of a statement -/

section Scanning
variable {c : Conf ω} {cb : Callbacks ω} {s : Bytes} {st : Store ω} {parent : Parent}
  {a a' : Assign} {v : UInt8} {r t : Bytes}

/-- The loop from any of its variables, with the passes that are left. -/
def assignRun (cb : Callbacks ω) (s : Bytes) (parent : Parent) (a : Assign) : M ω Assign :=
  assignLoop cb s parent (s.length+1-a.i) a

theorem assignRun_some (h : s.drop a.i = v::r) {x : Sum Assign Assign}
    (hs : assignStep cb s parent a v st = .ok (x,st)) :
    assignRun cb s parent a st =
      (Sum.elim pure (assignLoop cb s parent (s.length-a.i)) x : M ω Assign) st := by
  have hlen : s.length-a.i = r.length+1 := by
    rw [← List.length_drop,h,List.length_cons]
  rw [assignRun,show s.length+1-a.i = s.length-a.i+1 by omega,assignLoop,getElem?_of_drop h]
  refine (bind_ok hs).trans ?_
  cases x <;> rfl

theorem assignRun_next (h : s.drop a.i = v::r)
    (hs : assignStep cb s parent a v st = .ok (.inr a',st)) (hi : a'.i = a.i+1) :
    assignRun cb s parent a st = assignRun cb s parent a' st := by
  rw [assignRun_some h hs,assignRun,hi,Nat.add_sub_add_right]
  rfl

theorem assignRun_stop (h : s.drop a.i = v::r)
    (hs : assignStep cb s parent a v st = .ok (.inl a',st)) :
    assignRun cb s parent a st = .ok (a',st) := by
  rw [assignRun_some h hs]
  rfl

/-- Before the `=` bytes that are no brackets are passed over. -/
theorem assignRun_skip (t : Bytes) : ∀ {a : Assign} {r : Bytes},
    (∀ b ∈ t, b ≠ 61 ∧ b ≠ 91 ∧ b ≠ 93) → a.isVariable = true → a.isEqual = false →
      s.drop a.i = t++r →
        assignRun cb s parent a st = assignRun cb s parent { a with i := a.i+t.length } st := by
  induction t with
  | nil => exact fun _ _ _ _ => rfl
  | cons v t ih =>
    intro a r ht hvar heq h
    obtain ⟨h61,h91,h93⟩ := ht v List.mem_cons_self
    have hs : assignStep cb s parent a v st = .ok (.inr { a with i := a.i+1 },st) := by
      simp [assignStep,hvar,heq,h61,h91,h93]
      rfl
    rw [assignRun_next h hs rfl,ih (a:={ a with i := a.i+1 })
      (fun b hb => ht b (List.mem_cons_of_mem _ hb)) hvar heq (drop_succ h),List.length_cons,
      show a.i+1+t.length = a.i+(t.length+1) by omega]

/-- Behind the `=` blanks are passed over. -/
theorem assignRun_blanks (n : ℕ) : ∀ {a : Assign} {r : Bytes},
    a.isVariable = true → a.isEqual = true → a.slicePos ≠ .found →
      s.drop a.i = List.replicate n 32++r →
        assignRun cb s parent a st = assignRun cb s parent { a with i := a.i+n } st := by
  induction n with
  | zero => exact fun _ _ _ _ => rfl
  | succ n ih =>
    intro a r hvar heq hpos h
    have hs : assignStep cb s parent a 32 st = .ok (.inr { a with i := a.i+1 },st) := by
      simp [assignStep,hvar,heq,hpos]
      rfl
    rw [assignRun_next h hs rfl,ih (a:={ a with i := a.i+1 }) hvar heq hpos (drop_succ h),
      show a.i+1+n = a.i+(n+1) by omega]

/-- The first byte of the value ends the loop. -/
theorem assignRun_value (hvar : a.isVariable = true) (heq : a.isEqual = true)
    (hv : v ≠ 32 ∧ v ≠ 61) (h : s.drop a.i = v::r) :
    assignRun cb s parent a st = .ok ({ a with wEnd := a.i },st) := by
  refine assignRun_stop h ?_
  simp [assignStep,hvar,heq,hv.1,hv.2]
  rfl

theorem assignRun_equal {w : Bytes} (hvar : a.isVariable = true) (heq : a.isEqual = false)
    (hpos : a.slicePos ≠ .found) (h : s.drop a.i = 61::r)
    (hw : sub s a.wStart (if a.slicePos = .notFound then a.i else a.wEnd) = .ok w) :
    assignRun cb s parent a st = assignRun cb s parent { a with
      i := a.i+1,word := trimSpace w,isEqual := true
      wEnd := if a.slicePos = .iota then a.i+1
        else if a.slicePos = .notFound then a.i else a.wEnd } st := by
  refine assignRun_next h ?_ rfl
  simp [assignStep,hvar,heq,hpos,hw,ofExcept_ok]
  rfl

theorem assignRun_bracket (hvar : a.isVariable = true) (heq : a.isEqual = false)
    (hpos : a.slicePos = .notFound) (h : s.drop a.i = 91::r) :
    assignRun cb s parent a st = assignRun cb s parent { a with
      i := a.i+1,lefbrackets := a.i+1,slicePos := .found,wEnd := a.i } st := by
  refine assignRun_next h ?_ rfl
  simp [assignStep,hvar,heq,hpos]
  rfl

theorem assignRun_close {pos : SlicePos} (hvar : a.isVariable = true) (heq : a.isEqual = false)
    (hpos : a.slicePos = .found) (h : s.drop a.i = 93::r)
    (hindex : assignIndex cb s parent a st = .ok (pos,st)) :
    assignRun cb s parent a st =
      assignRun cb s parent { a with i := a.i+1,slicePos := pos } st := by
  refine assignRun_next h ?_ rfl
  have hstep : assignStep cb s parent a 93 = (assignIndex cb s parent a >>= fun pos =>
      pure (.inr { a with i := a.i+1,slicePos := pos })) := by
    simp [assignStep,hvar,heq,hpos]
  rw [hstep,bind_ok hindex]
  rfl

/-- The index text between the brackets. -/
theorem assignIndex_add (h : sub s a.lefbrackets a.i = .ok [46,46,46]) :
    assignIndex cb s parent a st = .ok (.iota,st) := by
  rw [assignIndex,h,ofExcept_ok,pure_bind,if_pos (by decide)]
  rfl

theorem assignIndex_elem {d k : ℕ} (i : Position c st parent k)
    (h : sub s a.lefbrackets a.i = .ok i.text) :
    assignIndex (c.callbacks (d+1)) s parent a st = .ok (.at k,st) := by
  obtain ⟨t,ht,hk⟩ := i.parseCore d
  have hdots : trimSpace i.text ≠ [46,46,46] := by
    intro hdot
    have hmem : 46 ∈ trimSpace i.text := by simp [hdot]
    exact (i.not_special 46 (mem_of_trimSpace hmem)).2.2.2 rfl
  rw [assignIndex,h,ofExcept_ok,pure_bind,if_neg hdots,bind_ok ht]
  dsimp only
  rw [hk]
  dsimp only
  rw [if_neg (by omega),if_neg (by omega),if_neg (by omega)]
  rfl

end Scanning

/-! ### The name of a statement -/

theorem trimWords_blanks (m n : ℕ) (r : Bytes) :
    trimWords (spaces.map List.reverse) (m+n) (List.replicate m 32++r) =
      trimWords (spaces.map List.reverse) n r := by
  induction m with
  | zero => rw [Nat.zero_add]; rfl
  | succ m ih =>
    have hfind : ((spaces.map List.reverse).find? fun w =>
        w.isPrefixOf (32::(List.replicate m 32++r))) = some [32] := by rfl
    rw [show m+1+n = m+n+1 by omega,List.replicate_succ,List.cons_append,trimWords,hfind]
    exact ih

theorem trimSpace_name {name : Bytes} (hn : IsName name) (m : ℕ) :
    trimSpace (name++List.replicate m 32) = name := by
  obtain ⟨b,u,rfl⟩ := List.exists_cons_of_ne_nil hn.ne_nil
  have hspaces : ∀ w ∈ spaces, w ≠ [] := by decide
  have hfirst : ∀ w ∈ spaces, w ≠ [] ∧ b ∉ w := fun w hw =>
    ⟨hspaces w hw,visible_name (hn.bytes b List.mem_cons_self) w hw⟩
  obtain ⟨v,r,hr⟩ := List.exists_cons_of_ne_nil
    (show (b::u).reverse ≠ [] by simp)
  have hv : v ∈ b::u := List.mem_reverse.mp (hr ▸ List.mem_cons_self)
  have hlast : ∀ w ∈ spaces.map List.reverse, w ≠ [] ∧ v ∉ w := by
    intro w hw
    obtain ⟨w',hw',rfl⟩ := List.mem_map.mp hw
    exact ⟨fun h => hspaces w' hw' (List.reverse_eq_nil_iff.mp h),
      fun h => visible_name (hn.bytes v hv) w' hw' (List.mem_reverse.mp h)⟩
  have hleft : ∀ n, trimWords spaces n (b::u++List.replicate m 32) = b::u++List.replicate m 32 :=
    fun n => trimWords_none hfirst n _
  have hlen : (b::u++List.replicate m 32).length = m+(b::u).length := by
    rw [List.length_append,List.length_replicate,Nat.add_comm]
  rw [trimSpace,hleft,List.reverse_append,List.reverse_replicate,hlen,trimWords_blanks,hr,
    trimWords_none hlast,← hr,List.reverse_reverse]

section Statement
variable {c : Conf ω} {cb : Callbacks ω} {s : Bytes} {st : Store ω} {parent : Parent}
  {name : Bytes} {v : UInt8} {w : Bytes}

/-- An index in its brackets, with what the text between them gives. -/
theorem assignRun_index {pos : SlicePos} (t : Bytes) (ht : ∀ b ∈ t, b ≠ 61 ∧ b ≠ 91 ∧ b ≠ 93)
    (hvar : a.isVariable = true) (heq : a.isEqual = false) (hpos : a.slicePos = .notFound)
    (h : s.drop a.i = 91::(t++93::r))
    (hindex : ∀ a' : Assign, sub s a'.lefbrackets a'.i = .ok t →
      assignIndex cb s parent a' st = .ok (pos,st)) :
    s.drop (a.i+1+t.length+1) = r ∧ assignRun cb s parent a st = assignRun cb s parent { a with
      i := a.i+1+t.length+1,lefbrackets := a.i+1,slicePos := pos,wEnd := a.i } st := by
  have hin := drop_succ h
  have hclosing : s.drop (a.i+1+t.length) = 93::r := by rw [← List.drop_drop,hin,List.drop_left]
  have hle : a.i+1 ≤ s.length := by
    have hlen := congrArg List.length h
    rw [List.length_drop,List.length_cons] at hlen
    omega
  refine ⟨drop_succ hclosing,?_⟩
  let found : Assign := { a with
    i := a.i+1,lefbrackets := a.i+1,slicePos := .found,wEnd := a.i }
  let read : Assign := { found with i := found.i+t.length }
  have hskip : assignRun cb s parent found st = assignRun cb s parent read st :=
    assignRun_skip t ht hvar heq hin
  have hclose := assignRun_close (a:=read) hvar heq rfl hclosing
    (hindex read (sub_of_drop hin hle rfl))
  exact (assignRun_bracket hvar heq hpos h).trans (hskip.trans hclose)

/-- From the blanks before the `=` on. -/
theorem assignRun_tail {a : Assign} {u : Bytes} (m n : ℕ) (hn : IsName name)
    (hs : s = 36::(name++u)) (hvar : a.isVariable = true) (heq : a.isEqual = false)
    (hstart : a.wStart = 1) (hpos : a.slicePos ≠ .found)
    (hend : if a.slicePos = .notFound then a.i = 1+name.length else a.wEnd = 1+name.length)
    (h : s.drop a.i = List.replicate m 32++61::(List.replicate n 32++v::w))
    (hv : v ≠ 32 ∧ v ≠ 61) :
    ∃ a', assignRun cb s parent a st = .ok (a',st) ∧ a'.word = name ∧ a'.wEnd = a.i+m+1+n ∧
      a'.slicePos = a.slicePos := by
  have hblanks : ∀ b ∈ List.replicate m (32 : UInt8), b ≠ 61 ∧ b ≠ 91 ∧ b ≠ 93 := by
    intro b hb
    rw [List.eq_of_mem_replicate hb]
    decide
  have hequal : s.drop (a.i+m) = 61::(List.replicate n 32++v::w) := by
    rw [← List.drop_drop,h]
    simp
  have hone : s.drop 1 = name++u := by rw [hs]; rfl
  have hlen : 1 ≤ s.length := by rw [hs]; simp
  obtain ⟨x,hx,htrim⟩ : ∃ x, sub s 1 (if a.slicePos = .notFound then a.i+m else a.wEnd) = .ok x ∧
      trimSpace x = name := by
    split_ifs at hend ⊢ with hnf
    · refine ⟨name++List.replicate m 32,?_,trimSpace_name hn m⟩
      have hu : u = List.replicate m 32++61::(List.replicate n 32++v::w) := by
        rw [hend,hs,Nat.add_comm,List.drop_succ_cons,List.drop_left] at h
        exact h
      refine sub_of_drop (r:=61::(List.replicate n 32++v::w)) ?_ hlen (by simp [hend]; omega)
      rw [hone,hu,List.append_assoc]
    · exact ⟨name,sub_of_drop hone hlen hend,by simpa using trimSpace_name hn 0⟩
  have hnext : s.drop (a.i+m+1) = List.replicate n 32++v::w := drop_succ hequal
  have hvalue : s.drop (a.i+m+1+n) = v::w := by
    rw [← List.drop_drop,hnext]
    simp
  let b : Assign := { a with
    i := a.i+m+1,word := trimSpace x,isEqual := true
    wEnd := if a.slicePos = .iota then a.i+m+1
      else if a.slicePos = .notFound then a.i+m else a.wEnd }
  refine ⟨{ b with i := b.i+n,wEnd := b.i+n },?_,htrim,rfl,rfl⟩
  rw [assignRun_skip _ hblanks hvar heq h,List.length_replicate,
    assignRun_equal (a:={ a with i := a.i+m }) hvar heq hpos hequal (hstart ▸ hx),
    assignRun_blanks n (a:=b) hvar rfl hpos hnext]
  exact assignRun_value (a:={ b with i := b.i+n }) hvar rfl hv hvalue

/-- The scan of a statement stops at its value and changes nothing. -/
theorem assignLoop_statement (d : ℕ) (hn : IsName name) (target : Target c st parent) (m n : ℕ)
    (hv : v ≠ 32 ∧ v ≠ 61) (hs : s = assignHead name target m n++v::w) :
    ∃ a, assignLoop (c.callbacks (d+1)) s parent (s.length+1) ⟨0,0,0,[],false,.notFound,0,false⟩ st =
        .ok (a,st) ∧
      a.word = name ∧ a.wEnd = (assignHead name target m n).length ∧
      a.slicePos = target.slicePos := by
  have hbytes : ∀ b ∈ name, b ≠ 61 ∧ b ≠ 91 ∧ b ≠ 93 := fun b hb =>
    ⟨ne_of_name (hn.bytes b hb) (by decide),ne_of_name (hn.bytes b hb) (by decide),
      ne_of_name (hn.bytes b hb) (by decide)⟩
  let tail := List.replicate m 32++61::(List.replicate n 32++v::w)
  have htext : s = 36::(name++(target.text++tail)) := by
    rw [hs]
    simp [assignHead,tail]
  have hlen : (assignHead name target m n).length = 1+name.length+target.text.length+m+1+n := by
    simp [assignHead]
    omega
  have hone : s.drop 1 = name++(target.text++tail) := by rw [htext]; rfl
  have hbehind : s.drop (1+name.length) = target.text++tail := by
    rw [← List.drop_drop,hone,List.drop_left]
  have hname : assignRun (c.callbacks (d+1)) s parent ⟨0,0,0,[],false,.notFound,0,false⟩ st =
      assignRun (c.callbacks (d+1)) s parent ⟨1+name.length,1,0,[],true,.notFound,0,false⟩ st := by
    have hstep : assignStep (c.callbacks (d+1)) s parent ⟨0,0,0,[],false,.notFound,0,false⟩ 36 st =
        .ok (.inr ⟨1,1,0,[],true,.notFound,0,false⟩,st) := by
      simp [assignStep]
      rfl
    rw [assignRun_next (a:=⟨0,0,0,[],false,.notFound,0,false⟩) htext hstep rfl,
      assignRun_skip name hbytes rfl rfl hone]
  change ∃ a, assignRun (c.callbacks (d+1)) s parent ⟨0,0,0,[],false,.notFound,0,false⟩ st =
    .ok (a,st) ∧ a.word = name ∧ a.wEnd = (assignHead name target m n).length ∧
      a.slicePos = target.slicePos
  rw [hname,hlen]
  cases target with
  | var =>
    exact assignRun_tail m n hn htext rfl rfl rfl (by simp) (by simp) hbehind hv
  | add =>
    obtain ⟨hrest,hrun⟩ := assignRun_index (a:=⟨1+name.length,1,0,[],true,.notFound,0,false⟩)
      [46,46,46] (by simp) rfl rfl rfl hbehind fun a' h => assignIndex_add h
    rw [hrun]
    exact assignRun_tail m n hn htext rfl rfl rfl (by simp) rfl hrest hv
  | elem k i =>
    have hplain : ∀ b ∈ i.text, b ≠ 61 ∧ b ≠ 91 ∧ b ≠ 93 := fun b hb =>
      ⟨(i.not_special b hb).1,(i.not_special b hb).2.1,(i.not_special b hb).2.2.1⟩
    have hbracket : s.drop (1+name.length) = 91::(i.text++93::tail) := by
      rw [hbehind]
      simp [Target.text]
    obtain ⟨hrest,hrun⟩ := assignRun_index (a:=⟨1+name.length,1,0,[],true,.notFound,0,false⟩)
      i.text hplain rfl rfl rfl hbracket fun a' h => assignIndex_elem i h
    have hend : 1+name.length+(Target.elem k i).text.length+m+1+n =
        1+name.length+1+i.text.length+1+m+1+n := by
      simp [Target.text]
      omega
    rw [hrun,hend]
    exact assignRun_tail m n hn htext rfl rfl rfl (by simp) (by simp) hrest hv

end Statement

/-! ### Arrays that slices share -/

section Arrays
variable {st st' st₁ : Store ω} {o sl : Slice}

def elems (st : Store ω) (sl : Slice) : List Bytes := (st.heap sl.base).take sl.len

/-- The slice lies within its array; only an empty one may have none. -/
structure SliceOk (st : Store ω) (sl : Slice) : Prop where
  len_le : sl.len ≤ sl.cap
  cap_le : sl.cap ≤ (st.heap sl.base).length
  old : sl.cap = 0 ∨ sl.base < st.fresh

theorem SliceOk.nil (st : Store ω) : SliceOk st ⟨0,0,0⟩ := ⟨le_rfl,Nat.zero_le _,.inl rfl⟩

theorem SliceOk.length_elems (h : SliceOk st sl) : (elems st sl).length = sl.len := by
  rw [elems,List.length_take]
  exact Nat.min_eq_left (h.len_le.trans h.cap_le)

/-- Of the arrays there are, only that of `o` changes, and only where `f` has a text. -/
def Writes (st st' : Store ω) (o : Slice) (f : ℕ → Option Bytes) : Prop :=
  ∀ b < st.fresh, ∀ p < (st.heap b).length,
    (st'.heap b)[p]? = if b = o.base then (f p).or (st.heap b)[p]? else (st.heap b)[p]?

theorem take_eq_iff {l l' : List Bytes} {n : ℕ} :
    l'.take n = l.take n ↔ ∀ p < n, l'[p]? = l[p]? := by
  constructor
  · intro h p hp
    have hget := congrArg (fun l => l[p]?) h
    simpa [List.getElem?_take,hp] using hget
  · intro h
    apply List.ext_getElem?
    intro p
    by_cases hp : p < n
    · simp [hp,h p hp]
    · simp [hp]

/-- A slice keeps its elements when the places of it that are written had these texts. -/
theorem Writes.elems_iff {f : ℕ → Option Bytes} (h : Writes st st' o f) (hsl : SliceOk st sl) :
    elems st' sl = elems st sl ↔ (sl.base = o.base → ∀ p < sl.len, ∀ w, f p = some w →
      (st.heap sl.base)[p]? = some w) := by
  rw [elems,elems,take_eq_iff]
  rcases hsl.old with hcap | hold
  · have hzero : sl.len = 0 := Nat.le_zero.mp (hcap ▸ hsl.len_le)
    simp [hzero]
  · have hread : ∀ p < sl.len, (st'.heap sl.base)[p]? =
        if sl.base = o.base then (f p).or (st.heap sl.base)[p]? else (st.heap sl.base)[p]? :=
      fun p hp => h sl.base hold p (hp.trans_le (hsl.len_le.trans hsl.cap_le))
    by_cases hbase : sl.base = o.base
    · simp only [hbase,true_implies]
      rw [← hbase]
      refine forall₂_congr fun p hp => ?_
      rw [hread p hp,if_pos hbase]
      cases hf : f p with
      | none => simp
      | some w =>
        simp only [Option.some_or,Option.some.injEq]
        constructor
        · rintro hw w' rfl
          exact hw.symm
        · intro hw
          exact (hw w rfl).symm
    · simp only [hbase,false_implies,iff_true]
      intro p hp
      rw [hread p hp,if_neg hbase]

theorem Writes.congr {f g : ℕ → Option Bytes} (h : Writes st st' o f) (hfg : ∀ p, f p = g p) :
    Writes st st' o g := by
  rwa [← funext hfg]

theorem Writes.refl (st : Store ω) (o : Slice) : Writes st st o fun _ => none := by
  intro b hb p hp
  simp

def setAt (st : Store ω) (base k : ℕ) (v : Bytes) : Store ω :=
  { st with heap := Function.update st.heap base ((st.heap base).set k v) }

theorem writeSlice_ok {k : ℕ} {v : Bytes} (hk : k < sl.len) :
    writeSlice sl k v st = .ok ((),setAt st sl.base k v) := if_pos hk

/-- A write into the array of `o`. -/
theorem Writes.set_same {f : ℕ → Option Bytes} (h : Writes st st' o f) (k : ℕ) (v : Bytes) :
    Writes st (setAt st' o.base k v) o fun p => if p = k then some v else f p := by
  intro b hb p hp
  have hread := h b hb p hp
  rw [setAt]
  by_cases hbase : b = o.base
  · rw [if_pos hbase] at hread ⊢
    subst hbase
    have hlt : p < (st'.heap o.base).length := by
      by_contra hge
      rw [List.getElem?_eq_none (not_lt.mp hge)] at hread
      have hsome : (st.heap o.base)[p]? = some ((st.heap o.base).get ⟨p,hp⟩) :=
        List.getElem?_eq_getElem hp
      rw [hsome] at hread
      cases hf : f p <;> simp [hf] at hread
    simp only [Function.update_self,List.getElem?_set]
    by_cases hpk : p = k
    · subst hpk
      simp [hlt]
    · rw [if_neg (Ne.symm hpk),if_neg hpk]
      exact hread
  · rw [if_neg hbase] at hread ⊢
    simp only [Function.update_of_ne hbase]
    exact hread

/-- A write into a new array. -/
theorem Writes.set_new {f : ℕ → Option Bytes} {base : ℕ} (h : Writes st st' o f)
    (hbase : st.fresh ≤ base) (k : ℕ) (v : Bytes) : Writes st (setAt st' base k v) o f := by
  intro b hb p hp
  rw [setAt]
  simp only [Function.update_of_ne (show b ≠ base by omega)]
  exact h b hb p hp

/-- The texts of an array with `vs` written behind its first `n`. -/
theorem getElem?_inPlace {array vs : List Bytes} {n : ℕ} (h : n+vs.length ≤ array.length) (p : ℕ) :
    (array.take n++vs++array.drop (n+vs.length))[p]? =
      ((if n ≤ p then vs[p-n]? else none).or array[p]?) := by
  have hlen : (array.take n).length = n := List.length_take_of_le (by omega)
  by_cases hn : n ≤ p
  · by_cases hv : p-n < vs.length
    · rw [List.getElem?_append_left (by rw [List.length_append,hlen]; omega),
        List.getElem?_append_right (by rw [hlen]; exact hn),hlen,if_pos hn,
        List.getElem?_eq_getElem hv]
      rfl
    · rw [List.getElem?_append_right (by rw [List.length_append,hlen]; omega),if_pos hn,
        List.getElem?_eq_none (not_lt.mp hv),List.getElem?_drop,List.length_append,hlen]
      rw [Option.none_or,show n+vs.length+(p-(n+vs.length)) = p by omega]
  · rw [List.append_assoc,List.getElem?_append_left (by rw [hlen]; omega),if_neg hn,
      List.getElem?_take_of_lt (by omega)]
    rfl

/-- `append`: in place while the capacity allows, else into a new array. -/
theorem appendSlice_ok (c : Conf ω) (ho : SliceOk st o) (vs : List Bytes) : ∃ new st',
    appendSlice c o vs st = .ok (new,st') ∧ st'.rootMap = st.rootMap ∧
      new.len = o.len+vs.length ∧ elems st' new = elems st o++vs ∧
      (o.len+vs.length ≤ o.cap → new.base = o.base) ∧
      (o.cap < o.len+vs.length → new.base = st.fresh) ∧
      Writes st st' o fun p =>
        if o.len+vs.length ≤ o.cap ∧ o.len ≤ p then vs[p-o.len]? else none := by
  have hlen := ho.length_elems
  by_cases hcap : o.len+vs.length ≤ o.cap
  · have hrun : appendSlice c o vs st = .ok ({ o with len := o.len+vs.length },{ st with
        heap := Function.update st.heap o.base
          (elems st o++vs++(st.heap o.base).drop (o.len+vs.length)) }) := if_pos hcap
    refine ⟨_,_,hrun,rfl,rfl,?_,fun _ => rfl,fun h => absurd hcap h.not_ge,?_⟩
    · rw [elems]
      simp only [Function.update_self]
      exact List.take_left' (by rw [List.length_append,hlen])
    · intro b hb p hp
      by_cases hbase : b = o.base
      · subst hbase
        have hcl := ho.cap_le
        simp only [Function.update_self,if_true,hcap,true_and]
        exact getElem?_inPlace (hcap.trans hcl) p
      · simp [hbase]
  · have hrun : appendSlice c o vs st = .ok
        (⟨st.fresh,o.len+vs.length,max (o.len+vs.length) (c.grow (o.len+vs.length))⟩,{ st with
          heap := Function.update st.heap st.fresh (elems st o++vs++List.replicate
            (max (o.len+vs.length) (c.grow (o.len+vs.length))-(o.len+vs.length)) [])
          fresh := st.fresh+1 }) := if_neg hcap
    refine ⟨_,_,hrun,rfl,rfl,?_,fun h => absurd h hcap,fun _ => rfl,?_⟩
    · rw [elems]
      simp only [Function.update_self]
      exact List.take_left' (by rw [List.length_append,hlen])
    · intro b hb p hp
      simp only [Function.update_of_ne hb.ne,hcap,false_and,if_false]
      simp

end Arrays

/-! ### What is stored -/

section Update
variable {c : Conf ω} {st₀ st : Store ω} {parent : Parent} {o : Slice} {x : Any} {v : Bytes}

/-- The texts an assignment writes into the array of the old slice. -/
def Target.written (o : Slice) (v : Bytes) : Target c st₀ parent → ℕ → Option Bytes
  | var, _ => none
  | add, p => if p = o.len ∧ o.len < o.cap then some v else none
  | elem k _, p =>
    if k+1 < o.len then (if p = k then some v else none)
    else if k+1 = o.len then (if p = o.len ∧ o.len < o.cap then some v else none)
    else if k+1 ≤ o.cap then
      (if p = k then some v else if o.len ≤ p ∧ p < k then some [] else none)
    else none

/-- The elements `$a[k] = v` should leave. -/
def putAt (ts : List Bytes) (k : ℕ) (v : Bytes) : List Bytes :=
  (ts++List.replicate (k+1-ts.length) []).set k v

/-- The elements an assignment leaves; that to the last element is dropped. -/
def Target.left (ts : List Bytes) (v : Bytes) : Target c st₀ parent → List Bytes
  | var => ts
  | add => ts++[v]
  | elem k _ => if k+1 = ts.length then ts else putAt ts k v

/-- What `append` of one text writes. -/
theorem written_one (o : Slice) (v : Bytes) (p : ℕ) :
    (if o.len+[v].length ≤ o.cap ∧ o.len ≤ p then [v][p-o.len]? else none) =
      if p = o.len ∧ o.len < o.cap then some v else none := by
  by_cases hp : p = o.len
  · rw [hp,Nat.sub_self]
    simp
  · have hnone : o.len ≤ p → [v][p-o.len]? = none := fun hle =>
      List.getElem?_eq_none (by rw [List.length_singleton]; omega)
    rw [if_neg (fun h => hp h.1 : ¬(p = o.len ∧ o.len < o.cap))]
    split_ifs with h
    · exact hnone h.2
    · rfl

theorem updateSlice_add (c : Conf ω) (ho : SliceOk st o) (v : Bytes) : ∃ new st',
    updateSlice c .iota o (.str v) st = .ok (.slice new,st') ∧ st'.rootMap = st.rootMap ∧
      elems st' new = elems st o++[v] ∧
      Writes st st' o fun p => if p = o.len ∧ o.len < o.cap then some v else none := by
  obtain ⟨new,st',hrun,hroot,-,helems,-,-,hwrites⟩ := appendSlice_ok c ho [v]
  have hstep : updateSlice c .iota o (.str v) st =
      (appendSlice c o [v] >>= fun new => pure (.slice new) : M ω Any) st := rfl
  exact ⟨new,st',hstep.trans (bind_ok hrun),hroot,helems,hwrites.congr fun p => written_one o v p⟩

theorem elems_setAt_same {base k : ℕ} (h : o.base = base) :
    elems (setAt st base k v) o = (elems st o).set k v := by
  subst h
  rw [elems,elems,setAt]
  simp only [Function.update_self]
  exact List.take_set

/-- What `append` of empty texts up to `k` writes, with `v` over the last one. -/
theorem written_padded {o : Slice} {k : ℕ} (hlow : o.len ≤ k) (hcap : k+1 ≤ o.cap) (v : Bytes)
    (p : ℕ) :
    (if p = k then some v
      else if o.len+(k-o.len+1) ≤ o.cap ∧ o.len ≤ p then
        (List.replicate (k-o.len+1) ([] : Bytes))[p-o.len]?
      else none) =
      if p = k then some v else if o.len ≤ p ∧ p < k then some [] else none := by
  by_cases hp : p = k
  · rw [if_pos hp,if_pos hp]
  · rw [if_neg hp,if_neg hp]
    by_cases hfrom : o.len ≤ p
    · rw [if_pos ⟨by omega,hfrom⟩,List.getElem?_replicate]
      by_cases hto : p < k
      · rw [if_pos (show p-o.len < k-o.len+1 by omega),if_pos ⟨hfrom,hto⟩]
      · rw [if_neg (show ¬p-o.len < k-o.len+1 by omega),if_neg fun h => hto h.2]
    · rw [if_neg fun h => hfrom h.2,if_neg fun h => hfrom h.1]

theorem updateSlice_elem (c : Conf ω) (ho : SliceOk st o) (k : ℕ)
    (i : Position c st₀ parent k) (v : Bytes) : ∃ new st',
    updateSlice c (.at k) o (.str v) st = .ok (.slice new,st') ∧ st'.rootMap = st.rootMap ∧
      elems st' new = (Target.elem k i).left (elems st o) v ∧
      Writes st st' o ((Target.elem k i).written o v) := by
  have hlen := ho.length_elems
  have hstart : updateSlice c (.at k) o (.str v) st =
      (if (k : ℤ) < (o.len : ℤ)-1 then do
        writeSlice o k v
        pure (.slice o)
      else if (k : ℤ) = (o.len : ℤ)-1 then do
        let _ ← appendSlice c o [v]
        pure (.slice o)
      else do
        let new ← appendSlice c o (List.replicate (k-o.len+1) [])
        writeSlice new k v
        pure (.slice new) : M ω Any) st := by
    rw [updateSlice,if_neg (by omega)]
    rfl
  rw [hstart]
  rcases lt_trichotomy (k+1) o.len with hlt | heq | hgt
  · rw [if_pos (by omega)]
    refine ⟨o,setAt st o.base k v,bind_ok (writeSlice_ok (by omega)),rfl,?_,?_⟩
    · rw [elems_setAt_same rfl,Target.left,if_neg (by omega),putAt,
        show k+1-(elems st o).length = 0 by omega,List.replicate_zero,List.append_nil]
    · exact ((Writes.refl st o).set_same k v).congr fun p => by rw [Target.written,if_pos hlt]
  · rw [if_neg (by omega),if_pos (by omega)]
    obtain ⟨new,st',hrun,hroot,-,-,-,-,hwrites⟩ := appendSlice_ok c ho [v]
    have hone := hwrites.congr fun p => written_one o v p
    refine ⟨o,st',bind_ok hrun,hroot,?_,hone.congr fun p => ?_⟩
    · rw [Target.left,if_pos (heq.trans hlen.symm)]
      refine (hone.elems_iff ho).mpr fun _ p hp w hw => ?_
      rw [if_neg (by omega)] at hw
      cases hw
    · rw [Target.written,if_neg (show ¬k+1 < o.len by omega),if_pos heq]
  · have hlow : ¬k+1 < o.len := by omega
    have hlast : ¬k+1 = o.len := by omega
    rw [if_neg (by omega),if_neg (by omega)]
    obtain ⟨new,st',hrun,hroot,hnew,helems,hin,hout,hwrites⟩ :=
      appendSlice_ok c ho (List.replicate (k-o.len+1) [])
    rw [List.length_replicate] at hnew hin hout hwrites
    have hstore : (do
        let new ← appendSlice c o (List.replicate (k-o.len+1) [])
        writeSlice new k v
        pure (.slice new) : M ω Any) st = .ok (.slice new,setAt st' new.base k v) := by
      rw [bind_ok hrun,bind_ok (writeSlice_ok (by omega))]
      rfl
    refine ⟨new,setAt st' new.base k v,hstore,hroot,?_,?_⟩
    · rw [elems_setAt_same rfl,helems,Target.left,if_neg (by omega),putAt,hlen,
        show k+1-o.len = k-o.len+1 by omega]
    · by_cases hcap : k+1 ≤ o.cap
      · rw [hin (by omega)]
        refine (hwrites.set_same k v).congr fun p => ?_
        rw [Target.written,if_neg hlow,if_neg hlast,if_pos hcap]
        exact written_padded (by omega) hcap v p
      · rw [hout (by omega)]
        refine (hwrites.set_new le_rfl k v).congr fun p => ?_
        rw [Target.written,if_neg hlow,if_neg hlast,if_neg hcap,if_neg fun h => hcap (by omega)]

theorem left_eq_iff {ts : List Bytes} {k : ℕ} {i : Position c st₀ parent k} :
    (Target.elem k i).left ts v = putAt ts k v ↔ (k+1 = ts.length → ts[k]? = some v) := by
  rw [Target.left]
  by_cases hk : k+1 = ts.length
  · have hput : putAt ts k v = ts.set k v := by
      rw [putAt,hk,Nat.sub_self,List.replicate_zero,List.append_nil]
    rw [if_pos hk,hput]
    constructor
    · intro h _
      rw [h,List.getElem?_set_self (by omega)]
    · intro h
      obtain ⟨hlt,hget⟩ := List.getElem?_eq_some_iff.mp (h hk)
      rw [← hget,List.set_getElem_self]
  · rw [if_neg hk]
    exact iff_of_true rfl fun h => absurd h hk

end Update

/-! ### When the assignment is right -/

def oldSlice (st : Store ω) (name : Bytes) : Slice :=
  match st.rootMap name with
  | some (.slice old) => old
  | _ => ⟨0,0,0⟩

/-- What a variable shows. -/
inductive Shown
  | value (x : Any)
  | list (ts : List Bytes)
  deriving DecidableEq

def shown (st : Store ω) : Any → Shown
  | .slice sl => .list (elems st sl)
  | x => .value x

def visible (st : Store ω) (parent : Parent) (y : Bytes) : Option Any := (st.rootMap y).or (parent y)

/-- The slices of all variables lie within their arrays. -/
def SlicesOk (st : Store ω) (parent : Parent) : Prop :=
  ∀ y sl, visible st parent y = some (.slice sl) → SliceOk st sl

namespace Target
variable {c : Conf ω} {st : Store ω} {parent : Parent}

/-- What the variable should show. -/
def Shows (target : Target c st parent) (st₁ : Store ω) (name : Bytes) (x : Any) (r : Option Shown) :
    Prop :=
  match target with
  | var => r = some (shown st₁ x)
  | add => ∃ v, x = .str v ∧ r = some (.list (elems st₁ (oldSlice st₁ name)++[v]))
  | elem k _ => ∃ v, x = .str v ∧ r = some (.list (putAt (elems st₁ (oldSlice st₁ name)) k v))

/-- The statement returns, the variable shows the new value and every other one what it showed
when the value had been expanded, to `x` in `st₁`. -/
def Assigns (d : ℕ) (target : Target c st parent) (name : Bytes) (m n : ℕ) (t : Bytes)
    (st₁ : Store ω) (x : Any) : Prop :=
  ∃ r st₂, parseBody c (c.callbacks (d+1)) (assignHead name target m n++t) parent true st =
      .ok (r,st₂) ∧
    target.Shows st₁ name x ((st₂.rootMap name).map (shown st₂)) ∧
    ∀ y, y ≠ name → (visible st₂ parent y).map (shown st₂) = (visible st₁ parent y).map (shown st₁)

/-- No other variable has a slice of the same array that reaches a place where another text is
written. -/
def Unseen (target : Target c st parent) (st₁ : Store ω) (name : Bytes) (v : Bytes) : Prop :=
  ∀ y, y ≠ name → ∀ sl, visible st₁ parent y = some (.slice sl) →
    sl.base = (oldSlice st₁ name).base → ∀ p < sl.len, ∀ w,
      target.written (oldSlice st₁ name) v p = some w → (st₁.heap sl.base)[p]? = some w

/-- The value of an element is a string, it is not put in the place of another last element,
and its store is not seen through other variables. -/
def Fits (target : Target c st parent) (st₁ : Store ω) (name : Bytes) (x : Any) : Prop :=
  match target with
  | var => True
  | add => ∃ v, x = .str v ∧ (add : Target c st parent).Unseen st₁ name v
  | elem k i => ∃ v, x = .str v ∧
      (k+1 = (elems st₁ (oldSlice st₁ name)).length →
        (elems st₁ (oldSlice st₁ name))[k]? = some v) ∧
      (elem k i).Unseen st₁ name v

end Target

section Right
variable {c : Conf ω} {st st₁ : Store ω} {parent : Parent} {name t : Bytes} {x : Any} {d : ℕ}

theorem SlicesOk.oldSlice (h : SlicesOk st parent) (name : Bytes) :
    SliceOk st (oldSlice st name) := by
  rw [GurlConf.oldSlice]
  split
  next old hold => exact h name old (by rw [visible,hold]; rfl)
  · exact .nil st

/-- The statement expands its value and updates the variable. -/
theorem parseBody_statement (hn : IsName name) (target : Target c st parent) (m n : ℕ) {b : UInt8}
    {u : Bytes} (hb : b ≠ 32 ∧ b ≠ 61)
    (hexp : coreBody c (c.callbacks (d+1)) (b::u) parent true st = .ok (x,st₁)) :
    parseBody c (c.callbacks (d+1)) (assignHead name target m n++b::u) parent true st =
      (updateSlice c target.slicePos (oldSlice st₁ name) x >>= fun val => do
        modify fun st => { st with rootMap := Function.update st.rootMap name (some val) }
        pure val : M ω Any) st₁ := by
  obtain ⟨a,ha,hword,hend,hpos⟩ := assignLoop_statement d hn target m n hb rfl
  have hsub : sub (assignHead name target m n++b::u) a.wEnd
      (assignHead name target m n++b::u).length = .ok (b::u) := by
    refine sub_of_drop (r:=[]) ?_ (by rw [hend]; simp) (by rw [hend]; simp)
    rw [hend,List.drop_left,List.append_nil]
  rw [parseBody,if_neg (by decide),bind_ok ha,hsub,ofExcept_ok,pure_bind,bind_ok hexp,hword,
    if_neg hn.ne_nil,hpos]
  rfl

theorem shown_congr {st st' : Store ω} (h : st'.heap = st.heap) (x : Any) :
    shown st' x = shown st x := by
  cases x <;> simp [shown,elems,h]

/-- The other variables show what they showed when the written places are not seen. -/
theorem others_iff {target : Target c st parent} {v : Bytes} {st' : Store ω} (new : Slice)
    (hroot : st'.rootMap = st₁.rootMap) (hok : SlicesOk st₁ parent)
    (hwrites : Writes st₁ st' (oldSlice st₁ name) (target.written (oldSlice st₁ name) v)) :
    (∀ y, y ≠ name →
      (visible { st' with rootMap := Function.update st'.rootMap name (some (.slice new)) } parent
        y).map (shown st') = (visible st₁ parent y).map (shown st₁)) ↔
      target.Unseen st₁ name v := by
  refine forall₂_congr fun y hy => ?_
  have hvisible : visible { st' with
      rootMap := Function.update st'.rootMap name (some (.slice new)) } parent y =
        visible st₁ parent y := by
    simp only [visible,Function.update_of_ne hy,hroot]
  rw [hvisible]
  cases hval : visible st₁ parent y with
  | none => simp
  | some z =>
    cases z with
    | slice sl =>
      have hiff := hwrites.elems_iff (hok y sl hval)
      simpa [shown] using hiff
    | str t => simp [shown]
    | int n => simp [shown]
    | bool b => simp [shown]
    | other n => simp [shown]

/-- An assignment to an element. -/
theorem assigns_slice_iff (hn : IsName name) (target : Target c st parent) (m n : ℕ) {b : UInt8}
    {u v : Bytes} (hb : b ≠ 32 ∧ b ≠ 61)
    (hexp : coreBody c (c.callbacks (d+1)) (b::u) parent true st = .ok (.str v,st₁))
    (hok : SlicesOk st₁ parent)
    (hupdate : ∃ new st', updateSlice c target.slicePos (oldSlice st₁ name) (.str v) st₁ =
        .ok (.slice new,st') ∧ st'.rootMap = st₁.rootMap ∧
      elems st' new = target.left (elems st₁ (oldSlice st₁ name)) v ∧
      Writes st₁ st' (oldSlice st₁ name) (target.written (oldSlice st₁ name) v)) :
    target.Assigns d name m n (b::u) st₁ (.str v) ↔
      target.Shows st₁ name (.str v)
          (some (.list (target.left (elems st₁ (oldSlice st₁ name)) v))) ∧
        target.Unseen st₁ name v := by
  obtain ⟨new,st',hrun,hroot,helems,hwrites⟩ := hupdate
  let st₂ : Store ω := { st' with rootMap := Function.update st'.rootMap name (some (.slice new)) }
  have hparse : parseBody c (c.callbacks (d+1)) (assignHead name target m n++b::u) parent true st =
      .ok (.slice new,st₂) := by
    rw [parseBody_statement hn target m n hb hexp,bind_ok hrun]
    rfl
  have hshown : shown st₂ = shown st' := funext (shown_congr rfl)
  have hname : (st₂.rootMap name).map (shown st₂) =
      some (.list (target.left (elems st₁ (oldSlice st₁ name)) v)) := by
    rw [hshown,← helems]
    simp [st₂,shown]
  rw [← hname,← others_iff new hroot hok hwrites,← hshown]
  constructor
  · rintro ⟨r,st₃,hr,h⟩
    cases hparse.symm.trans hr
    exact h
  · intro h
    exact ⟨_,st₂,hparse,h⟩

/-- A value that is no string stops the assignment to an element. -/
theorem not_assigns_slice (hn : IsName name) (target : Target c st parent) (m n : ℕ) {b : UInt8}
    {u : Bytes} (hb : b ≠ 32 ∧ b ≠ 61)
    (hexp : coreBody c (c.callbacks (d+1)) (b::u) parent true st = .ok (x,st₁))
    (hpos : ∀ o, updateSlice c target.slicePos o x st₁ = .error (.panic .typeAssertion)) :
    ¬target.Assigns d name m n (b::u) st₁ x := by
  rintro ⟨r,st₂,hr,-⟩
  rw [parseBody_statement hn target m n hb hexp,bind_error (hpos _)] at hr
  cases hr

/-- An assignment does what it says exactly when the value of an element is a string that is not
put in the place of another last element, and the store is not seen through other variables. -/
theorem assigns_iff (d : ℕ) (hn : IsName name) (target : Target c st parent) (m n : ℕ) {b : UInt8}
    {u : Bytes} (hb : b ≠ 32 ∧ b ≠ 61)
    (hexp : coreBody c (c.callbacks (d+1)) (b::u) parent true st = .ok (x,st₁))
    (hok : SlicesOk st₁ parent) :
    target.Assigns d name m n (b::u) st₁ x ↔ target.Fits st₁ name x := by
  cases target with
  | var =>
    refine iff_of_true ⟨x,{ st₁ with rootMap := Function.update st₁.rootMap name (some x) },?_,?_,?_⟩
      trivial
    · rw [parseBody_statement hn .var m n hb hexp]
      rfl
    · simp only [Target.Shows,Function.update_self,Option.map_some]
      exact congrArg some (shown_congr rfl x)
    · intro y hy
      simp only [visible,Function.update_of_ne hy]
      exact congrArg (Option.map · _) (funext (shown_congr rfl))
  | add =>
    by_cases hx : ∃ v, x = .str v
    · obtain ⟨v,rfl⟩ := hx
      rw [assigns_slice_iff hn .add m n hb hexp hok
        (updateSlice_add c (hok.oldSlice name) v)]
      simp [Target.Shows,Target.Fits,Target.left]
    · refine iff_of_false (not_assigns_slice hn .add m n hb hexp fun o => ?_) fun h => ?_
      · cases x with
        | str v => exact absurd ⟨v,rfl⟩ hx
        | _ => rfl
      · obtain ⟨v,hv,-⟩ := h
        exact hx ⟨v,hv⟩
  | elem k i =>
    by_cases hx : ∃ v, x = .str v
    · obtain ⟨v,rfl⟩ := hx
      rw [assigns_slice_iff hn (.elem k i) m n hb hexp hok
        (updateSlice_elem c (hok.oldSlice name) k i v)]
      simp [Target.Shows,Target.Fits,left_eq_iff]
    · refine iff_of_false (not_assigns_slice hn (.elem k i) m n hb hexp fun o => ?_) fun h => ?_
      · have hstep : ∀ y, y = x → updateSlice c (.at k) o y st₁ =
            .error (.panic .typeAssertion) := by
          rintro y rfl
          rw [updateSlice,if_neg (by omega)]
          cases y with
          | str v => exact absurd ⟨v,rfl⟩ hx
          | _ => rfl
        exact hstep x rfl
      · obtain ⟨v,hv,-⟩ := h
        exact hx ⟨v,hv⟩

end Right

section Demo

def plain : Conf Unit := ⟨fun _ => none,id⟩

theorem visible_slices {y : Bytes} {sl : Slice}
    (h : visible slices (fun _ => none) y = some (.slice sl)) :
    y = [97] ∧ sl = ⟨0,2,2⟩ ∨ y = [98] ∧ sl = ⟨1,1,1⟩ := by
  simp only [visible,slices,Option.or_none] at h
  split_ifs at h with ha hb
  · cases h
    exact .inl ⟨ha,rfl⟩
  · cases h
    exact .inr ⟨hb,rfl⟩

theorem slicesOk_slices : SlicesOk slices fun _ => none := by
  intro y sl h
  rcases visible_slices h with ⟨-,rfl⟩ | ⟨-,rfl⟩
  · exact ⟨le_rfl,le_rfl,.inr (by decide)⟩
  · exact ⟨le_rfl,le_rfl,.inr (by decide)⟩

/-- `$a[0] = z`, with two elements in `a`. -/
theorem assigns_first : (Target.elem 0 (.lit [48] rfl) : Target plain slices fun _ => none).Assigns 0
    [97] 1 1 [122] slices (.str [122]) := by
  refine (assigns_iff 0 (isName_one (by decide)) _ 1 1 (by decide) rfl slicesOk_slices).mpr
    ⟨[122],rfl,by decide,fun y hy sl hsl hbase => ?_⟩
  rcases visible_slices hsl with ⟨rfl,-⟩ | ⟨-,rfl⟩
  · exact absurd rfl hy
  · exact absurd hbase (by decide)

/-- `$b[0] = z`, with one element in `b`. -/
theorem not_assigns_only : ¬∀ (c : Conf Unit) (st st₁ : Store Unit) (parent : Parent)
    (name u : Bytes) (b : UInt8) (x : Any) (target : Target c st parent), IsName name →
      b ≠ 32 ∧ b ≠ 61 → SlicesOk st₁ parent →
        coreBody c (c.callbacks 1) (b::u) parent true st = .ok (x,st₁) →
          target.Assigns 0 name 1 1 (b::u) st₁ x := by
  intro h
  let target : Target plain slices fun _ => none := .elem 0 (.lit [48] rfl)
  have hname : IsName [98] := isName_one (by decide)
  have hall := h plain slices slices (fun _ => none) [98] [] 122 (.str [122]) target hname (by decide)
    slicesOk_slices rfl
  have hupdate := updateSlice_elem plain (slicesOk_slices.oldSlice [98]) 0
    (.lit [48] rfl : Position plain slices (fun _ => none) 0) [122]
  obtain ⟨v,hv,hlist⟩ := ((assigns_slice_iff hname target 1 1 (by decide) rfl slicesOk_slices
    hupdate).mp hall).1
  cases hv
  revert hlist
  decide

end Demo

end GurlConf
end RecycleBin
