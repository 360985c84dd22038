import RecycleBin.StrDel
import RecycleBin.AntDns
import RecycleBin.GasInt

/-!
# Searches in strings

`ho_strstr.c` and `ho_strrchr.c`. An array is the list of its bytes, the terminator
included; a `char` is signed.
-/

namespace RecycleBin
namespace HoString

open AntHash AntDns GasInt Occurrence StrDel

/-! ## The code -/

/-- `for (;*p1 && (*p1 == *p2); p1++, p2++)`: the byte `p1` stops at. A pointer is what is
left of its array. -/
def matchLoop : Bytes → Bytes → Except Fault UInt8
  | [],_ => .error .undefined
  | a::p1,p2 =>
    if a = 0 then .ok a
    else
      match p2 with
      | [] => .error .undefined
      | b::p2 => if a = b then matchLoop p1 p2 else .ok a

/-- The loop over `s1`, with the bytes already passed. -/
def searchLoop (s2 : Bytes) : ℕ → Bytes → Except Fault (Option ℕ)
  | _,[] => .error .undefined
  | i,a::s1 =>
    if a = 0 then .ok none
    else do
      let c ← matchLoop (a::s1) s2
      if c = 0 then .ok (some i) else searchLoop s2 (i+1) s1

/-- `ho_strstr`: the index of the result in `s1`, or none for `NULL`. -/
def ho_strstr (s1 s2 : Bytes) : Except Fault (Option ℕ) := do
  let c ← load s2 0
  if c = 0 then .ok (some 0) else searchLoop s2 0 s1

/-- `for (p = s; *p; p++);` -/
def terminator : Bytes → Except Fault ℕ
  | [] => .error .undefined
  | a::p =>
    if a = 0 then .ok 0
    else do
      let n ← terminator p
      .ok (n+1)

/-- `while (s <= p)`, where `p` is behind `n` bytes of `s`. -/
def backLoop (s : Bytes) (cc : UInt8) : ℕ → Except Fault (Option ℕ)
  | 0 => .ok none
  | n+1 => do
    let a ← load s n
    if charValue a = cc.toNat then .ok (some n) else backLoop s cc n

/-- `ho_strrchr`: the index of the result, or none for `NULL`. -/
def ho_strrchr (s : Bytes) (c : Word) : Except Fault (Option ℕ) := do
  let n ← terminator s
  backLoop s (.ofNat c.toNat) (n+1)

/-- The loop of `ho_strrchr2`, with the bytes passed and `p`. -/
def hitLoop (c : Word) : ℕ → Option ℕ → Bytes → Except Fault (Option ℕ)
  | _,_,[] => .error .undefined
  | i,p,a::s =>
    if a = 0 then .ok p
    else hitLoop c (i+1) (if charValue a = c.toInt then some i else p) s

/-- `ho_strrchr2`: the index of the result, or none for `NULL`. -/
def ho_strrchr2 (s : Bytes) (c : Word) : Except Fault (Option ℕ) :=
  hitLoop c 0 none s

/-! ## What the searches are for -/

/-- The place of the first occurrence of `w`, or none where it does not occur. -/
def FirstAt (w s : Bytes) : Option ℕ → Prop
  | some q => OccursAt w s q ∧ ∀ q',OccursAt w s q' → q ≤ q'
  | none => ∀ q,¬OccursAt w s q

/-- `ho_strstr` finds the first occurrence, and reads no byte behind the terminators. -/
def Finds (s1 s2 : Bytes) : Prop :=
  ∃ r,ho_strstr (s1++[0]) (s2++[0]) = .ok r ∧ FirstAt s2 s1 r

/-- The place of the last `b`, or none where there is no such byte. -/
def LastAt (b : UInt8) (s : Bytes) : Option ℕ → Prop
  | some i => s[i]? = some b ∧ ∀ j,s[j]? = some b → j ≤ i
  | none => b ∉ s

/-- Both reverse searches find the last byte equal to `c` as a `char`. -/
def FindBoth (s : Bytes) (c : Word) : Prop :=
  ∃ r,ho_strrchr (s++[0]) c = .ok r ∧ ho_strrchr2 (s++[0]) c = .ok r ∧
    LastAt (.ofNat c.toNat) (s++[0]) r

/-! ## The forward search -/

section Strstr

variable {s1 s2 : Bytes}

/-- `p1` reaches its terminator where what is left of `s1` begins `s2`. -/
theorem matchLoop_spec (s1 s2 : Bytes) (h1 : 0 ∉ s1) (h2 : 0 ∉ s2) :
    ∃ c,matchLoop (s1++[0]) (s2++[0]) = .ok c ∧ (c = 0 ↔ s1 <+: s2) := by
  induction s1 generalizing s2 with
  | nil => exact ⟨0,rfl,by simp⟩
  | cons a s1 ih =>
    obtain ⟨ha,h1⟩ := List.ne_and_not_mem_of_not_mem_cons h1
    cases s2 with
    | nil =>
      refine ⟨a,?_,by simp [Ne.symm ha]⟩
      simp only [List.cons_append,List.nil_append,matchLoop,if_neg (Ne.symm ha)]
    | cons b s2 =>
      obtain ⟨-,h2⟩ := List.ne_and_not_mem_of_not_mem_cons h2
      simp only [List.cons_append,matchLoop,if_neg (Ne.symm ha)]
      by_cases hab : a = b
      · obtain ⟨c,hc,hiff⟩ := ih s2 h1 h2
        refine ⟨c,by rw [if_pos hab,hc],?_⟩
        rw [hiff,List.cons_prefix_cons]
        simp [hab]
      · refine ⟨a,by rw [if_neg hab],?_⟩
        rw [List.cons_prefix_cons]
        simp [Ne.symm ha,hab]

/-- What the search reports: the first place from which on `s1` is a beginning of `s2`. -/
def Ends (s1 s2 : Bytes) (i : ℕ) : Prop :=
  i < s1.length ∧ s1.drop i <+: s2

/-- The index the loop returns, counted from the byte it begins with. -/
def FirstEnd (s1 s2 : Bytes) : Option ℕ → Prop
  | some i => Ends s1 s2 i ∧ ∀ j,Ends s1 s2 j → i ≤ j
  | none => ∀ j,¬Ends s1 s2 j

theorem ends_cons_zero (a : UInt8) : Ends (a::s1) s2 0 ↔ a::s1 <+: s2 := by
  simp [Ends]

theorem ends_cons_succ (a : UInt8) (j : ℕ) : Ends (a::s1) s2 (j+1) ↔ Ends s1 s2 j := by
  simp [Ends]

/-- The result for a longer string is that for the rest, one byte on. -/
theorem FirstEnd.cons {a : UInt8} {r : Option ℕ} (h : FirstEnd s1 s2 r)
    (hnot : ¬a::s1 <+: s2) : FirstEnd (a::s1) s2 (r.map (·+1)) := by
  cases r with
  | none =>
    rintro (_ | j) hj
    · exact hnot ((ends_cons_zero a).mp hj)
    · exact h j ((ends_cons_succ a j).mp hj)
  | some i =>
    refine ⟨(ends_cons_succ a i).mpr h.1,?_⟩
    rintro (_ | j) hj
    · exact absurd ((ends_cons_zero a).mp hj) hnot
    · exact Nat.succ_le_succ (h.2 j ((ends_cons_succ a j).mp hj))

theorem searchLoop_spec (s1 : Bytes) (h1 : 0 ∉ s1) (h2 : 0 ∉ s2) (i : ℕ) :
    ∃ r,searchLoop (s2++[0]) i (s1++[0]) = .ok (r.map (i+·)) ∧ FirstEnd s1 s2 r := by
  induction s1 generalizing i with
  | nil =>
    refine ⟨none,rfl,?_⟩
    rintro j ⟨hj,-⟩
    exact absurd hj (Nat.not_lt_zero j)
  | cons a s1 ih =>
    obtain ⟨c,hc,hiff⟩ := matchLoop_spec (a::s1) s2 h1 h2
    obtain ⟨ha,h1⟩ := List.ne_and_not_mem_of_not_mem_cons h1
    rw [List.cons_append] at hc
    rw [List.cons_append,searchLoop,if_neg (Ne.symm ha),hc,ok_bind]
    by_cases h0 : c = 0
    · exact ⟨some 0,by rw [if_pos h0]; rfl,(ends_cons_zero a).mpr (hiff.mp h0),
        fun j _ => Nat.zero_le j⟩
    · obtain ⟨r,hr,hfirst⟩ := ih h1 (i+1)
      refine ⟨r.map (·+1),?_,hfirst.cons fun hpre => h0 (hiff.mpr hpre)⟩
      rw [if_neg h0,hr]
      cases r with
      | none => rfl
      | some j => simp only [Option.map_some,Nat.add_assoc,Nat.add_comm 1 j]

theorem ho_strstr_empty : ho_strstr (s1++[0]) [0] = .ok (some 0) := rfl

theorem ho_strstr_spec (h1 : 0 ∉ s1) (h2 : 0 ∉ s2) (hne : s2 ≠ []) :
    ∃ r,ho_strstr (s1++[0]) (s2++[0]) = .ok r ∧ FirstEnd s1 s2 r := by
  obtain ⟨b,t,rfl⟩ := List.exists_cons_of_ne_nil hne
  obtain ⟨r,hr,hfirst⟩ := searchLoop_spec s1 h1 h2 0
  have hb : b ≠ 0 := fun h0 => h2 (h0 ▸ List.mem_cons_self)
  have hload : load (b::t++[0]) 0 = .ok b := rfl
  refine ⟨r,?_,hfirst⟩
  rw [ho_strstr,hload,ok_bind,if_neg hb,hr]
  cases r with
  | none => rfl
  | some j => simp only [Option.map_some,Nat.zero_add]

/-- `s2` is empty; or it stands at the end of `s1` and nowhere before; or it does not stand
in `s1`, and no end of `s1` begins it. -/
def Settled (s1 s2 : Bytes) : Prop :=
  s2 = [] ∨ (∃ pre,s1 = pre++s2 ∧ ∀ q,OccursAt s2 s1 q → q = pre.length) ∨
    ((∀ q,¬OccursAt s2 s1 q) ∧ ∀ t,t ≠ [] → t <:+ s1 → ¬t <+: s2)

/-- An occurrence the search reports is the end of the string. -/
theorem Ends.append {q : ℕ} (h : Ends s1 s2 q) (hocc : OccursAt s2 s1 q) :
    s1 = s1.take q++s2 := by
  have heq : s1.drop q = s2 :=
    h.2.eq_of_length (le_antisymm h.2.length_le hocc.length_le)
  calc
    s1 = s1.take q++s1.drop q := (List.take_append_drop q s1).symm
    _ = s1.take q++s2 := by rw [heq]

theorem Settled.of_first (hne : s2 ≠ []) {r : Option ℕ} (hend : FirstEnd s1 s2 r)
    (hat : FirstAt s2 s1 r) : Settled s1 s2 := by
  cases r with
  | some q =>
    have hsplit := hend.1.append hat.1
    have hq : (s1.take q).length = q := List.length_take_of_le hend.1.1.le
    refine .inr (.inl ⟨s1.take q,hsplit,fun q' hq' => ?_⟩)
    have hlen := congrArg List.length hsplit
    have hle := hq'.le hne
    have hfirst := hat.2 q' hq'
    rw [List.length_append,hq] at hlen
    omega
  | none =>
    refine .inr (.inr ⟨hat,?_⟩)
    rintro t ht ⟨pre,rfl⟩ hpre
    have hpos := List.length_pos_of_ne_nil ht
    exact hend pre.length ⟨by rw [List.length_append]; omega,by rwa [List.drop_left]⟩

theorem Settled.firstAt (hne : s2 ≠ []) {r : Option ℕ} (hend : FirstEnd s1 s2 r)
    (h : Settled s1 s2) : FirstAt s2 s1 r := by
  obtain h | ⟨pre,rfl,honly⟩ | ⟨hnone,hends⟩ := h
  · exact absurd h hne
  · have hpos := List.length_pos_of_ne_nil hne
    have hpre : Ends (pre++s2) s2 pre.length :=
      ⟨by rw [List.length_append]; omega,by rw [List.drop_left]⟩
    have hocc : OccursAt s2 (pre++s2) pre.length := by rw [OccursAt,List.drop_left]
    cases r with
    | none => exact absurd hpre (hend pre.length)
    | some i =>
      have hle := hend.2 pre.length hpre
      have hlen := hend.1.2.length_le
      rw [List.length_drop,List.length_append] at hlen
      have hi : i = pre.length := by omega
      subst hi
      exact ⟨hocc,fun q hq => (honly q hq).ge⟩
  · cases r with
    | none => exact hnone
    | some i =>
      have hpos : (s1.drop i).length ≠ 0 := by
        rw [List.length_drop]
        have hlt := hend.1.1
        omega
      exact absurd hend.1.2
        (hends (s1.drop i) (List.ne_nil_of_length_pos (by omega)) (List.drop_suffix i s1))

/-- The search is right where the needle is empty, ends the haystack and stands nowhere
before, or is missing and no end of the haystack begins it. -/
theorem ho_strstr_finds (s1 s2 : Bytes) (h1 : 0 ∉ s1) (h2 : 0 ∉ s2) :
    Finds s1 s2 ↔ Settled s1 s2 := by
  by_cases hne : s2 = []
  · subst hne
    have hfirst : FirstAt [] s1 (some 0) := ⟨List.nil_prefix,fun q _ => Nat.zero_le q⟩
    exact ⟨fun _ => .inl rfl,fun _ => ⟨some 0,ho_strstr_empty,hfirst⟩⟩
  · obtain ⟨r,hr,hend⟩ := ho_strstr_spec h1 h2 hne
    constructor
    · rintro ⟨r',hr',hat⟩
      obtain rfl : r = r' := by
        rw [hr] at hr'
        exact Except.ok.inj hr'
      exact Settled.of_first hne hend hat
    · exact fun h => ⟨r,hr,h.firstAt hne hend⟩

/-- "abc" stands at the end of "1234678abc". -/
theorem ho_strstr_finds_abc :
    Finds (CString.ascii "1234678abc") (CString.ascii "abc") ↔
      Settled (CString.ascii "1234678abc") (CString.ascii "abc") :=
  ho_strstr_finds _ _ (by decide) (by decide)

/-- "123" is not found in "1234678abc". -/
theorem ho_strstr_misses :
    ¬Finds (CString.ascii "1234678abc") (CString.ascii "123") := by
  rintro ⟨r,hr,hat⟩
  have hnone : ho_strstr (CString.ascii "1234678abc"++[0]) (CString.ascii "123"++[0]) =
      .ok none := by decide
  rw [hnone] at hr
  cases hr
  exact hat 0 (by decide)

end Strstr

/-! ## The reverse searches -/

theorem charValue_eq (b : UInt8) :
    charValue b = if b.toNat < 128 then (b.toNat : ℤ) else b.toNat-256 := by
  revert b
  exact CString.forall_byte (by decide +kernel)

/-- As an unsigned `char`, `cc` is met by the bytes below 128 only. -/
theorem charValue_eq_toNat {a b : UInt8} : charValue a = b.toNat ↔ a = b ∧ b.toNat < 128 := by
  have ha := a.toNat_lt
  have hb := b.toNat_lt
  rw [charValue_eq,← UInt8.toNat_inj]
  split_ifs <;> omega

/-- A byte equal to `c` itself is `c` as a `char`. -/
theorem charValue_eq_toInt {a : UInt8} {c : Word} :
    charValue a = c.toInt ↔ a = .ofNat c.toNat ∧ -128 ≤ c.toInt ∧ c.toInt ≤ 127 := by
  have ha := a.toNat_lt
  have hc := c.isLt
  have hcast : (UInt8.ofNat c.toNat).toNat = c.toNat%256 := UInt8.toNat_ofNat'
  rw [charValue_eq,← UInt8.toNat_inj,hcast,BitVec.toInt_eq_toNat_cond]
  split_ifs <;> omega

/-- The place of the last byte with a property. -/
def LastWith (P : UInt8 → Prop) (s : Bytes) : Option ℕ → Prop
  | some i => (∃ a,s[i]? = some a ∧ P a) ∧ ∀ j a,s[j]? = some a → P a → j ≤ i
  | none => ∀ a ∈ s,¬P a

theorem lastWith_eq (b : UInt8) (s : Bytes) (r : Option ℕ) :
    LastWith (· = b) s r ↔ LastAt b s r := by
  cases r with
  | none => exact ⟨fun h hb => h b hb rfl,fun h a ha hab => h (hab ▸ ha)⟩
  | some i =>
    constructor
    · rintro ⟨⟨a,ha,rfl⟩,hlast⟩
      exact ⟨ha,fun j hj => hlast j a hj rfl⟩
    · rintro ⟨hb,hlast⟩
      exact ⟨⟨b,hb,rfl⟩,fun j a ha hab => hlast j (hab ▸ ha)⟩

theorem LastWith.congr {P Q : UInt8 → Prop} {s : Bytes} (h : ∀ a ∈ s,P a ↔ Q a)
    {r : Option ℕ} (hr : LastWith P s r) : LastWith Q s r := by
  cases r with
  | none => exact fun a ha hq => hr a ha ((h a ha).mpr hq)
  | some i =>
    obtain ⟨⟨a,ha,hp⟩,hlast⟩ := hr
    refine ⟨⟨a,ha,(h a (List.mem_of_getElem? ha)).mp hp⟩,fun j b hj hq => ?_⟩
    exact hlast j b hj ((h b (List.mem_of_getElem? hj)).mpr hq)

/-- There is one last place at most. -/
theorem LastWith.unique {P : UInt8 → Prop} {s : Bytes} {r r' : Option ℕ}
    (h : LastWith P s r) (h' : LastWith P s r') : r = r' := by
  cases r with
  | none =>
    cases r' with
    | none => rfl
    | some j =>
      obtain ⟨⟨a,ha,hp⟩,-⟩ := h'
      exact absurd hp (h a (List.mem_of_getElem? ha))
  | some i =>
    obtain ⟨⟨a,ha,hp⟩,hlast⟩ := h
    cases r' with
    | none => exact absurd hp (h' a (List.mem_of_getElem? ha))
    | some j =>
      obtain ⟨⟨b,hb,hq⟩,hlast'⟩ := h'
      exact congrArg some (le_antisymm (hlast' i a ha hp) (hlast j b hb hq))

/-- One byte more at the end is the last one, or changes nothing. -/
theorem LastWith.concat {P : UInt8 → Prop} [DecidablePred P] {s : Bytes} {r : Option ℕ}
    (h : LastWith P s r) (a : UInt8) :
    LastWith P (s++[a]) (if P a then some s.length else r) := by
  have hread : ∀ {j b},(s++[a])[j]? = some b → s[j]? = some b ∨ j = s.length ∧ b = a := by
    intro j b hj
    rcases Nat.lt_or_ge j s.length with hlt | hge
    · rw [List.getElem?_append_left hlt] at hj
      exact .inl hj
    · rw [List.getElem?_append_right hge] at hj
      have hzero := (List.getElem?_eq_some_iff.mp hj).1
      rw [List.length_singleton] at hzero
      have hj' : j = s.length := by omega
      subst hj'
      rw [Nat.sub_self] at hj
      exact .inr ⟨rfl,(Option.some.inj hj).symm⟩
  split_ifs with ha
  · refine ⟨⟨a,List.getElem?_concat_length,ha⟩,fun j b hj _ => ?_⟩
    rcases hread hj with hj | ⟨rfl,-⟩
    · exact (List.getElem?_eq_some_iff.mp hj).1.le
    · exact le_rfl
  · cases r with
    | none =>
      intro b hb
      rcases List.mem_append.mp hb with hb | hb
      · exact h b hb
      · rwa [List.mem_singleton.mp hb]
    | some i =>
      obtain ⟨⟨b,hb,hp⟩,hlast⟩ := h
      refine ⟨⟨b,?_,hp⟩,fun j c hj hq => ?_⟩
      · rwa [List.getElem?_append_left (List.getElem?_eq_some_iff.mp hb).1]
      · rcases hread hj with hj | ⟨-,rfl⟩
        · exact hlast j c hj hq
        · exact absurd hq ha

theorem terminator_eq {s : Bytes} (h : 0 ∉ s) : terminator (s++[0]) = .ok s.length := by
  induction s with
  | nil => rfl
  | cons a s ih =>
    obtain ⟨ha,h⟩ := List.ne_and_not_mem_of_not_mem_cons h
    rw [List.cons_append,terminator,if_neg (Ne.symm ha),ih h]
    rfl

/-- The backward loop, over a beginning of the array. -/
theorem backLoop_spec (cc : UInt8) (t rest : Bytes) :
    ∃ r,backLoop (t++rest) cc t.length = .ok r ∧
      LastWith (fun a => charValue a = cc.toNat) t r := by
  induction t using List.reverseRecOn generalizing rest with
  | nil => exact ⟨none,rfl,fun a ha => absurd ha List.not_mem_nil⟩
  | append_singleton t a ih =>
    obtain ⟨r,hr,hlast⟩ := ih (a::rest)
    have hload : load (t++(a::rest)) t.length = .ok a := by
      rw [load,List.getElem?_append_right le_rfl,Nat.sub_self]
      rfl
    refine ⟨if charValue a = cc.toNat then some t.length else r,?_,hlast.concat a⟩
    rw [List.append_assoc,List.singleton_append,List.length_append,List.length_singleton,
      backLoop,hload,ok_bind]
    split_ifs
    · rfl
    · exact hr

theorem ho_strrchr_spec {s : Bytes} (h : 0 ∉ s) (c : Word) :
    ∃ r,ho_strrchr (s++[0]) c = .ok r ∧
      LastWith (fun a => charValue a = (UInt8.ofNat c.toNat).toNat) (s++[0]) r := by
  obtain ⟨r,hr,hlast⟩ := backLoop_spec (.ofNat c.toNat) (s++[0]) []
  refine ⟨r,?_,hlast⟩
  rw [ho_strrchr,terminator_eq h,ok_bind]
  rw [List.append_nil,List.length_append,List.length_singleton] at hr
  exact hr

/-- The forward loop: `p` is the last hit among the bytes passed. -/
theorem hitLoop_spec (c : Word) (s : Bytes) (h : 0 ∉ s) (t : Bytes) {p : Option ℕ}
    (hp : LastWith (fun a => charValue a = c.toInt) t p) :
    ∃ r,hitLoop c t.length p (s++[0]) = .ok r ∧
      LastWith (fun a => charValue a = c.toInt) (t++s) r := by
  induction s generalizing t p with
  | nil => exact ⟨p,rfl,by rwa [List.append_nil]⟩
  | cons a s ih =>
    obtain ⟨ha,h⟩ := List.ne_and_not_mem_of_not_mem_cons h
    obtain ⟨r,hr,hlast⟩ := ih h (t++[a]) (hp.concat a)
    refine ⟨r,?_,?_⟩
    · rw [List.cons_append,hitLoop,if_neg (Ne.symm ha)]
      rwa [List.length_append,List.length_singleton] at hr
    · rwa [List.append_assoc,List.singleton_append] at hlast

theorem ho_strrchr2_spec {s : Bytes} (h : 0 ∉ s) (c : Word) :
    ∃ r,ho_strrchr2 (s++[0]) c = .ok r ∧ LastWith (fun a => charValue a = c.toInt) s r :=
  hitLoop_spec c s h [] (p := none) fun _ ha => absurd ha List.not_mem_nil

/-- `c` as a `char` is not the terminator, and `c` is an ASCII code or no byte of `s`. -/
def Searchable (s : Bytes) (c : Word) : Prop :=
  UInt8.ofNat c.toNat ≠ 0 ∧ (1 ≤ c.toInt ∧ c.toInt ≤ 127 ∨ UInt8.ofNat c.toNat ∉ s)

section Both

variable {s : Bytes} {c : Word}

/-- In such a search the comparison with `cc` is the one with the byte. -/
theorem Searchable.unsigned (h : Searchable s c) {a : UInt8} (ha : a ∈ s++[0]) :
    charValue a = (UInt8.ofNat c.toNat).toNat ↔ a = .ofNat c.toNat := by
  rw [charValue_eq_toNat]
  refine ⟨And.left,fun hab => ⟨hab,?_⟩⟩
  subst hab
  rcases h.2 with hascii | hmem
  · have hcast : (UInt8.ofNat c.toNat).toNat = c.toNat%256 := UInt8.toNat_ofNat'
    rw [BitVec.toInt_eq_toNat_cond] at hascii
    rw [hcast]
    split_ifs at hascii <;> omega
  · rcases List.mem_append.mp ha with ha | ha
    · exact absurd ha hmem
    · exact absurd (List.mem_singleton.mp ha) h.1

/-- And so is the comparison with `c`. -/
theorem Searchable.signed (h : Searchable s c) {a : UInt8} (ha : a ∈ s) :
    charValue a = c.toInt ↔ a = .ofNat c.toNat := by
  rw [charValue_eq_toInt]
  refine ⟨And.left,fun hab => ⟨hab,?_⟩⟩
  rcases h.2 with hascii | hmem
  · omega
  · exact absurd (hab ▸ ha) hmem

theorem Searchable.findBoth (hs : 0 ∉ s) (h : Searchable s c) : FindBoth s c := by
  obtain ⟨r,hr,hlast⟩ := ho_strrchr_spec hs c
  obtain ⟨r',hr',hlast'⟩ := ho_strrchr2_spec hs c
  have hat : LastWith (· = UInt8.ofNat c.toNat) (s++[0]) r :=
    hlast.congr fun _ ha => h.unsigned ha
  have hat' : LastWith (· = UInt8.ofNat c.toNat) (s++[0]) r' := by
    have hconcat := (hlast'.congr fun _ ha => h.signed ha).concat 0
    rwa [if_neg (Ne.symm h.1)] at hconcat
  refine ⟨r,hr,?_,(lastWith_eq _ _ r).mp hat⟩
  rw [hr',hat.unique hat']

/-- The second search passes over the terminator. -/
theorem FindBoth.ne_zero (hs : 0 ∉ s) (h : FindBoth s c) : UInt8.ofNat c.toNat ≠ 0 := by
  obtain ⟨r,-,hr2,hat⟩ := h
  obtain ⟨r',hr',hlast'⟩ := ho_strrchr2_spec hs c
  obtain rfl : r' = r := Except.ok.inj (hr'.symm.trans hr2)
  intro h0
  rw [h0] at hat
  cases r' with
  | none => exact hat (by simp)
  | some i =>
    obtain ⟨⟨a,ha,-⟩,-⟩ := hlast'
    have h0a : (s++[0])[i]? = some a := by
      rwa [List.getElem?_append_left (List.getElem?_eq_some_iff.mp ha).1]
    obtain rfl : a = 0 := Option.some.inj (h0a.symm.trans hat.1)
    exact hs (List.mem_of_getElem? ha)

/-- A byte both find is an ASCII code. -/
theorem FindBoth.ascii (hs : 0 ∉ s) (h : FindBoth s c) (hmem : UInt8.ofNat c.toNat ∈ s) :
    1 ≤ c.toInt ∧ c.toInt ≤ 127 := by
  have hne := h.ne_zero hs
  obtain ⟨r,hr1,hr2,hat⟩ := h
  obtain ⟨r₁,hr₁,hlast⟩ := ho_strrchr_spec hs c
  obtain ⟨r₂,hr₂,hlast'⟩ := ho_strrchr2_spec hs c
  obtain rfl : r₁ = r := Except.ok.inj (hr₁.symm.trans hr1)
  obtain rfl : r₂ = r₁ := Except.ok.inj (hr₂.symm.trans hr2)
  cases r₂ with
  | none => exact absurd (List.mem_append_left _ hmem) hat
  | some i =>
    obtain ⟨⟨a,-,ha⟩,-⟩ := hlast
    obtain ⟨⟨b,-,hb⟩,-⟩ := hlast'
    obtain ⟨-,hlt⟩ := charValue_eq_toNat.mp ha
    obtain ⟨-,hlow,hhigh⟩ := charValue_eq_toInt.mp hb
    have hcast : (UInt8.ofNat c.toNat).toNat = c.toNat%256 := UInt8.toNat_ofNat'
    have hpos : (UInt8.ofNat c.toNat).toNat ≠ 0 := fun h0 =>
      hne (UInt8.toNat_inj.mp h0)
    have hc := c.isLt
    rw [hcast] at hlt hpos
    rw [BitVec.toInt_eq_toNat_cond] at hlow hhigh ⊢
    split_ifs at hlow hhigh ⊢ <;> omega

/-- The two searches return the last byte where `c` is an ASCII code, or is not in the
string at all; the terminator the second one never finds. -/
theorem ho_strrchr_both (s : Bytes) (c : Word) (hs : 0 ∉ s) :
    FindBoth s c ↔ Searchable s c := by
  constructor
  · intro h
    refine ⟨h.ne_zero hs,?_⟩
    by_cases hmem : UInt8.ofNat c.toNat ∈ s
    · exact .inl (h.ascii hs hmem)
    · exact .inr hmem
  · exact fun h => h.findBoth hs

/-- The last '1' of "123123". -/
theorem ho_strrchr_both_one :
    FindBoth (CString.ascii "123123") 49 ↔ Searchable (CString.ascii "123123") 49 :=
  ho_strrchr_both _ _ (by decide)

/-- The two searches differ on the terminator of "123123". -/
theorem ho_strrchr_differ : ¬FindBoth (CString.ascii "123123") 0 := by
  rintro ⟨r,hr,hr',-⟩
  have h1 : ho_strrchr (CString.ascii "123123"++[0]) 0 = .ok (some 6) := by decide
  have h2 : ho_strrchr2 (CString.ascii "123123"++[0]) 0 = .ok none := by decide
  have heq := h1.symm.trans (hr.trans (hr'.symm.trans h2))
  cases heq

end Both

end HoString
end RecycleBin
