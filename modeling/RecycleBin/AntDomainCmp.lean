import RecycleBin.AntUrl

/-! `domain_cmp` of `ant_url.c`. A text stands at the start of its block: a read in front of
it, or behind its NUL, is undefined. -/
namespace RecycleBin
namespace AntDomainCmp
open AntHash (Bytes)
open AntVisited (isspace tolower http https)
open AntUrl (Text)
open CString

/-- "http" -/
def word : Bytes := [104,116,116,112]

/-- The bytes in front of `p`, the last one first, begin with `w`; the tests stop at the first
that fails. -/
def behind : Bytes → Bytes → Except Fault Bool
  | [], _ => .ok true
  | _::_, [] => .error .undefined
  | c::w, b::seen => if b = c then behind w seen else .ok false

/-- `while (*p && (p[-1] != '/' || p[-2] != '/' || p[-3] != ':')) p++` -/
def skipLoop : Bytes → Bytes → Except Fault Bytes
  | _, [] => .ok []
  | seen, b::p => do
    if ← behind [47,47,58] seen then .ok (b::p) else skipLoop (b::seen) p

/-- Where the comparison of `d` starts. -/
def skipHttp (d : Bytes) : Except Fault Bytes :=
  let p := d.dropWhile isspace
  if word <+: p then skipLoop (d.takeWhile isspace).reverse p else .ok p

/-- `*p | 0x20` -/
def fold (b : UInt8) : UInt8 := b ||| 32

def isDelim (b : UInt8) : Bool := b = 58 ∨ b = 47

/-- The comparison, on texts with their NUL; the `char` `c` is signed. -/
def cmpLoop : Bytes → Bytes → Except Fault ℤ
  | a::p, b::p2 =>
    let c := fold a-fold b
    if c ≠ 0 ∧ ¬(isDelim a ∨ isDelim b) then .ok (if c.toInt8 < 0 then -1 else 1)
    else if a = 0 ∨ isDelim a ∨ isDelim b then .ok 0
    else cmpLoop p p2
  | _, _ => .error .undefined

def domainCmp (d1 d2 : Bytes) : Except Fault ℤ := do
  let p ← skipHttp d1
  let p2 ← skipHttp d2
  cmpLoop (p++[0]) (p2++[0])

/-! ### The host of a text -/

def hostOf (s : Bytes) : Bytes := s.takeWhile fun b => !isDelim b

def withoutScheme (s : Bytes) : Bytes :=
  if https <+: s then s.drop 8 else if http <+: s then s.drop 7 else s

/-- The host behind blanks and a scheme, in small letters. -/
def host (d : Bytes) : Bytes := (hostOf (withoutScheme (d.dropWhile isspace))).map tolower

/-- The comparison stays inside both texts and returns 0 exactly if the hosts are equal. -/
def Tells (a b : Bytes) : Prop := ∃ r, domainCmp a b = .ok r ∧ (r = 0 ↔ host a = host b)

/-! ### What the code compares -/

/-- What stands behind the first `://`. -/
def behindMark (s : Bytes) : Bytes :=
  match find [58,47,47] s with
  | some n => s.drop (n+3)
  | none => []

/-- Of a text with `http` in front, what stands behind its first `://`. -/
def compared (d : Bytes) : Bytes :=
  let s := d.dropWhile isspace
  if word <+: s then behindMark s else s

/-- There is `http` in front, but not the scheme. -/
def Misread (d : Bytes) : Prop :=
  let s := d.dropWhile isspace
  word <+: s ∧ ¬http <+: s ∧ ¬https <+: s

instance (d : Bytes) : Decidable (Misread d) := inferInstanceAs (Decidable (_ ∧ _ ∧ _))

/-- Up to the bit `0x20`, the host of `x` is the front of the host of `y`. -/
def Front (x y : Bytes) : Prop := (hostOf x).map fold <+: (hostOf y).map fold

/-- A delimiter ends the host. -/
def Cut (x : Bytes) : Prop := hostOf x ≠ x

/-- The host of `y` goes on with a blank behind the length of the host of `x`. -/
def Blank (x y : Bytes) : Prop := (hostOf y)[(hostOf x).length]? = some 32

/-- The host of `x` is the front of the host of `y` and is all of it, or is cut off by a
delimiter, or is followed by a blank in the host of `y`. -/
def Mixes (x y : Bytes) : Prop := Front x y ∧ (Front y x ∨ Cut x ∨ Blank x y)

/-- The comparison does not tell `x` from `y`. -/
def Mixed (x y : Bytes) : Prop := Mixes x y ∨ Front y x ∧ Cut y

/-- A blank of `x` is taken for the NUL of `y`. -/
def Overruns (x y : Bytes) : Prop := Front y x ∧ ¬Cut y ∧ Blank y x

instance (x y : Bytes) : Decidable (Front x y) := inferInstanceAs (Decidable (_ <+: _))
instance (x : Bytes) : Decidable (Cut x) := inferInstanceAs (Decidable (_ ≠ _))
instance (x y : Bytes) : Decidable (Blank x y) := inferInstanceAs (Decidable (_ = _))
instance (x y : Bytes) : Decidable (Mixes x y) := inferInstanceAs (Decidable (_ ∧ (_ ∨ _ ∨ _)))
instance (x y : Bytes) : Decidable (Mixed x y) := inferInstanceAs (Decidable (_ ∨ _ ∧ _))
instance (x y : Bytes) : Decidable (Overruns x y) := inferInstanceAs (Decidable (_ ∧ _ ∧ _))

/-- No text starts with `http` at its first byte. Where none is misread, neither host is the
front of the other unless they are equal, or it is shorter, at the end of its text, and not
followed by a blank in the other. A misread text is told right by what stands behind `://`. -/
structure Clear (a b : Bytes) : Prop where
  start₁ : ¬word <+: a
  start₂ : ¬word <+: b
  read : ¬Misread a → ¬Misread b →
    Mixes (compared a) (compared b) ∨ Mixes (compared b) (compared a) → host a = host b
  misread : Misread a ∨ Misread b →
    ¬Overruns (compared a) (compared b) ∧ (Mixed (compared a) (compared b) ↔ host a = host b)

/-! ### Bytes -/

theorem fold_tolower : ∀ b : UInt8,fold (tolower b) = fold b := forall_byte (by decide +kernel)

theorem fold_eq_blank : ∀ b : UInt8,fold b = 32 ↔ b = 0 ∨ b = 32 := forall_byte (by decide +kernel)

theorem fold_sub_eq_zero (a b : UInt8) : fold a-fold b = 0 ↔ fold a = fold b := by
  rw [UInt8.sub_eq_iff_eq_add,UInt8.zero_add]

/-! ### The comparison -/

section Hosts
variable {a b : UInt8} {x y : Bytes}

theorem hostOf_delim (h : isDelim a = true) : hostOf (a::x) = [] := by
  simp [hostOf,h]

theorem hostOf_cons (h : isDelim a = false) : hostOf (a::x) = a::hostOf x := by
  simp [hostOf,h]

theorem front_nil : Front [] y := List.nil_prefix

theorem front_delim (h : isDelim a = true) : Front (a::x) y := by
  rw [Front,hostOf_delim h]
  exact List.nil_prefix

theorem cut_delim (h : isDelim a = true) : Cut (a::x) := by
  rw [Cut,hostOf_delim h]
  exact List.cons_ne_nil a x ∘ Eq.symm

theorem cut_cons (h : isDelim a = false) : Cut (a::x) ↔ Cut x := by
  rw [Cut,Cut,hostOf_cons h,ne_eq,ne_eq,List.cons.injEq,and_iff_right rfl]

theorem front_cons (ha : isDelim a = false) (hb : isDelim b = false) :
    Front (a::x) (b::y) ↔ fold a = fold b ∧ Front x y := by
  rw [Front,hostOf_cons ha,hostOf_cons hb,List.map_cons,List.map_cons,List.cons_prefix_cons]
  rfl

theorem not_front_nil (ha : isDelim a = false) : ¬Front (a::x) [] := by
  rw [Front,hostOf_cons ha]
  intro h
  have hlen := h.length_le
  simp [hostOf] at hlen

theorem blank_cons (ha : isDelim a = false) (hb : isDelim b = false) :
    Blank (a::x) (b::y) ↔ Blank x y := by
  rw [Blank,hostOf_cons ha,hostOf_cons hb,List.length_cons,List.getElem?_cons_succ]
  rfl

theorem blank_nil (hb : isDelim b = false) : Blank [] (b::y) ↔ b = 32 := by
  rw [Blank,hostOf_cons hb]
  exact Option.some_inj

/-- A delimiter on either side ends the comparison, and a host before it is not told. -/
theorem mixed_of_delim (h : isDelim a = true ∨ isDelim b = true) : Mixed (a::x) (b::y) := by
  rcases h with ha | hb
  · exact .inl ⟨front_delim ha,.inr (.inl (cut_delim ha))⟩
  · exact .inr ⟨front_delim hb,cut_delim hb⟩

theorem not_overruns_of_delim (h : isDelim a = true ∨ isDelim b = true) :
    ¬Overruns (a::x) (b::y) := by
  rintro ⟨-,hcut,hblank⟩
  rcases h with ha | hb
  · rw [Blank,hostOf_delim ha] at hblank
    cases hblank
  · exact hcut (cut_delim hb)

/-- Two bytes that are no delimiters and agree up to the bit are passed over. -/
theorem mixed_cons (ha : isDelim a = false) (hb : isDelim b = false) (h : fold a = fold b) :
    Mixed (a::x) (b::y) ↔ Mixed x y := by
  simp only [Mixed,Mixes,front_cons ha hb,front_cons hb ha,cut_cons ha,cut_cons hb,
    blank_cons ha hb,h,true_and]

theorem overruns_cons (ha : isDelim a = false) (hb : isDelim b = false) (h : fold a = fold b) :
    Overruns (a::x) (b::y) ↔ Overruns x y := by
  simp only [Overruns,front_cons hb ha,cut_cons hb,blank_cons hb ha,h,true_and]

/-- Two bytes that differ beyond the bit end the fronts. -/
theorem not_front_of_fold (ha : isDelim a = false) (hb : isDelim b = false) (h : fold a ≠ fold b) :
    ¬Front (a::x) (b::y) ∧ ¬Front (b::y) (a::x) := by
  rw [front_cons ha hb,front_cons hb ha]
  exact ⟨fun hf => h hf.1,fun hf => h hf.1.symm⟩

/-- The host of the one text ends where the other goes on. -/
theorem mixed_nil (hb : isDelim b = false) : Mixed [] (b::y) ↔ b = 32 := by
  have hcut : ¬Cut [] := fun h => h rfl
  simp only [Mixed,Mixes,front_nil,not_front_nil hb,hcut,blank_nil hb,true_and,false_or,false_and,
    or_false]

theorem not_mixed_nil (ha : isDelim a = false) : ¬Mixed (a::x) [] := by
  have hcut : ¬Cut [] := fun h => h rfl
  simp only [Mixed,Mixes,not_front_nil ha,hcut,false_and,and_false,or_self,not_false_eq_true]

theorem overruns_nil (ha : isDelim a = false) : Overruns (a::x) [] ↔ a = 32 := by
  have hcut : ¬Cut [] := fun h => h rfl
  simp only [Overruns,front_nil,hcut,blank_nil ha,not_false_eq_true,true_and]

end Hosts

/-- What one pass of the loop does. -/
theorem cmpLoop_stop {a b : UInt8} (p p2 : Bytes) (h : fold a ≠ fold b) (ha : isDelim a = false)
    (hb : isDelim b = false) : ∃ r, cmpLoop (a::p) (b::p2) = .ok r ∧ r ≠ 0 := by
  have hc : fold a-fold b ≠ 0 := fun h0 => h ((fold_sub_eq_zero a b).mp h0)
  refine ⟨if (fold a-fold b).toInt8 < 0 then -1 else 1,?_,?_⟩
  · rw [cmpLoop,if_pos ⟨hc,by simp [ha,hb]⟩]
  · split_ifs <;> decide

theorem cmpLoop_zero {a b : UInt8} (p p2 : Bytes) (h : isDelim a = true ∨ isDelim b = true) :
    cmpLoop (a::p) (b::p2) = .ok 0 := by
  rw [cmpLoop,if_neg (fun hc => hc.2 h),if_pos (.inr h)]

theorem cmpLoop_next {a b : UInt8} (p p2 : Bytes) (h : fold a = fold b) (ha : isDelim a = false)
    (hb : isDelim b = false) :
    cmpLoop (a::p) (b::p2) = if a = 0 then .ok 0 else cmpLoop p p2 := by
  have hc : fold a-fold b = 0 := (fold_sub_eq_zero a b).mpr h
  rw [cmpLoop,if_neg (fun hn => hn.1 hc)]
  simp only [ha,hb,Bool.false_eq_true,or_false]

/-- The loop returns 0 for texts it does not tell, unless it runs over the NUL of the second. -/
def Compares (x y : Bytes) (r : Except Fault ℤ) : Prop :=
  if Overruns x y then r = .error .undefined else ∃ z, r = .ok z ∧ (z = 0 ↔ Mixed x y)

theorem Compares.zero {x y : Bytes} (ho : ¬Overruns x y) (h : Mixed x y) :
    Compares x y (.ok 0) := by
  rw [Compares,if_neg ho]
  exact ⟨0,rfl,iff_of_true rfl h⟩

theorem Compares.stop {x y : Bytes} {r : Except Fault ℤ} (hr : ∃ z, r = .ok z ∧ z ≠ 0)
    (ho : ¬Overruns x y) (h : ¬Mixed x y) : Compares x y r := by
  obtain ⟨z,hz,hne⟩ := hr
  rw [Compares,if_neg ho]
  exact ⟨z,hz,iff_of_false hne h⟩

theorem isDelim_zero : isDelim 0 = false := rfl

/-- The first text has ended. -/
theorem compares_nil {y : Bytes} (hy : 0 ∉ y) : Compares [] y (cmpLoop [0] (y++[0])) := by
  have hno : ¬Overruns [] y := by
    rintro ⟨-,-,hblank⟩
    cases hblank
  cases y with
  | nil => exact .zero hno (.inl ⟨front_nil,.inl front_nil⟩)
  | cons b y =>
    cases hb : isDelim b with
    | true =>
      rw [List.cons_append,cmpLoop_zero _ _ (.inr hb)]
      exact .zero hno (.inr ⟨front_delim hb,cut_delim hb⟩)
    | false =>
      have hb0 : b ≠ 0 := fun h0 => hy (h0 ▸ List.mem_cons_self)
      by_cases h32 : b = 32
      · have hfold : fold 0 = fold b := by rw [h32]; rfl
        rw [List.cons_append,cmpLoop_next _ _ hfold isDelim_zero hb,if_pos rfl]
        exact .zero hno ((mixed_nil hb).mpr h32)
      · have hfold : fold 0 ≠ fold b := by
          intro h
          exact ((fold_eq_blank b).mp h.symm).elim hb0 h32
        exact .stop (cmpLoop_stop _ _ hfold isDelim_zero hb) hno fun h => h32 ((mixed_nil hb).mp h)

/-- The second text has ended: a blank of the first is passed over, and its NUL too. -/
theorem compares_end {a : UInt8} {x : Bytes} (hx : 0 ∉ a::x) :
    Compares (a::x) [] (cmpLoop (a::x++[0]) [0]) := by
  have ha0 : a ≠ 0 := fun h0 => hx (h0 ▸ List.mem_cons_self)
  cases ha : isDelim a with
  | true =>
    have hno : ¬Overruns (a::x) [] := by
      rintro ⟨-,-,hblank⟩
      rw [Blank,hostOf_delim ha] at hblank
      cases hblank
    rw [List.cons_append,cmpLoop_zero _ _ (.inl ha)]
    exact .zero hno (.inl ⟨front_delim ha,.inr (.inl (cut_delim ha))⟩)
  | false =>
    by_cases h32 : a = 32
    · have hfold : fold a = fold 0 := by rw [h32]; rfl
      rw [List.cons_append,cmpLoop_next _ _ hfold ha isDelim_zero,if_neg ha0,Compares,
        if_pos ((overruns_nil ha).mpr h32)]
      cases x <;> rfl
    · have hfold : fold a ≠ fold 0 := by
        intro h
        exact ((fold_eq_blank a).mp h).elim ha0 h32
      exact .stop (cmpLoop_stop _ _ hfold ha isDelim_zero) (fun h => h32 ((overruns_nil ha).mp h))
        (not_mixed_nil ha)

/-- By induction on the first text, along the bytes that agree. -/
theorem cmpLoop_spec (x y : Bytes) (hx : 0 ∉ x) (hy : 0 ∉ y) :
    Compares x y (cmpLoop (x++[0]) (y++[0])) := by
  induction x generalizing y with
  | nil => exact compares_nil hy
  | cons a x ih =>
    cases y with
    | nil => exact compares_end hx
    | cons b y =>
      rw [List.cons_append,List.cons_append]
      by_cases hdelim : isDelim a = true ∨ isDelim b = true
      · rw [cmpLoop_zero _ _ hdelim]
        exact .zero (not_overruns_of_delim hdelim) (mixed_of_delim hdelim)
      rw [not_or,Bool.not_eq_true,Bool.not_eq_true] at hdelim
      obtain ⟨ha,hb⟩ := hdelim
      by_cases hfold : fold a = fold b
      · have ha0 : a ≠ 0 := fun h0 => hx (h0 ▸ List.mem_cons_self)
        rw [cmpLoop_next _ _ hfold ha hb,if_neg ha0,Compares,mixed_cons ha hb hfold]
        simp only [overruns_cons ha hb hfold]
        exact ih y (fun h => hx (List.mem_cons_of_mem a h)) fun h => hy (List.mem_cons_of_mem b h)
      · obtain ⟨hf,hf'⟩ := not_front_of_fold (x := x) (y := y) ha hb hfold
        refine .stop (cmpLoop_stop _ _ hfold ha hb) (fun h => hf' h.1) ?_
        rintro (h | h)
        · exact hf h.1
        · exact hf' h.1

/-! ### The start of the comparison -/

/-- With a byte of another kind in front of `r`, the tests stay inside. -/
theorem behind_eq {blanks : Bytes} (hb : blanks ≠ []) {w : Bytes} (hw : ∀ c ∈ w,c ∉ blanks)
    (r : Bytes) : behind w (r++blanks) = .ok (decide (w <+: r)) := by
  induction w generalizing r with
  | nil => simp [behind]
  | cons c w ih =>
    cases r with
    | nil =>
      obtain ⟨b,bs,rfl⟩ := List.exists_cons_of_ne_nil hb
      have hne : b ≠ c := fun h => hw c List.mem_cons_self (h ▸ List.mem_cons_self)
      rw [List.nil_append,behind,if_neg hne,decide_eq_false]
      exact fun h => by cases List.prefix_nil.mp h
    | cons b r =>
      rw [List.cons_append,behind]
      by_cases hbc : b = c
      · rw [if_pos hbc,ih (fun d hd => hw d (List.mem_cons_of_mem c hd)) r]
        simp [List.cons_prefix_cons,hbc]
      · rw [if_neg hbc,decide_eq_false]
        exact fun h => hbc (List.cons_prefix_cons.mp h).1.symm

/-- The first `://` of `q` is at its end. -/
theorem find_concat {q : Bytes} {b : UInt8} (hq : ∀ n,find [58,47,47] q = some n → n+3 = q.length)
    (hno : ¬[58,47,47] <:+ q) : ∀ n,find [58,47,47] (q++[b]) = some n → n+3 = (q++[b]).length := by
  intro n hn
  have hle := find_le _ hn
  simp only [List.length_append,List.length_cons,List.length_nil] at hle ⊢
  by_contra hne
  have hin : n+3 ≤ q.length := by omega
  have hpre : [58,47,47] <+: q.drop n := by
    have hdrop := find_drop _ hn
    rw [List.drop_append_of_le_length (by omega)] at hdrop
    exact List.prefix_of_prefix_length_le hdrop (List.prefix_append _ _) (by
      rw [List.length_drop]
      show 3 ≤ _
      omega)
  obtain ⟨m,hm⟩ := Option.isSome_iff_exists.mp (find_isSome q hpre)
  have hend := hq m hm
  have hlast := find_drop q hm
  apply hno
  have hwhole : q.drop m = [58,47,47] := by
    refine (hlast.eq_of_length ?_).symm
    rw [List.length_drop]
    show 3 = _
    omega
  rw [← hwhole]
  exact List.drop_suffix m q

theorem skipLoop_eq {blanks : Bytes} (hb : blanks ≠ []) (hw : ∀ c ∈ [47,47,58],c ∉ blanks)
    (p q : Bytes) (hq : ∀ n,find [58,47,47] q = some n → n+3 = q.length) :
    skipLoop (q.reverse++blanks) p = .ok (behindMark (q++p)) := by
  induction p generalizing q with
  | nil =>
    rw [List.append_nil,skipLoop,behindMark]
    cases hf : find [58,47,47] q with
    | none => rfl
    | some n =>
      have hn := hq n hf
      simp [hn]
  | cons b p ih =>
    rw [skipLoop,behind_eq hb hw,ok_bind]
    by_cases hs : [58,47,47] <:+ q
    · have hrev : [47,47,58] <+: q.reverse := List.reverse_prefix.mpr hs
      have hlast : [58,47,47] = q.drop (q.length-3) := List.suffix_iff_eq_drop.mp hs
      have hdrop : [58,47,47] <+: q.drop (q.length-3) := ⟨[],by rw [List.append_nil]; exact hlast⟩
      obtain ⟨n,hn⟩ := Option.isSome_iff_exists.mp (find_isSome q hdrop)
      have hlen := hq n hn
      rw [decide_eq_true hrev,if_pos rfl,behindMark,find_append (b::p) q hn]
      simp [hlen]
    · have hrev : ¬[47,47,58] <+: q.reverse := fun h => hs (List.reverse_prefix.mp h)
      have hnext := ih (q++[b]) (find_concat hq hs)
      rw [decide_eq_false hrev,if_neg Bool.false_ne_true]
      simpa using hnext

theorem isspace_ne : ∀ b : UInt8,isspace b = true → b ∉ [47,47,58] := forall_byte (by decide +kernel)

theorem takeWhile_blank (d : Bytes) {b : UInt8} (hb : b ∈ d.takeWhile isspace) :
    isspace b = true := (List.all_eq_true.mp List.all_takeWhile) b hb

/-- A text with `http` at its first byte is read in front of it. -/
theorem skipHttp_start {d : Bytes} (h : word <+: d) : skipHttp d = .error .undefined := by
  obtain ⟨r,rfl⟩ := h
  rfl

/-- Of any other text, the code compares what stands behind the blanks or the first `://`. -/
theorem skipHttp_eq {d : Bytes} (h : ¬word <+: d) : skipHttp d = .ok (compared d) := by
  rw [skipHttp,compared]
  by_cases hp : word <+: d.dropWhile isspace
  · simp only [if_pos hp]
    have hb : d.takeWhile isspace ≠ [] := by
      intro hnil
      have happ : d.takeWhile isspace++d.dropWhile isspace = d := List.takeWhile_append_dropWhile
      rw [hnil,List.nil_append] at happ
      exact h (happ ▸ hp)
    have hq : ∀ n,find [58,47,47] [] = some n → n+3 = ([] : Bytes).length := by
      intro n hn
      cases hn
    have hseen : (d.takeWhile isspace).reverse ≠ [] := fun hnil => hb (List.reverse_eq_nil_iff.mp hnil)
    have hother : ∀ c ∈ [47,47,58],c ∉ (d.takeWhile isspace).reverse := fun c hc hmem =>
      isspace_ne c (takeWhile_blank d (List.mem_reverse.mp hmem)) hc
    exact skipLoop_eq hseen hother (d.dropWhile isspace) [] hq
  · simp only [if_neg hp]

theorem compared_suffix (d : Bytes) : compared d <:+ d := by
  rw [compared]
  by_cases hp : word <+: d.dropWhile isspace
  · simp only [if_pos hp,behindMark]
    cases find [58,47,47] (d.dropWhile isspace) with
    | none => exact List.nil_suffix
    | some n => exact (List.drop_suffix _ _).trans (List.dropWhile_suffix _)
  · simp only [if_neg hp]
    exact List.dropWhile_suffix _

/-- A text that is not misread is compared from its host on. -/
theorem compared_eq {d : Bytes} (h : ¬Misread d) :
    compared d = withoutScheme (d.dropWhile isspace) := by
  rw [compared]
  rw [Misread] at h
  generalize d.dropWhile isspace = s at h ⊢
  by_cases hs : https <+: s
  · obtain ⟨r,rfl⟩ := hs
    rfl
  by_cases hp : http <+: s
  · obtain ⟨r,rfl⟩ := hp
    rfl
  have hw : ¬word <+: s := fun hw => h ⟨hw,hp,hs⟩
  simp only [withoutScheme,if_neg hw,if_neg hs,if_neg hp]

/-! ### Telling hosts apart -/

theorem domainCmp_start {a b : Bytes} (h : word <+: a ∨ word <+: b) :
    domainCmp a b = .error .undefined := by
  by_cases ha : word <+: a
  · rw [domainCmp,skipHttp_start ha,error_bind]
  · rw [domainCmp,skipHttp_eq ha,ok_bind,skipHttp_start (h.resolve_left ha),error_bind]

theorem tells_iff_mixed (a b : Text) (ha : ¬word <+: a.bytes) (hb : ¬word <+: b.bytes) :
    Tells a.bytes b.bytes ↔ ¬Overruns (compared a.bytes) (compared b.bytes) ∧
      (Mixed (compared a.bytes) (compared b.bytes) ↔ host a.bytes = host b.bytes) := by
  have hx : 0 ∉ compared a.bytes := fun h => a.noNul ((compared_suffix _).subset h)
  have hy : 0 ∉ compared b.bytes := fun h => b.noNul ((compared_suffix _).subset h)
  have hspec := cmpLoop_spec _ _ hx hy
  rw [Tells,domainCmp,skipHttp_eq ha,ok_bind,skipHttp_eq hb,ok_bind]
  by_cases ho : Overruns (compared a.bytes) (compared b.bytes)
  · rw [Compares,if_pos ho] at hspec
    rw [hspec]
    exact iff_of_false (by rintro ⟨r,hr,-⟩; cases hr) fun h => h.1 ho
  · rw [Compares,if_neg ho] at hspec
    obtain ⟨z,hz,hzero⟩ := hspec
    rw [hz]
    constructor
    · rintro ⟨r,hr,hiff⟩
      cases hr
      exact ⟨ho,hzero.symm.trans hiff⟩
    · rintro ⟨-,hiff⟩
      exact ⟨z,rfl,hzero.trans hiff⟩

/-- Equal hosts are each the front of the other. -/
theorem front_of_tolower {x y : Bytes} (h : (hostOf x).map tolower = (hostOf y).map tolower) :
    Front x y ∧ Front y x ∧ (hostOf x).length = (hostOf y).length := by
  have hcomp : fold ∘ tolower = fold := funext fold_tolower
  have hfold : (hostOf x).map fold = (hostOf y).map fold := by
    have hmap := congrArg (List.map fold) h
    rwa [List.map_map,List.map_map,hcomp] at hmap
  refine ⟨⟨[],by rw [List.append_nil,hfold]⟩,⟨[],by rw [List.append_nil,hfold]⟩,?_⟩
  have hlen := congrArg List.length h
  rwa [List.length_map,List.length_map] at hlen

/-- For texts compared from their hosts on, it is enough that hosts that are mixed are equal. -/
theorem mixed_iff_mixes {x y : Bytes} :
    (¬Overruns x y ∧ (Mixed x y ↔ (hostOf x).map tolower = (hostOf y).map tolower)) ↔
      (Mixes x y ∨ Mixes y x → (hostOf x).map tolower = (hostOf y).map tolower) := by
  constructor
  · rintro ⟨ho,hm⟩ (h | ⟨hf,h | h | h⟩)
    · exact hm.mp (.inl h)
    · exact hm.mp (.inl ⟨h,.inl hf⟩)
    · exact hm.mp (.inr ⟨hf,h⟩)
    · by_cases hcut : Cut y
      · exact hm.mp (.inr ⟨hf,hcut⟩)
      · exact absurd ⟨hf,hcut,h⟩ ho
  · intro h
    refine ⟨?_,?_,?_⟩
    · rintro ⟨hf,-,hblank⟩
      have hlen := (front_of_tolower (h (.inr ⟨hf,.inr (.inr hblank)⟩))).2.2
      rw [Blank,← hlen,List.getElem?_eq_none (le_refl _)] at hblank
      cases hblank
    · rintro (hm | ⟨hf,hcut⟩)
      · exact h (.inl hm)
      · exact h (.inr ⟨hf,.inr (.inl hcut)⟩)
    · intro he
      obtain ⟨hf,hf',-⟩ := front_of_tolower he
      exact .inl ⟨hf,.inl hf'⟩

/-- Among texts that are told right in pairs, the result 0 is an equivalence. -/
theorem equivalence_of_tells {S : Set Bytes} (h : ∀ a ∈ S,∀ b ∈ S,Tells a b) :
    Equivalence fun a b : S => domainCmp a b = .ok 0 := by
  have heq : ∀ a b : S,domainCmp a b = .ok 0 ↔ host a = host b := by
    intro a b
    obtain ⟨r,hr,hiff⟩ := h a a.2 b b.2
    rw [hr,Except.ok.injEq]
    exact hiff
  refine ⟨fun a => (heq a a).mpr rfl,fun {a b} hab => (heq b a).mpr ((heq a b).mp hab).symm,?_⟩
  intro a b c hab hbc
  exact (heq a c).mpr (((heq a b).mp hab).trans ((heq b c).mp hbc))

/-- `domain_cmp` tells two texts right exactly when they are clear. -/
theorem tells_iff (a b : Text) : Tells a.bytes b.bytes ↔ Clear a.bytes b.bytes := by
  by_cases hstart : word <+: a.bytes ∨ word <+: b.bytes
  · refine iff_of_false ?_ fun h => hstart.elim h.start₁ h.start₂
    rintro ⟨r,hr,-⟩
    rw [domainCmp_start hstart] at hr
    cases hr
  obtain ⟨ha,hb⟩ := not_or.mp hstart
  rw [tells_iff_mixed a b ha hb]
  by_cases hmis : Misread a.bytes ∨ Misread b.bytes
  · constructor
    · intro h
      exact ⟨ha,hb,fun h₁ h₂ => absurd hmis (not_or.mpr ⟨h₁,h₂⟩),fun _ => h⟩
    · intro h
      exact h.misread hmis
  · obtain ⟨h₁,h₂⟩ := not_or.mp hmis
    have hmixed := mixed_iff_mixes (x := compared a.bytes) (y := compared b.bytes)
    have hhost : (hostOf (compared a.bytes)).map tolower = host a.bytes := by
      rw [compared_eq h₁,host]
    have hhost' : (hostOf (compared b.bytes)).map tolower = host b.bytes := by
      rw [compared_eq h₂,host]
    rw [hhost,hhost'] at hmixed
    rw [hmixed]
    constructor
    · intro h
      exact ⟨ha,hb,fun _ _ => h,fun hm => absurd hm hmis⟩
    · intro h
      exact h.read h₁ h₂

/-- `q.com:80` and `q.com.cn` -/
theorem not_tells_port : ¬Tells (ascii "q.com:80") (ascii "q.com.cn") := by
  rintro ⟨r,hr,hiff⟩
  cases (show domainCmp (ascii "q.com:80") (ascii "q.com.cn") = .ok 0 by decide).symm.trans hr
  exact absurd (hiff.mp rfl) (by decide)

end AntDomainCmp
end RecycleBin
