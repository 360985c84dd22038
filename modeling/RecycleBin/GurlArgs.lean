import RecycleBin.GurlStringEq

/-! Which calls `parseFuncArgs` splits into their arguments. The byte behind a comma is taken
along with it and is only compared with `)`: a bracket there does not count, and where there
is none the text ends under the scan. -/
namespace RecycleBin
namespace GurlConf
open GurlText

variable {ω : Type}

/-! ### One pass at a byte -/

section Pass
variable {s r : Bytes} {a : Args}

/-- A byte that means nothing here, blanks included. -/
theorem argsRun_pass {b : UInt8} (h : s.drop a.j = b::r) (h40 : b ≠ 40) (h41 : b ≠ 41)
    (h44 : b = 44 → a.brackets ≠ 1) : argsRun s a = argsRun s { a with j := a.j+1 } := by
  have hb : s[a.j]? = some b := getElem?_of_drop h
  have hstep : argsStep s a b = .ok (.inr { a with j := a.j+1 }) := by
    rw [argsStep]
    split_ifs
    · rfl
    · rw [argsComma,if_neg fun hc => h44 hc.1 hc.2]
      change argsClose s a = _
      rw [argsClose,hb]
      exact if_neg h41
  rw [argsRun_some hb,hstep]
  rfl

theorem argsRun_bracket (h : s.drop a.j = 40::r) :
    argsRun s a = argsRun s { a with
      brackets := a.brackets+1,start := if a.first then a.j+1 else a.start
      first := false,j := a.j+1 } := by
  rw [argsRun_some (getElem?_of_drop h)]
  rfl

theorem argsRun_shut (h : s.drop a.j = 41::r) (hb : a.brackets ≠ 1) :
    argsRun s a = argsRun s { a with brackets := a.brackets-1,j := a.j+1 } := by
  have hget : s[a.j]? = some 41 := getElem?_of_drop h
  have hstep : argsStep s a 41 = .ok (.inr { a with brackets := a.brackets-1,j := a.j+1 }) := by
    rw [argsStep,if_neg (by decide),if_neg (by decide),argsComma,if_neg (by simp)]
    change argsClose s a = _
    rw [argsClose,hget]
    change (if (41 : UInt8) = 41 then _ else _) = _
    rw [if_pos rfl,if_pos (by omega)]
  rw [argsRun_some hget,hstep]
  rfl

/-- The arguments with one more, unless it is empty. -/
def addArg (args : List Bytes) (u : Bytes) : List Bytes :=
  if trimSpace u = [] then args else args++[trimSpace u]

theorem argsRun_done {u : Bytes} (h : s.drop a.j = 41::r) (hb : a.brackets = 1)
    (hu : sub s a.start a.j = .ok u) : argsRun s a = .ok (some (addArg a.args u,a.j+1)) := by
  have hget : s[a.j]? = some 41 := getElem?_of_drop h
  have hstep : argsStep s a 41 = .ok (.inl (addArg a.args u,a.j+1)) := by
    rw [argsStep,if_neg (by decide),if_neg (by decide),argsComma,if_neg (by simp)]
    change argsClose s a = _
    rw [argsClose,hget]
    change (if (41 : UInt8) = 41 then _ else _) = _
    rw [if_pos rfl,if_neg (by omega),hu]
    rfl
  rw [argsRun_some hget,hstep]
  rfl

/-- A comma between arguments, before the byte that is taken along with it. -/
theorem argsStep_sep {u : Bytes} (hb : a.brackets = 1) (hu : sub s a.start a.j = .ok u) :
    argsStep s a 44 =
      argsClose s { a with j := a.j+1,start := a.j+1,args := addArg a.args u } := by
  rw [argsStep,if_neg (by decide),if_neg (by decide),argsComma,if_pos ⟨rfl,hb⟩,hu]
  rfl

theorem argsRun_sep_end {u : Bytes} (h : s.drop a.j = [44]) (hb : a.brackets = 1)
    (hu : sub s a.start a.j = .ok u) : argsRun s a = .error .index := by
  have hnone : s[a.j+1]? = none := List.getElem?_eq_none (List.drop_eq_nil_iff.mp (drop_succ h))
  rw [argsRun_some (getElem?_of_drop h),argsStep_sep hb hu,argsClose]
  simp only [hnone]
  rfl

theorem argsRun_sep_close {u : Bytes} (h : s.drop a.j = 44::41::r) (hb : a.brackets = 1)
    (hu : sub s a.start a.j = .ok u) : argsRun s a = .ok (some (addArg a.args u,a.j+2)) := by
  have hnext := drop_succ h
  have hget : s[a.j+1]? = some 41 := getElem?_of_drop hnext
  have hempty : sub s (a.j+1) (a.j+1) = .ok [] :=
    sub_of_drop (u:=[]) hnext (List.getElem?_eq_some_iff.mp hget).1.le rfl
  rw [argsRun_some (getElem?_of_drop h),argsStep_sep hb hu,argsClose]
  simp only [hget,if_true]
  rw [if_neg (by omega),hempty]
  rfl

theorem argsRun_sep_next {u : Bytes} {b : UInt8} (h : s.drop a.j = 44::b::r) (hb : a.brackets = 1)
    (hu : sub s a.start a.j = .ok u) (h41 : b ≠ 41) :
    argsRun s a = argsRun s { a with j := a.j+2,start := a.j+1,args := addArg a.args u } := by
  have hget : s[a.j+1]? = some b := getElem?_of_drop (drop_succ h)
  rw [argsRun_some (getElem?_of_drop h),argsStep_sep hb hu,argsClose]
  simp only [hget,if_neg h41]
  rfl

end Pass

/-! ### Texts of arguments -/

/-- Behind `n` open brackets the text closes them, and no comma stands outside of all
brackets. -/
inductive Nested : ℕ → Bytes → Prop
  | nil : Nested 0 []
  | opening {n : ℕ} {u : Bytes} (h : Nested (n+1) u) : Nested n (40::u)
  | closing {n : ℕ} {u : Bytes} (h : Nested n u) : Nested (n+1) (41::u)
  | comma {n : ℕ} {u : Bytes} (h : Nested (n+1) u) : Nested (n+1) (44::u)
  | other {n : ℕ} {b : UInt8} {u : Bytes} (hb : b ∉ ([40,41,44] : Bytes)) (h : Nested n u) :
      Nested n (b::u)

/-- The arguments of a call with the blanks around them, and their commas: one argument or
more that are not empty, or nothing but blanks. -/
structure IsArgs (ps : List Bytes) : Prop where
  nested : ∀ p ∈ ps, Nested 0 p
  nonempty : ps ≠ []
  trimmed : (∀ p ∈ ps, trimSpace p ≠ []) ∨ ∃ p, ps = [p] ∧ trimSpace p = []

/-- The arguments without the blanks. -/
def callArgs (ps : List Bytes) : List Bytes := (ps.map trimSpace).filter fun a => a ≠ []

/-- At the index `i` stands the bracket of a call, and its arguments are `ps`. -/
def CallAt (s : Bytes) (i : ℕ) (ps : List Bytes) : Prop :=
  ∃ post, s.drop i = 40::([44].intercalate ps++41::post)

/-- The index behind the bracket that ends the call. -/
def callEnd (i : ℕ) (ps : List Bytes) : ℕ := i+([44].intercalate ps).length+2

/-- Calls are split into their arguments, and nothing else is indexed out of range. -/
def SplitsArgs (c : Conf ω) (s name : Bytes) (i : ℕ) : Prop :=
  (∀ ps, IsArgs ps → CallAt s i ps →
    c.parseFuncArgs s name i = .ok (some (callArgs ps,callEnd i ps))) ∧
  ((∀ ps, IsArgs ps → ¬CallAt s i ps) → c.parseFuncArgs s name i ≠ .error .index)

/-- The open brackets are one at a comma that ends the text. Of two bytes of which the first is
a comma at that number, the second is not counted. -/
inductive Dangling : ℤ → Bytes → Prop
  | last {d : ℤ} (hd : d = 1) : Dangling d [44]
  | opening {d : ℤ} {u : Bytes} (h : Dangling (d+1) u) : Dangling d (40::u)
  | closing {d : ℤ} {u : Bytes} (hd : d ≠ 1) (h : Dangling (d-1) u) : Dangling d (41::u)
  | sep {d : ℤ} {b : UInt8} {u : Bytes} (hd : d = 1) (hb : b ≠ 41) (h : Dangling d u) :
      Dangling d (44::b::u)
  | other {d : ℤ} {b : UInt8} {u : Bytes} (h40 : b ≠ 40) (h41 : b ≠ 41) (h44 : b = 44 → d ≠ 1)
      (h : Dangling d u) : Dangling d (b::u)

/-! ### Where the scan panics -/

theorem argsRun_end {s : Bytes} {a : Args} (h : s.drop a.j = []) : argsRun s a = .ok none := by
  rw [argsRun,argsLoop,List.getElem?_eq_none (List.drop_eq_nil_iff.mp h)]

theorem exists_sub {s : Bytes} {a b : ℕ} (ha : a ≤ b) (hb : b ≤ s.length) :
    ∃ u, sub s a b = .ok u := ⟨_,if_pos ⟨ha,hb⟩⟩

theorem le_of_drop {s r : Bytes} {j : ℕ} {b : UInt8} (h : s.drop j = b::r) : j ≤ s.length :=
  (List.getElem?_eq_some_iff.mp (getElem?_of_drop h)).1.le

section Dangling
variable {d : ℤ} {b : UInt8} {u : Bytes}

theorem dangling_opening : Dangling d (40::u) ↔ Dangling (d+1) u := by
  constructor
  · rintro (_ | h | _ | _ | ⟨h,-⟩)
    · exact h
    · exact absurd rfl h
  · exact .opening

theorem dangling_closing : Dangling d (41::u) ↔ d ≠ 1 ∧ Dangling (d-1) u := by
  constructor
  · rintro (_ | _ | ⟨hd,h⟩ | _ | ⟨-,h,-⟩)
    · exact ⟨hd,h⟩
    · exact absurd rfl h
  · exact fun ⟨hd,h⟩ => .closing hd h

theorem dangling_sep (hd : d = 1) : Dangling d (44::b::u) ↔ b ≠ 41 ∧ Dangling d u := by
  constructor
  · rintro (_ | _ | _ | ⟨-,hb,h⟩ | ⟨-,-,h,-⟩)
    · exact ⟨hb,h⟩
    · exact absurd hd (h rfl)
  · exact fun ⟨hb,h⟩ => .sep hd hb h

theorem dangling_other (h40 : b ≠ 40) (h41 : b ≠ 41) (h44 : b = 44 → d ≠ 1) :
    Dangling d (b::u) ↔ Dangling d u := by
  constructor
  · rintro (⟨hd⟩ | _ | _ | ⟨hd,-,-⟩ | ⟨-,-,-,h⟩)
    · exact absurd hd (h44 rfl)
    · exact absurd rfl h40
    · exact absurd rfl h41
    · exact absurd hd (h44 rfl)
    · exact h
  · exact .other h40 h41 h44

end Dangling

/-- The scan panics at a comma that has no byte behind it. -/
theorem argsRun_error_iff {s : Bytes} (n : ℕ) : ∀ {a : Args} {u : Bytes}, u.length ≤ n →
    s.drop a.j = u → a.start ≤ a.j → (argsRun s a = .error .index ↔ Dangling a.brackets u) := by
  induction n with
  | zero =>
    intro a u hn hu _
    obtain rfl : u = [] := List.length_eq_zero_iff.mp (by omega)
    rw [argsRun_end hu]
    exact iff_of_false (fun h => by cases h) (fun h => by cases h)
  | succ n ih =>
    intro a u hn hu hstart
    rcases u with _ | ⟨b,u⟩
    · rw [argsRun_end hu]
      exact iff_of_false (fun h => by cases h) (fun h => by cases h)
    rw [List.length_cons] at hn
    have hnext := drop_succ hu
    obtain ⟨arg,harg⟩ := exists_sub hstart (le_of_drop hu)
    by_cases h40 : b = 40
    · subst h40
      rw [argsRun_bracket hu,ih (by omega) hnext (by dsimp only; split_ifs <;> omega)]
      exact dangling_opening.symm
    by_cases h41 : b = 41
    · subst h41
      rw [dangling_closing]
      by_cases hd : a.brackets = 1
      · rw [argsRun_done hu hd harg]
        exact iff_of_false (fun h => by cases h) fun h => h.1 hd
      · rw [argsRun_shut hu hd,ih (by omega) hnext (by dsimp only; omega)]
        exact (and_iff_right hd).symm
    by_cases h44 : b = 44 ∧ a.brackets = 1
    · obtain ⟨rfl,hd⟩ := h44
      rcases u with _ | ⟨b,u⟩
      · rw [argsRun_sep_end hu hd harg]
        exact iff_of_true rfl (.last hd)
      rw [dangling_sep hd]
      by_cases hb : b = 41
      · subst hb
        rw [argsRun_sep_close hu hd harg]
        exact iff_of_false (fun h => by cases h) fun h => h.1 rfl
      · rw [argsRun_sep_next hu hd harg hb,ih (by rw [List.length_cons] at hn; omega) (drop_succ hnext)
          (by dsimp only; omega)]
        exact (and_iff_right hb).symm
    · have hne : b = 44 → a.brackets ≠ 1 := fun hb hd => h44 ⟨hb,hd⟩
      rw [argsRun_pass hu h40 h41 hne,ih (by omega) hnext (by dsimp only; omega)]
      exact (dangling_other h40 h41 hne).symm

/-! ### Calls that are split -/

/-- Within an argument the scan counts its brackets. -/
theorem argsRun_nested {s u r : Bytes} {n : ℕ} (hu : Nested n u) : ∀ {a : Args},
    s.drop a.j = u++r → a.brackets = n+1 → a.first = false →
      argsRun s a = argsRun s { a with j := a.j+u.length,brackets := 1 } := by
  have hlen : ∀ (a : Args) (b : UInt8) (v : Bytes), a.j+(b::v).length = a.j+1+v.length := by
    intro a b v
    rw [List.length_cons]
    omega
  induction hu with
  | nil =>
    intro a _ hb _
    rw [List.length_nil,Nat.add_zero,← show a.brackets = 1 by simpa using hb]
  | @opening n u h ih =>
    intro a hs hb hf
    have hrest := ih (a:={ a with brackets := a.brackets+1,start := a.start,first := false,j := a.j+1 })
      (drop_succ hs) (by dsimp only; push_cast; omega) rfl
    rw [argsRun_bracket hs,hf,if_neg Bool.false_ne_true,hrest,hlen]
  | @closing n u h ih =>
    intro a hs hb hf
    push_cast at hb
    have hrest := ih (a:={ a with brackets := a.brackets-1,j := a.j+1 }) (drop_succ hs)
      (by dsimp only; omega) hf
    rw [argsRun_shut hs (by omega),hrest,hlen]
  | @comma n u h ih =>
    intro a hs hb hf
    have hne : a.brackets ≠ 1 := by
      push_cast at hb
      omega
    have hrest := ih (a:={ a with j := a.j+1 }) (drop_succ hs) hb hf
    rw [argsRun_pass hs (by decide) (by decide) fun _ => hne,hrest,hlen]
  | @other n b u hb' h ih =>
    intro a hs hb hf
    simp only [List.mem_cons,List.not_mem_nil,or_false,not_or] at hb'
    have hrest := ih (a:={ a with j := a.j+1 }) (drop_succ hs) hb hf
    rw [argsRun_pass hs hb'.1 hb'.2.1 fun h => absurd h hb'.2.2,hrest,hlen]

theorem foldl_addArg (ps args : List Bytes) :
    ps.foldl addArg args = args++callArgs ps := by
  induction ps generalizing args with
  | nil => simp [callArgs]
  | cons p ps ih =>
    rw [List.foldl_cons,ih,callArgs,callArgs,addArg,List.map_cons]
    by_cases hp : trimSpace p = []
    · rw [if_pos hp,List.filter_cons_of_neg (by simpa using hp)]
    · rw [if_neg hp,List.filter_cons_of_pos (by simpa using hp),List.append_assoc]
      rfl

/-- Arguments behind the first one, with their commas. -/
def further (ps : List Bytes) : Bytes := ps.flatMap fun p => 44::p

theorem intercalate_cons (p : Bytes) (ps : List Bytes) :
    [44].intercalate (p::ps) = p++further ps := by
  induction ps generalizing p with
  | nil => simp [List.intercalate,further]
  | cons q ps ih =>
    have hq := ih q
    simp only [List.intercalate,List.intersperse_cons_cons,List.flatten_cons,further,List.flatMap_cons] at hq ⊢
    rw [hq]
    rfl

/-- The first byte of an argument opens a bracket or means nothing. -/
theorem Nested.head {b : UInt8} {u : Bytes} (h : Nested 0 (b::u)) :
    b ≠ 41 ∧ b ≠ 44 ∧ (b = 40 ∧ Nested 1 u ∨ b ≠ 40 ∧ Nested 0 u) := by
  cases h with
  | opening h => exact ⟨by decide,by decide,.inl ⟨rfl,h⟩⟩
  | other hb h =>
    simp only [List.mem_cons,List.not_mem_nil,or_false,not_or] at hb
    exact ⟨hb.2.1,hb.2.2,.inr ⟨hb.1,h⟩⟩

theorem Nested.ne_nil {n : ℕ} {u : Bytes} (h : Nested (n+1) u) : u ≠ [] := by
  rintro rfl
  cases h

/-- But for a closing bracket the first byte leaves no fewer open. -/
theorem Nested.tail {n : ℕ} {b : UInt8} {u : Bytes} (h : Nested n (b::u)) (hb : b ≠ 41) :
    ∃ k, n ≤ k ∧ Nested k u := by
  cases h with
  | opening h => exact ⟨_,Nat.le_succ _,h⟩
  | closing h => exact absurd rfl hb
  | comma h => exact ⟨_,le_rfl,h⟩
  | other _ h => exact ⟨_,le_rfl,h⟩

theorem ne_nil_of_trimSpace {p : Bytes} (h : trimSpace p ≠ []) : p ≠ [] := by
  rintro rfl
  exact h rfl

/-- The text of an argument that follows is its first byte and what the scan counts. -/
theorem argsRun_further {s r p q : Bytes} {b : UInt8} {a : Args} (hs : s.drop a.j = 44::b::(q++r))
    (hb : a.brackets = 1) (hf : a.first = false) (hp : sub s a.start a.j = .ok p) (h41 : b ≠ 41)
    (hq : Nested 0 q) :
    argsRun s a = argsRun s ⟨a.j+2+q.length,a.j+1,1,false,addArg a.args p⟩ ∧
      sub s (a.j+1) (a.j+2+q.length) = .ok (b::q) ∧ s.drop (a.j+2+q.length) = r := by
  have hnext := drop_succ hs
  have hrest : s.drop (a.j+2) = q++r := drop_succ hnext
  have hnested := argsRun_nested (a:={ a with j := a.j+2,start := a.j+1,args := addArg a.args p }) hq
    hrest (by simpa using hb) hf
  refine ⟨?_,?_,?_⟩
  · rw [argsRun_sep_next hs hb hp h41,hnested,hf]
  · exact sub_of_drop hnext (le_of_drop hnext) (by rw [List.length_cons]; omega)
  · rw [← List.drop_drop,hrest,List.drop_left]

/-- From the end of an argument on, where none of those behind it starts with a bracket. -/
theorem argsRun_fields {s post : Bytes} (ps : List Bytes) : ∀ {a : Args} {p : Bytes},
    s.drop a.j = further ps++41::post → a.brackets = 1 → a.first = false →
      sub s a.start a.j = .ok p → (∀ q ∈ ps, Nested 0 q ∧ q ≠ [] ∧ q.head? ≠ some 40) →
        argsRun s a = .ok (some (ps.foldl addArg (addArg a.args p),a.j+(further ps).length+1)) := by
  induction ps with
  | nil =>
    intro a p hs hb _ hp _
    exact argsRun_done hs hb hp
  | cons q ps ih =>
    intro a p hs hb hf hp hq
    obtain ⟨hnest,hne,h40⟩ := hq q List.mem_cons_self
    rcases q with _ | ⟨b,q⟩
    · exact absurd rfl hne
    obtain ⟨h41,-,⟨rfl,-⟩ | ⟨-,hrest⟩⟩ := hnest.head
    · exact absurd rfl h40
    have hs' : s.drop a.j = 44::b::(q++(further ps++41::post)) := by
      rw [hs,further,List.flatMap_cons]
      simp [further]
    obtain ⟨hrun,hsub,hdrop⟩ := argsRun_further hs' hb hf hp h41 hrest
    rw [hrun,ih (a:=⟨_,_,1,false,_⟩) hdrop rfl rfl hsub fun q h => hq q (List.mem_cons_of_mem _ h)]
    simp only [further,List.flatMap_cons,List.foldl_cons,List.length_append,List.length_cons]
    congr 3
    omega

/-- With fewer brackets counted than there are, the scan ends at a bracket of the text. -/
theorem argsRun_early {s : Bytes} (m : ℕ) : ∀ {n : ℕ} {a : Args} {u r : Bytes}, u.length ≤ m →
    Nested n u → s.drop a.j = u++r → 1 ≤ a.brackets → a.brackets ≤ n → a.start ≤ a.j →
      ∃ args e, argsRun s a = .ok (some (args,e)) ∧ e ≤ a.j+u.length := by
  induction m with
  | zero =>
    intro n a u r hm hu hs h₁ hn _
    obtain rfl : u = [] := List.length_eq_zero_iff.mp (by omega)
    cases hu
    push_cast at hn
    omega
  | succ m ih =>
    intro n a u r hm hu hs h₁ hn hstart
    cases hu with
    | nil =>
      push_cast at hn
      omega
    | @opening _ u hu =>
      rw [List.length_cons] at hm ⊢
      obtain ⟨args,e,hrun,he⟩ := ih (a:={ a with
          brackets := a.brackets+1,start := if a.first then a.j+1 else a.start
          first := false,j := a.j+1 }) (by omega) hu (drop_succ hs) (by dsimp only; omega)
        (by dsimp only; push_cast; omega) (by dsimp only; split_ifs <;> omega)
      exact ⟨args,e,by rw [argsRun_bracket hs,hrun],by dsimp only at he; omega⟩
    | @closing n u hu =>
      rw [List.length_cons] at hm ⊢
      by_cases hd : a.brackets = 1
      · obtain ⟨arg,harg⟩ := exists_sub hstart (le_of_drop hs)
        exact ⟨_,_,argsRun_done hs hd harg,by omega⟩
      · push_cast at hn
        obtain ⟨args,e,hrun,he⟩ := ih (a:={ a with brackets := a.brackets-1,j := a.j+1 }) (by omega)
          hu (drop_succ hs) (by dsimp only; omega) (by dsimp only; omega) (by dsimp only; omega)
        exact ⟨args,e,by rw [argsRun_shut hs hd,hrun],by dsimp only at he; omega⟩
    | @comma n u hu =>
      rw [List.length_cons] at hm ⊢
      by_cases hd : a.brackets = 1
      · obtain ⟨arg,harg⟩ := exists_sub hstart (le_of_drop hs)
        obtain ⟨b,u,rfl⟩ := List.exists_cons_of_ne_nil hu.ne_nil
        rw [List.length_cons] at hm ⊢
        by_cases h41 : b = 41
        · subst h41
          exact ⟨_,_,argsRun_sep_close hs hd harg,by omega⟩
        · obtain ⟨k,hk,hu'⟩ := hu.tail h41
          obtain ⟨args,e,hrun,he⟩ := ih (a:={ a with
              j := a.j+2,start := a.j+1,args := addArg a.args arg }) (by omega) hu'
            (drop_succ (drop_succ hs)) h₁ (by dsimp only; omega) (by dsimp only; omega)
          exact ⟨args,e,by rw [argsRun_sep_next hs hd harg h41,hrun],by dsimp only at he; omega⟩
      · obtain ⟨args,e,hrun,he⟩ := ih (a:={ a with j := a.j+1 }) (by omega) hu (drop_succ hs) h₁ hn
          (by dsimp only; omega)
        exact ⟨args,e,by rw [argsRun_pass hs (by decide) (by decide) fun _ => hd,hrun],
          by dsimp only at he; omega⟩
    | @other _ b u hb hu =>
      rw [List.length_cons] at hm ⊢
      simp only [List.mem_cons,List.not_mem_nil,or_false,not_or] at hb
      obtain ⟨args,e,hrun,he⟩ := ih (a:={ a with j := a.j+1 }) (by omega) hu (drop_succ hs) h₁ hn
        (by dsimp only; omega)
      exact ⟨args,e,by rw [argsRun_pass hs hb.1 hb.2.1 fun h => absurd h hb.2.2,hrun],by dsimp only at he; omega⟩

/-- An argument behind the first one starts with a bracket: the scan ends too early. -/
theorem argsRun_fields_early {s post : Bytes} (ps : List Bytes) : ∀ {a : Args} {p : Bytes},
    s.drop a.j = further ps++41::post → a.brackets = 1 → a.first = false →
      sub s a.start a.j = .ok p → (∀ q ∈ ps, Nested 0 q ∧ q ≠ []) →
        (∃ q ∈ ps, q.head? = some 40) →
          ∃ args e, argsRun s a = .ok (some (args,e)) ∧ e ≤ a.j+(further ps).length := by
  induction ps with
  | nil =>
    intro a p _ _ _ _ _ ⟨q,hq,_⟩
    cases hq
  | cons q ps ih =>
    intro a p hs hb hf hp hq h40
    obtain ⟨hnest,hne⟩ := hq q List.mem_cons_self
    rcases q with _ | ⟨b,q⟩
    · exact absurd rfl hne
    have hs' : s.drop a.j = 44::b::(q++(further ps++41::post)) := by
      rw [hs,further,List.flatMap_cons]
      simp [further]
    have hlen : (further ((b::q)::ps)).length = q.length+2+(further ps).length := by
      simp only [further,List.flatMap_cons,List.length_append,List.length_cons]
    obtain ⟨h41,-,⟨rfl,hrest⟩ | ⟨hb40,hrest⟩⟩ := hnest.head
    · obtain ⟨args,e,hrun,he⟩ := argsRun_early (a:={ a with
          j := a.j+2,start := a.j+1,args := addArg a.args p }) _ le_rfl hrest
        (drop_succ (drop_succ hs')) hb.ge (by dsimp only; omega) (by dsimp only; omega)
      refine ⟨args,e,by rw [argsRun_sep_next hs' hb hp h41,hrun],?_⟩
      dsimp only at he
      omega
    · obtain ⟨hrun,hsub,hdrop⟩ := argsRun_further hs' hb hf hp h41 hrest
      have hlater : ∃ q ∈ ps, q.head? = some 40 := by
        obtain ⟨q',hmem,hh⟩ := h40
        rcases List.mem_cons.mp hmem with rfl | hmem
        · exact absurd (Option.some.inj hh) hb40
        · exact ⟨q',hmem,hh⟩
      obtain ⟨args,e,hrun',he⟩ := ih (a:=⟨_,_,1,false,_⟩) hdrop rfl rfl hsub
        (fun q h => hq q (List.mem_cons_of_mem _ h)) hlater
      refine ⟨args,e,by rw [hrun,hrun'],?_⟩
      dsimp only at he
      omega

/-! ### Calls -/

theorem IsArgs.ne_nil {p : Bytes} {ps : List Bytes} (h : IsArgs (p::ps)) :
    ∀ q ∈ ps, Nested 0 q ∧ q ≠ [] := by
  intro q hq
  refine ⟨h.nested q (List.mem_cons_of_mem _ hq),?_⟩
  rcases h.trimmed with hall | ⟨p',hp,-⟩
  · exact ne_nil_of_trimSpace (hall q (List.mem_cons_of_mem _ hq))
  · cases hp
    cases hq

/-- The scan at the end of the first argument of a call. -/
theorem argsRun_call {s post p : Bytes} {ps : List Bytes} {i : ℕ} (hp : Nested 0 p)
    (h : s.drop i = 40::([44].intercalate (p::ps)++41::post)) :
    argsRun s ⟨i,i,0,true,[]⟩ = argsRun s ⟨i+1+p.length,i+1,1,false,[]⟩ ∧
      sub s (i+1) (i+1+p.length) = .ok p ∧ s.drop (i+1+p.length) = further ps++41::post := by
  rw [intercalate_cons,List.append_assoc] at h
  have hnext := drop_succ h
  have hlen : i+1 ≤ s.length := by
    have hi := (List.getElem?_eq_some_iff.mp (getElem?_of_drop h)).1
    omega
  refine ⟨?_,sub_of_drop hnext hlen rfl,?_⟩
  · rw [argsRun_bracket h]
    exact argsRun_nested (a:=⟨i+1,i+1,1,false,[]⟩) hp hnext rfl rfl
  · rw [← List.drop_drop,hnext,List.drop_left]

/-- A call is split exactly if none of its arguments but the first starts with a bracket right
behind the comma. -/
theorem parseFuncArgs_call {c : Conf ω} {s name : Bytes} {i : ℕ} {ps : List Bytes}
    (hf : c.findFunc name = true) (hps : IsArgs ps) (h : CallAt s i ps) :
    c.parseFuncArgs s name i = .ok (some (callArgs ps,callEnd i ps)) ↔
      ∀ p ∈ ps.tail, p.head? ≠ some 40 := by
  obtain ⟨post,h⟩ := h
  obtain ⟨p,ps,rfl⟩ := List.exists_cons_of_ne_nil hps.nonempty
  obtain ⟨hrun,hsub,hdrop⟩ := argsRun_call (hps.nested p List.mem_cons_self) h
  have hend : callEnd i (p::ps) = i+1+p.length+(further ps).length+1 := by
    rw [callEnd,intercalate_cons,List.length_append]
    omega
  rw [Conf.parseFuncArgs,if_pos hf,List.tail_cons]
  change argsRun s ⟨i,i,0,true,[]⟩ = _ ↔ _
  rw [hrun]
  constructor
  · intro heq q hq h40
    obtain ⟨args,e,hearly,he⟩ := argsRun_fields_early ps (a:=⟨_,_,1,false,[]⟩) hdrop rfl rfl hsub
      hps.ne_nil ⟨q,hq,h40⟩
    rw [hearly] at heq
    cases heq
    dsimp only at he
    omega
  · intro h40
    have hfields := argsRun_fields ps (a:=⟨_,_,1,false,[]⟩) hdrop rfl rfl hsub
      fun q hq => ⟨(hps.ne_nil q hq).1,(hps.ne_nil q hq).2,h40 q hq⟩
    rw [hfields,hend,← List.foldl_cons,foldl_addArg]
    rfl

/-- Calls are split unless an argument behind a comma starts with a bracket, and other texts
panic exactly if they leave the scan at a comma. -/
theorem splitsArgs_iff (c : Conf ω) (s name : Bytes) (i : ℕ) (hf : c.findFunc name = true) :
    SplitsArgs c s name i ↔
      (∀ ps, IsArgs ps → CallAt s i ps → ∀ p ∈ ps.tail, p.head? ≠ some 40) ∧
        ((∀ ps, IsArgs ps → ¬CallAt s i ps) → ¬Dangling 0 (s.drop i)) := by
  have herr : c.parseFuncArgs s name i = .error .index ↔ Dangling 0 (s.drop i) := by
    rw [Conf.parseFuncArgs,if_pos hf]
    exact argsRun_error_iff _ (a:=⟨i,i,0,true,[]⟩) le_rfl rfl le_rfl
  rw [SplitsArgs,ne_eq,herr]
  refine and_congr_left fun _ => forall_congr' fun ps => forall_congr' fun hps =>
    forall_congr' fun h => parseFuncArgs_call hf hps h

/-- `f(a)`. -/
theorem splitsArgs_demo : SplitsArgs demo [102,40,97,41] [102] 1 ↔
    (∀ ps, IsArgs ps → CallAt [102,40,97,41] 1 ps → ∀ p ∈ ps.tail, p.head? ≠ some 40) ∧
      ((∀ ps, IsArgs ps → ¬CallAt [102,40,97,41] 1 ps) → ¬Dangling 0 [40,97,41]) :=
  splitsArgs_iff demo [102,40,97,41] [102] 1 (by decide)

/-- `f(a,(b))` and `f(a,`. -/
theorem not_splitsArgs : ¬SplitsArgs demo [102,40,97,44,40,98,41,41] [102] 1 ∧
    ¬SplitsArgs demo [102,40,97,44] [102] 1 := by
  have hf : demo.findFunc [102] = true := by decide
  constructor
  · have hargs : IsArgs [[97],[40,98,41]] := by
      refine ⟨fun p hp => ?_,by simp,.inl (by decide)⟩
      rcases List.mem_cons.mp hp with rfl | hp
      · exact .other (by decide) .nil
      · rw [List.mem_singleton.mp hp]
        exact .opening (.other (by decide) (.closing .nil))
    have hcall : CallAt [102,40,97,44,40,98,41,41] 1 [[97],[40,98,41]] := ⟨[],rfl⟩
    rintro ⟨hsplit,-⟩
    exact (parseFuncArgs_call hf hargs hcall).mp (hsplit _ hargs hcall) [40,98,41] (by simp) rfl
  · rintro ⟨-,hindex⟩
    refine hindex ?_ (by decide)
    rintro ps - ⟨post,h⟩
    have hmem : (41 : UInt8) ∈ ([102,40,97,44] : Bytes).drop 1 := by
      rw [h]
      simp
    revert hmem
    decide

end GurlConf
end RecycleBin
