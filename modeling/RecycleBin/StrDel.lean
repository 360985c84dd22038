import RecycleBin.AntFileName
import RecycleBin.Occurrence

/-! `str_del_all` of `str_del.c`. The search runs from the last byte to the front; `last` is
`str+n-1`, so that it stands in front of the string where `n` is zero. -/
namespace RecycleBin
namespace StrDel
open AntHash CString AntFileName Occurrence

/-- `*p`, for the byte at index `i` of an array. -/
def load (buf : Bytes) (i : ℕ) : Except Fault UInt8 := (buf[i]?).elim (.error .undefined) .ok

/-- `str_cpy` within the array, from `src` to `dst`. -/
def strCpy (dst src : ℕ) (buf : Bytes) : Except Fault Bytes :=
  if h : src < buf.length ∧ dst < buf.length then
    if buf[src] = 0 then .ok (buf.set dst 0)
    else strCpy (dst+1) (src+1) (buf.set dst buf[src])
  else .error .undefined
termination_by buf.length-src
decreasing_by
  rw [List.length_set]
  omega

/-- The inner loop: where `bsub` and `blast` stop. -/
def compare (buf substr : Bytes) : ℕ → ℕ → Except Fault (ℕ × ℕ)
  | 0, blast => .ok (0,blast)
  | bsub+1, blast => do
    let a ← load substr (bsub+1)
    let b ← load buf blast
    if a = b then compare buf substr bsub (blast-1) else .ok (bsub+1,blast)

/-- The outer loop, behind `sublen--`. -/
def findLoop (buf substr : Bytes) (sublen : ℕ) : ℕ → Except Fault (Option ℕ)
  | 0 => .error .undefined -- `*last` is read before `last-str` is looked at
  | n+1 => do
    let b ← load buf n
    if b ≠ 0 ∧ sublen ≤ n then do
      let x ← load buf (n-sublen)
      let y ← load substr 0
      if x = y then do
        let (bsub,blast) ← compare buf substr sublen n
        if sublen-bsub = sublen then pure (some blast) else findLoop buf substr sublen n
      else findLoop buf substr sublen n
    else pure none

/-- `str_find_right` -/
def strFindRight (buf substr : Bytes) (n : ℕ) (sublen : ℤ) : Except Fault (Option ℕ) :=
  if n = 0 ∨ sublen ≤ 0 then .ok none else findLoop buf substr (sublen-1).toNat n

/-- The loop of `str_del_all`, for so many turns. -/
def delLoop (substr : Bytes) (sublen : ℤ) : ℕ → ℕ → Bytes → Except Fault Bytes
  | 0, _, _ => .error .exhausted
  | turns+1, n, buf => do
    match ← strFindRight buf substr n sublen with
    | some pos => do
      let buf ← strCpy pos (pos+sublen.toNat) buf
      delLoop substr sublen turns (n-sublen.toNat) buf
    | none => pure buf

/-- `str_del_all`. Each turn but the last one makes the string shorter. -/
def strDelAll (buf substr : Bytes) : Except Fault Bytes := do
  let sublen ← strlen substr
  let n ← strlen buf
  delLoop substr (toInt sublen) (n+1) n buf

/-- The array holds `text` and its terminator. -/
structure Text (buf text : Bytes) : Prop where
  noNul : 0 ∉ text
  front : ∃ rest,buf = text++0::rest

/-- The result is the string without the rightmost occurrences of `sub`, one after the other,
and a second call leaves it as it is. -/
def Right (buf substr s sub : Bytes) : Prop :=
  ∃ buf' r,strDelAll buf substr = .ok buf' ∧ Text buf' r ∧
    (if sub = [] then r = s else Reduces sub s r) ∧ strDelAll buf' substr = .ok buf'

/-! ### Reads and writes -/

theorem load_append (a : Bytes) (c : UInt8) (b : Bytes) : load (a++c::b) a.length = .ok c := by
  rw [load,List.getElem?_append_right le_rfl,Nat.sub_self]
  rfl

theorem set_append (a : Bytes) (c d : UInt8) (b : Bytes) :
    (a++c::b).set a.length d = a++d::b := by
  rw [List.set_append_right _ _ le_rfl,Nat.sub_self,List.set_cons_zero]

section Access
variable {buf substr s sub : Bytes}

theorem Text.strlen_eq (h : Text buf s) : strlen buf = .ok s.length := by
  obtain ⟨rest,rfl⟩ := h.front
  rw [strlen,if_pos (by simp),cstr_terminated h.noNul]

theorem Text.getElem? (h : Text buf s) {i : ℕ} (hi : i < s.length) : buf[i]? = s[i]? := by
  obtain ⟨rest,rfl⟩ := h.front
  exact List.getElem?_append_left hi

theorem Text.load (h : Text buf s) {i : ℕ} (hi : i < s.length) : load buf i = .ok s[i] := by
  rw [StrDel.load,h.getElem? hi,List.getElem?_eq_getElem hi]
  rfl

theorem Text.ne_zero (h : Text buf s) {i : ℕ} (hi : i < s.length) : s[i] ≠ 0 := fun h0 =>
  h.noNul (h0 ▸ List.getElem_mem hi)

/-- The copy moves the text behind the gap to the front of it. -/
theorem strCpy_gap {a gap t : Bytes} (rest : Bytes) (hgap : gap ≠ []) (ht : 0 ∉ t) :
    ∃ rest',strCpy a.length (a.length+gap.length) (a++(gap++(t++0::rest))) =
      .ok (a++t++0::rest') := by
  induction t generalizing a gap with
  | nil =>
    obtain ⟨g,gs,rfl⟩ := List.exists_cons_of_ne_nil hgap
    refine ⟨gs++0::rest,?_⟩
    rw [strCpy,dif_pos (by simp)]
    have hlt : a.length+(g::gs).length < (a++(g::gs++([]++0::rest))).length := by simp
    have hread : (a++(g::gs++([]++0::rest)))[a.length+(g::gs).length] = 0 := by
      rw [List.getElem_append_right (by omega),List.getElem_append_right (by simp)]
      simp
    rw [if_pos hread]
    simp
  | cons c t ih =>
    obtain ⟨g,gs,rfl⟩ := List.exists_cons_of_ne_nil hgap
    have hc : c ≠ 0 := fun h0 => ht (by rw [h0]; exact List.mem_cons_self)
    have hlt : a.length+(g::gs).length < (a++(g::gs++(c::t++0::rest))).length := by simp
    have hread : (a++(g::gs++(c::t++0::rest)))[a.length+(g::gs).length] = c := by
      rw [List.getElem_append_right (by omega),List.getElem_append_right (by simp)]
      simp
    have hgap' : gs++[c] ≠ [] := List.append_ne_nil_of_right_ne_nil gs (List.cons_ne_nil c [])
    obtain ⟨rest',hrest⟩ := ih (a := a++[c]) hgap' fun h => ht (List.mem_cons_of_mem c h)
    refine ⟨rest',?_⟩
    rw [strCpy,dif_pos (by simp),if_neg (by rw [hread]; exact hc),hread]
    have hset : (a++(g::gs++(c::t++0::rest))).set a.length c =
        (a++[c])++((gs++[c])++(t++0::rest)) := by simp
    have hlen : (a++[c]).length+(gs++[c]).length = a.length+(g::gs).length+1 := by
      simp only [List.length_append,List.length_cons,List.length_nil]
      omega
    rw [hset,← hlen,show a.length+1 = (a++[c]).length by simp,hrest]
    simp

/-- The part from `q` on, as long as the substring, is taken out. -/
theorem strCpy_cut {w : Bytes} {q : ℕ} (h : Text buf s) (hw : w ≠ []) (hq : OccursAt w s q) :
    ∃ buf',strCpy q (q+w.length) buf = .ok buf' ∧ Text buf' (cut s q w.length) := by
  obtain ⟨rest,rfl⟩ := h.front
  have hle := hq.le hw
  have hnul : 0 ∉ s.drop (q+w.length) := fun h0 => h.noNul (List.mem_of_mem_drop h0)
  have ha : (s.take q).length = q := List.length_take_of_le (by omega)
  obtain ⟨rest',hcpy⟩ := strCpy_gap rest (a := s.take q) hw hnul
  have hbuf : s++0::rest = s.take q++(w++(s.drop (q+w.length)++0::rest)) := by
    conv_lhs => rw [hq.eq_append]
    simp only [List.append_assoc]
  rw [ha,← hbuf] at hcpy
  exact ⟨_,hcpy,fun h0 => h.noNul (mem_of_mem_cut h0),rest',rfl⟩

end Access

/-! ### The search -/

section Search
variable {buf substr s sub : Bytes} {d : ℕ}

/-- The inner loop reaches the first byte exactly where the bytes behind it agree. -/
theorem compare_spec (hs : Text buf s) (hsub : Text substr sub) {bsub blast : ℕ}
    (hb : bsub < sub.length) (hle : bsub ≤ blast) (hlt : blast < s.length) :
    ∃ b,compare buf substr bsub blast = .ok (b,blast-(bsub-b)) ∧ b ≤ bsub ∧
      (b = 0 ↔ ∀ i,i < bsub → s[blast-bsub+(i+1)]? = sub[i+1]?) := by
  induction bsub generalizing blast with
  | zero => exact ⟨0,by simp [compare],le_rfl,by simp⟩
  | succ bsub ih =>
    have hx := hsub.load hb
    have hy := hs.load hlt
    have hlast : blast-(bsub+1)+(bsub+1) = blast := by omega
    by_cases heq : sub[bsub+1] = s[blast]
    · have hle' : bsub ≤ blast-1 := by omega
      obtain ⟨b,hrun,hble,hiff⟩ := ih (by omega) hle' (by omega)
      refine ⟨b,?_,by omega,?_⟩
      · rw [compare,hx,ok_bind,hy,ok_bind,if_pos heq,hrun]
        congr 2
        omega
      · have hsame : blast-1-bsub = blast-(bsub+1) := by omega
        rw [hiff,hsame]
        constructor
        · intro h i hi
          rcases Nat.lt_succ_iff_lt_or_eq.mp hi with hi | rfl
          · exact h i hi
          · rw [hlast,List.getElem?_eq_getElem hlt,List.getElem?_eq_getElem hb,heq]
        · exact fun h i hi => h i (Nat.lt_succ_of_lt hi)
    · refine ⟨bsub+1,?_,le_rfl,iff_of_false (by omega) fun h => heq ?_⟩
      · rw [compare,hx,ok_bind,hy,ok_bind,if_neg heq,Nat.sub_self,Nat.sub_zero]
      · have hlastEq := h bsub (Nat.lt_succ_self bsub)
        rw [hlast,List.getElem?_eq_getElem hlt,List.getElem?_eq_getElem hb] at hlastEq
        exact (Option.some.inj hlastEq).symm

theorem occursAt_take_iff (hd : d < sub.length) (q : ℕ) :
    OccursAt (sub.take (d+1)) s q ↔
      s[q]? = sub[0]? ∧ ∀ i,i < d → s[q+(i+1)]? = sub[i+1]? := by
  have hlen : (sub.take (d+1)).length = d+1 := List.length_take_of_le hd
  rw [occursAt_iff,hlen,Nat.forall_lt_succ_left]
  refine and_congr ?_ (forall₂_congr fun i hi => ?_)
  · rw [List.getElem?_take_of_lt (by omega)]
    rfl
  · rw [List.getElem?_take_of_lt (by omega)]

/-- A turn of the search looks for the occurrence that ends at its byte. -/
theorem findLoop_succ (hs : Text buf s) (hsub : Text substr sub) (hd : d < sub.length) {n : ℕ}
    (hn : n < s.length) :
    findLoop buf substr d (n+1) =
      if d ≤ n then
        if OccursAt (sub.take (d+1)) s (n-d) then .ok (some (n-d)) else findLoop buf substr d n
      else .ok none := by
  rw [findLoop,hs.load hn,ok_bind]
  by_cases hle : d ≤ n
  · have hfirst : 0 < sub.length := by omega
    have hfront : n-d < s.length := by omega
    rw [if_pos ⟨hs.ne_zero hn,hle⟩,if_pos hle,hs.load hfront,ok_bind,hsub.load hfirst,ok_bind]
    by_cases heq : s[n-d] = sub[0]
    · obtain ⟨b,hrun,hb,hiff⟩ := compare_spec hs hsub hd hle hn
      have hoccurs : OccursAt (sub.take (d+1)) s (n-d) ↔ b = 0 := by
        rw [occursAt_take_iff hd,hiff,List.getElem?_eq_getElem hfront,
          List.getElem?_eq_getElem hfirst,heq]
        exact and_iff_right rfl
      rw [if_pos heq,hrun,ok_bind]
      dsimp only
      by_cases h0 : b = 0
      · rw [if_pos (by omega),if_pos (hoccurs.mpr h0),h0]
        rfl
      · rw [if_neg (by omega),if_neg (fun h => h0 (hoccurs.mp h))]
    · have hno : ¬ OccursAt (sub.take (d+1)) s (n-d) := fun h => heq <| by
        have h0 := ((occursAt_take_iff hd _).mp h).1
        rw [List.getElem?_eq_getElem hfront,List.getElem?_eq_getElem hfirst] at h0
        exact Option.some.inj h0
      rw [if_neg heq,if_neg hno]
  · rw [if_neg (fun h => hle h.2),if_neg hle]
    rfl

/-- The search finds the rightmost occurrence. -/
theorem findLoop_found (hs : Text buf s) (hsub : Text substr sub) (hd : d < sub.length) {q n : ℕ}
    (hn : n ≤ s.length) (hq : OccursAt (sub.take (d+1)) s q) (hend : q+d < n)
    (hmax : ∀ q',OccursAt (sub.take (d+1)) s q' → q' ≤ q) :
    findLoop buf substr d n = .ok (some q) := by
  induction n with
  | zero => omega
  | succ n ih =>
    rw [findLoop_succ hs hsub hd hn,if_pos (by omega)]
    by_cases hlast : q+d = n
    · obtain rfl : n-d = q := by omega
      rw [if_pos hq]
    · rw [if_neg fun h => by have hle := hmax _ h; omega]
      exact ih (by omega) (by omega)

/-- Without an occurrence it stops at the front of the string, or passes it. -/
theorem findLoop_none (hs : Text buf s) (hsub : Text substr sub) (hd : d < sub.length) {n : ℕ}
    (hn : n ≤ s.length) (hpos : 0 < n) (hno : ∀ q,¬ OccursAt (sub.take (d+1)) s q) :
    findLoop buf substr d n = if d = 0 then .error .undefined else .ok none := by
  induction n with
  | zero => omega
  | succ n ih =>
    rw [findLoop_succ hs hsub hd hn,if_neg (hno _)]
    by_cases hle : d ≤ n
    · rw [if_pos hle]
      rcases Nat.eq_zero_or_pos n with rfl | hpos
      · rw [if_pos (by omega)]
        rfl
      · exact ih (by omega) hpos
    · rw [if_neg hle,if_neg (by omega)]

end Search

/-! ### The deletions -/

/-- All bytes of the string are the first one of the substring. -/
def OnlyFirst (s sub : Bytes) : Prop := ∀ b ∈ s,sub[0]? = some b

/-- The length of the substring as an `int`, `k`, is not positive, or is its length unless the
first `k` bytes do not occur; and where it is 1 the string has no other byte. -/
def Deletable (s sub : Bytes) : Prop :=
  let k := toInt sub.length
  k ≤ 0 ∨
    (k = 1 → OnlyFirst s sub) ∧ (k = sub.length ∨ ∀ q,¬ OccursAt (sub.take k.toNat) s q)

section Delete
variable {buf substr s sub : Bytes} {d : ℕ}

theorem take_ne_nil (hd : d < sub.length) : sub.take (d+1) ≠ [] :=
  List.ne_nil_of_length_pos (by rw [List.length_take_of_le hd]; omega)

/-- What the search finds: the rightmost occurrence, or none, which takes it in front of a string
that is not empty where the substring is one byte. -/
theorem strFindRight_spec (hs : Text buf s) (hsub : Text substr sub) (hd : d < sub.length) :
    (∃ q,OccursAt (sub.take (d+1)) s q ∧ (∀ q',OccursAt (sub.take (d+1)) s q' → q' ≤ q) ∧
      strFindRight buf substr s.length (d+1) = .ok (some q)) ∨
    (∀ q,¬ OccursAt (sub.take (d+1)) s q) ∧
      strFindRight buf substr s.length (d+1) =
        if s ≠ [] ∧ d = 0 then .error .undefined else .ok none := by
  have hint : ((d : ℤ)+1-1).toNat = d := by omega
  by_cases hex : ∃ q,OccursAt (sub.take (d+1)) s q
  · obtain ⟨q,hq,hmax⟩ := exists_rightmost (take_ne_nil hd) hex.choose_spec
    have hle := hq.le (take_ne_nil hd)
    rw [List.length_take_of_le hd] at hle
    refine Or.inl ⟨q,hq,hmax,?_⟩
    rw [strFindRight,if_neg (by omega),hint]
    exact findLoop_found hs hsub hd le_rfl hq (by omega) hmax
  · have hno := not_exists.mp hex
    refine Or.inr ⟨hno,?_⟩
    rcases Nat.eq_zero_or_pos s.length with h0 | hpos
    · rw [strFindRight,if_pos (Or.inl h0),if_neg fun h => h.1 (List.length_eq_zero_iff.mp h0)]
    · rw [strFindRight,if_neg (by omega),hint,findLoop_none hs hsub hd le_rfl hpos hno]
      have hne : s ≠ [] := List.ne_nil_of_length_pos hpos
      simp only [hne,ne_eq,not_false_eq_true,true_and]

/-- A turn with a deletion. -/
theorem delLoop_found (turns : ℕ) (hs : Text buf s) (hd : d < sub.length) {q : ℕ}
    (hq : OccursAt (sub.take (d+1)) s q)
    (hfind : strFindRight buf substr s.length (d+1) = .ok (some q)) :
    ∃ buf',Text buf' (cut s q (d+1)) ∧ (cut s q (d+1)).length+(d+1) = s.length ∧
      delLoop substr (d+1) (turns+1) s.length buf =
        delLoop substr (d+1) turns (cut s q (d+1)).length buf' := by
  have hw := take_ne_nil hd
  have hint : ((d : ℤ)+1).toNat = d+1 := by omega
  obtain ⟨buf',hcpy,hs'⟩ := strCpy_cut hs hw hq
  have hlen := cut_length hq hw
  rw [List.length_take_of_le hd] at hcpy hs' hlen
  refine ⟨buf',hs',hlen,?_⟩
  rw [delLoop,hfind,ok_bind]
  dsimp only
  rw [hint,hcpy,ok_bind,Nat.sub_eq_of_eq_add hlen.symm]

theorem OnlyFirst.cut (h : OnlyFirst s sub) (q k : ℕ) : OnlyFirst (cut s q k) sub :=
  fun b hb => h b (mem_of_mem_cut hb)

/-- A string of the first byte only is deleted until it is empty. -/
theorem OnlyFirst.eq_nil (h : OnlyFirst s sub) (hno : ∀ q,¬ OccursAt (sub.take 1) s q) :
    s = [] := by
  cases s with
  | nil => rfl
  | cons b s =>
    have hb := h b List.mem_cons_self
    obtain ⟨hpos,-⟩ := List.getElem?_eq_some_iff.mp hb
    refine absurd ?_ (hno 0)
    rw [occursAt_take_iff hpos]
    exact ⟨hb.symm,fun i hi => absurd hi (Nat.not_lt_zero i)⟩

/-- The loop deletes the rightmost occurrences of the first `d+1` bytes, and stops. -/
theorem delLoop_reduces (hs : Text buf s) (hsub : Text substr sub) (hd : d < sub.length)
    (hfirst : d = 0 → OnlyFirst s sub) {turns : ℕ} (hturns : s.length < turns) :
    ∃ buf' r,delLoop substr (d+1) turns s.length buf = .ok buf' ∧ Text buf' r ∧
      Reduces (sub.take (d+1)) s r ∧ strFindRight buf' substr r.length (d+1) = .ok none := by
  induction turns generalizing buf s with
  | zero => omega
  | succ turns ih =>
    rcases strFindRight_spec hs hsub hd with ⟨q,hq,hmax,hfind⟩ | ⟨hno,hfind⟩
    · obtain ⟨buf₁,hs₁,hlen,hturn⟩ := delLoop_found turns hs hd hq hfind
      obtain ⟨buf',r,hrun,hr,hred,hend⟩ := ih hs₁ (fun h0 => (hfirst h0).cut q (d+1)) (by omega)
      refine ⟨buf',r,hturn.trans hrun,hr,hred.head ⟨q,hq,hmax,?_⟩,hend⟩
      rw [List.length_take_of_le hd]
    · have hnone : strFindRight buf substr s.length (d+1) = .ok none := by
        rw [hfind,if_neg]
        rintro ⟨hne,rfl⟩
        exact hne ((hfirst rfl).eq_nil hno)
      refine ⟨buf,s,?_,hs,Reduces.refl hno,hnone⟩
      rw [delLoop,hnone]
      rfl

/-- A string with another byte ends in a read in front of it, where the first byte is sought. -/
theorem delLoop_undefined (hs : Text buf s) (hsub : Text substr sub) (hd : 0 < sub.length)
    (hother : ¬ OnlyFirst s sub) (turns : ℕ) (buf' : Bytes) :
    delLoop substr 1 turns s.length buf ≠ .ok buf' := by
  induction turns generalizing buf s with
  | zero => exact fun hrun => nomatch hrun
  | succ turns ih =>
    have hone : ((0 : ℕ) : ℤ)+1 = 1 := rfl
    rcases strFindRight_spec hs hsub hd with ⟨q,hq,-,hfind⟩ | ⟨-,hfind⟩
    · obtain ⟨buf₁,hs₁,-,hturn⟩ := delLoop_found turns hs hd hq hfind
      rw [← hone,hturn]
      refine ih hs₁ fun honly => hother fun b hb => ?_
      by_contra hne
      have hnotin : b ∉ sub.take 1 := by
        rw [List.take_one,List.head?_eq_getElem?,Option.mem_toList]
        exact hne
      have hmem := mem_cut hq hb hnotin
      rw [List.length_take_of_le hd] at hmem
      exact hne (honly b hmem)
    · have hne : s ≠ [] := by
        rintro rfl
        exact hother fun b hb => absurd hb List.not_mem_nil
      rw [delLoop,← hone,hfind,if_pos ⟨hne,rfl⟩]
      exact fun hrun => nomatch hrun

theorem Text.unique {r r' : Bytes} (h : Text buf r) (h' : Text buf r') : r = r' := by
  obtain ⟨rest,hr⟩ := h.front
  obtain ⟨rest',hr'⟩ := h'.front
  rw [← cstr_terminated h.noNul rest,← hr,hr',cstr_terminated h'.noNul]

theorem strDelAll_eq (hs : Text buf s) (hsub : Text substr sub) :
    strDelAll buf substr = delLoop substr (toInt sub.length) (s.length+1) s.length buf := by
  rw [strDelAll,hsub.strlen_eq,ok_bind,hs.strlen_eq,ok_bind]

/-- A search that finds nothing leaves the string as it is. -/
theorem strDelAll_unchanged (hs : Text buf s) (hsub : Text substr sub)
    (hfind : strFindRight buf substr s.length (toInt sub.length) = .ok none) :
    strDelAll buf substr = .ok buf := by
  rw [strDelAll_eq hs hsub,delLoop,hfind]
  rfl

theorem toInt_le (n : ℕ) : toInt n ≤ n := by
  rw [toInt,Int.bmod]
  split_ifs <;> omega

theorem le_of_toInt_ne {n : ℕ} (h : toInt n ≠ n) : 2^31 ≤ n := by
  by_contra hlt
  exact h (toInt_of_lt (Nat.lt_of_not_le hlt))

/-- A substring that is no `int` long does not occur in a string that is. -/
theorem reduces_long (hlen : s.length < 2^31) (hk : toInt sub.length ≠ sub.length) :
    Reduces sub s s :=
  Reduces.refl fun q => not_occursAt_of_lt (Nat.lt_of_lt_of_le hlen (le_of_toInt_ne hk)) q

/-- Without a positive length nothing is sought. -/
theorem right_of_nonpos (hs : Text buf s) (hsub : Text substr sub) (hlen : s.length < 2^31)
    (hk : toInt sub.length ≤ 0) : Right buf substr s sub := by
  have hsame : strDelAll buf substr = .ok buf :=
    strDelAll_unchanged hs hsub (by rw [strFindRight,if_pos (Or.inr hk)])
  refine ⟨buf,s,hsame,hs,?_,hsame⟩
  split_ifs with hnil
  · rfl
  · refine reduces_long hlen fun heq => ?_
    have hpos := List.length_pos_of_ne_nil hnil
    omega

/-- A positive length. -/
theorem right_iff_of_pos (hs : Text buf s) (hsub : Text substr sub) (hlen : s.length < 2^31)
    (hd : d < sub.length) (hk : toInt sub.length = d+1) :
    Right buf substr s sub ↔ (d = 0 → OnlyFirst s sub) ∧
      (d+1 = sub.length ∨ ∀ q,¬ OccursAt (sub.take (d+1)) s q) := by
  have hne : sub ≠ [] := List.ne_nil_of_length_pos (by omega)
  have hall := strDelAll_eq hs hsub
  rw [hk] at hall
  by_cases hfirst : d = 0 → OnlyFirst s sub
  · obtain ⟨buf',r,hrun,hr,hred,hend⟩ := delLoop_reduces hs hsub hd hfirst (Nat.lt_succ_self _)
    have hagain : strDelAll buf' substr = .ok buf' :=
      strDelAll_unchanged hr hsub (by rw [hk]; exact hend)
    rw [← hall] at hrun
    have hright : Right buf substr s sub ↔ Reduces sub s r := by
      constructor
      · rintro ⟨buf₁,r₁,hrun₁,hr₁,hred₁,-⟩
        obtain rfl := Except.ok.inj (hrun.symm.trans hrun₁)
        rw [if_neg hne] at hred₁
        rwa [hr.unique hr₁]
      · exact fun h => ⟨buf',r,hrun,hr,by rwa [if_neg hne],hagain⟩
    rw [hright,and_iff_right hfirst]
    by_cases hwhole : d+1 = sub.length
    · rw [hwhole,List.take_length] at hred
      exact iff_of_true hred (Or.inl hwhole)
    · have hlong : toInt sub.length ≠ sub.length := by omega
      rw [or_iff_right hwhole]
      constructor
      · intro h q hq
        obtain rfl := h.unique (reduces_long hlen hlong)
        exact hred.2 q hq
      · intro hno
        rw [hred.unique (Reduces.refl hno)]
        exact reduces_long hlen hlong
  · refine iff_of_false ?_ fun h => hfirst h.1
    rintro ⟨buf',r,hrun,-⟩
    obtain ⟨rfl,hother⟩ := Classical.not_imp.mp hfirst
    rw [hall] at hrun
    exact delLoop_undefined hs hsub hd hother _ _ hrun

end Delete

/-- `str_del_all` is right exactly on these strings. -/
theorem strDelAll_right_iff (buf substr s sub : Bytes) (hs : Text buf s) (hsub : Text substr sub)
    (hlen : s.length < 2^31) : Right buf substr s sub ↔ Deletable s sub := by
  rw [Deletable]
  by_cases hk : toInt sub.length ≤ 0
  · exact iff_of_true (right_of_nonpos hs hsub hlen hk) (Or.inl hk)
  · have hle := toInt_le sub.length
    obtain ⟨d,hd⟩ : ∃ d : ℕ,toInt sub.length = d+1 := ⟨(toInt sub.length-1).toNat,by omega⟩
    have hint : ((d : ℤ)+1).toNat = d+1 := by omega
    have hone : (d : ℤ)+1 = 1 ↔ d = 0 := by omega
    have hwhole : (d : ℤ)+1 = sub.length ↔ d+1 = sub.length := by omega
    have hpos : ¬ (d : ℤ)+1 ≤ 0 := by omega
    rw [right_iff_of_pos hs hsub hlen (d := d) (by omega) hd,hd,hint,hone,hwhole,or_iff_right hpos]

/-- The string `abc` has no `x`. -/
theorem not_right_abc : ¬ Right [97,98,99,0] [120,0] [97,98,99] [120] := by
  have hs : Text [97,98,99,0] [97,98,99] := ⟨by decide,[],rfl⟩
  have hsub : Text [120,0] [120] := ⟨by decide,[],rfl⟩
  have hk : toInt ([120] : Bytes).length = (0 : ℕ)+1 := toInt_of_lt (n := 1) (by decide)
  rw [right_iff_of_pos hs hsub (by decide) (by decide) hk]
  rintro ⟨honly,-⟩
  exact absurd (honly rfl 97 (by decide)) (by decide)

/-- `12` in `1212`. -/
theorem right_twice : Right [49,50,49,50,0] [49,50,0] [49,50,49,50] [49,50] := by
  have hk : toInt ([49,50] : Bytes).length = 2 := toInt_of_lt (n := 2) (by decide)
  apply (strDelAll_right_iff [49,50,49,50,0] [49,50,0] [49,50,49,50] [49,50] ⟨by decide,[],rfl⟩
    ⟨by decide,[],rfl⟩ (by decide)).mpr
  rw [Deletable,hk]
  exact Or.inr ⟨fun h => absurd h (by decide),Or.inl rfl⟩

end StrDel
end RecycleBin
