import RecycleBin.StrDel

/-!
# Tokens of a string

`ho_strtok.c`. The pointers are indices into the array that the first call is given; each
token is cut off by a terminator written over the separator behind it.
-/

namespace RecycleBin
namespace HoStrtok

open AntHash AntVisited CString Occurrence StrDel

/-! ## The code -/

/-- `ho_strtok_r`: the token or none, `*lasts`, and the array. -/
def ho_strtok_r (str : Option ℕ) (sep : Bytes) (lasts : Option ℕ) (buf : Bytes) :
    Except Fault (Option ℕ × Option ℕ × Bytes) :=
  match str.or lasts with
  | none => .error .undefined
  | some b => do
    let n ← strspn (buf.drop b) sep
    let b := b+n
    let c ← load buf b
    if c = 0 then .ok (none,none,buf)
    else do
      let n ← strcspn (buf.drop b) sep
      let e := b+n
      let c ← load buf e
      if c ≠ 0 then .ok (some b,some (e+1),buf.set e 0) else .ok (some b,some e,buf)

/-- The calls up to the first one that returns `NULL`: each token with the string it points
to when it is returned, and the array in the end. -/
def tokens (sep : Bytes) : ℕ → Option ℕ → Option ℕ → Bytes →
    Except Fault (List (ℕ × Bytes) × Bytes)
  | 0,_,_,_ => .error .exhausted
  | fuel+1,str,lasts,buf => do
    let r ← ho_strtok_r str sep lasts buf
    match r.1 with
    | none => .ok ([],r.2.2)
    | some b => do
      let rest ← tokens sep fuel none r.2.1 r.2.2
      .ok ((b,cstr (r.2.2.drop b))::rest.1,rest.2)

/-! ## Maximal runs -/

/-- `t` stands in `s` from `b` on, has no separator, and cannot be extended. -/
structure MaximalRun (sep s : Bytes) (b : ℕ) (t : Bytes) : Prop where
  nonempty : t ≠ []
  occurs : OccursAt t s b
  free : ∀ c ∈ t,c ∉ sep
  left : ∀ i c,i+1 = b → s[i]? = some c → c ∈ sep
  right : ∀ c,s[b+t.length]? = some c → c ∈ sep

section Runs

variable {sep s t t' : Bytes} {b b' : ℕ}

theorem MaximalRun.not_mem (h : MaximalRun sep s b t) {i : ℕ} (hlow : b ≤ i)
    (hhigh : i < b+t.length) {c : UInt8} (hc : s[i]? = some c) : c ∉ sep := by
  have hi : i-b < t.length := by omega
  have hread := occursAt_iff.mp h.occurs (i-b) hi
  rw [Nat.add_sub_cancel' hlow,hc] at hread
  exact h.free c (List.mem_of_getElem? hread.symm)

theorem MaximalRun.le_length (h : MaximalRun sep s b t) : b+t.length ≤ s.length :=
  h.occurs.le h.nonempty

/-- Of two runs that share a place none begins before the other. -/
theorem MaximalRun.start_le (h : MaximalRun sep s b t) (h' : MaximalRun sep s b' t') {i : ℕ}
    (hb : b ≤ i) (ht' : i < b'+t'.length) : b ≤ b' := by
  by_contra hlt
  obtain ⟨k,rfl⟩ : ∃ k,b = k+1 := ⟨b-1,by omega⟩
  have hk : k < s.length := by
    have hle := h'.le_length
    omega
  have hread : s[k]? = some s[k] := List.getElem?_eq_getElem hk
  exact h'.not_mem (by omega) (by omega) hread (h.left k _ rfl hread)

/-- Nor does one of two runs from the same place end before the other. -/
theorem MaximalRun.length_le (h : MaximalRun sep s b t) (h' : MaximalRun sep s b t') :
    t.length ≤ t'.length := by
  by_contra hlt
  have hle := h.le_length
  have hk : b+t'.length < s.length := by omega
  have hread : s[b+t'.length]? = some s[b+t'.length] := List.getElem?_eq_getElem hk
  exact h.not_mem (by omega) (by omega) hread (h'.right _ hread)

/-- Two runs that share a place are one. -/
theorem MaximalRun.unique (h : MaximalRun sep s b t) (h' : MaximalRun sep s b' t') {i : ℕ}
    (hb : b ≤ i) (ht : i < b+t.length) (hb' : b' ≤ i) (ht' : i < b'+t'.length) :
    b = b' ∧ t = t' := by
  obtain rfl := le_antisymm (h.start_le h' hb ht') (h'.start_le h hb' ht)
  have hlen := le_antisymm (h.length_le h') (h'.length_le h)
  exact ⟨rfl,(List.prefix_of_prefix_length_le h.occurs h'.occurs hlen.le).eq_of_length hlen⟩

theorem not_maximalRun_nil : ¬MaximalRun sep [] b t := by
  intro h
  have hle := h.le_length
  have hpos := List.length_pos_of_ne_nil h.nonempty
  rw [List.length_nil] at hle
  omega

/-- Behind a separator the runs are those of the rest. -/
theorem maximalRun_append {p v : Bytes} (hp : ∀ c,p.getLast? = some c → c ∈ sep) :
    MaximalRun sep (p++v) (p.length+b) t ↔ MaximalRun sep v b t := by
  have hread : ∀ i,(p++v)[p.length+i]? = v[i]? := fun i => by
    rw [List.getElem?_append_right (Nat.le_add_right _ _),Nat.add_sub_cancel_left]
  have hocc : OccursAt t (p++v) (p.length+b) ↔ OccursAt t v b := by
    rw [OccursAt,OccursAt,← List.drop_drop,List.drop_left]
  have hright : (p++v)[p.length+b+t.length]? = v[b+t.length]? := by
    rw [Nat.add_assoc,hread]
  constructor
  · rintro ⟨hne,hat,hfree,hleft,hr⟩
    rw [hright] at hr
    refine ⟨hne,hocc.mp hat,hfree,fun i c hi hc => ?_,hr⟩
    exact hleft (p.length+i) c (by omega) (by rwa [hread])
  · rintro ⟨hne,hat,hfree,hleft,hr⟩
    rw [← hright] at hr
    refine ⟨hne,hocc.mpr hat,hfree,fun i c hi hc => ?_,hr⟩
    rcases Nat.lt_or_ge i p.length with hlt | hge
    · -- the byte in front of the rest
      have hlast : i = p.length-1 := by omega
      rw [List.getElem?_append_left hlt,hlast,← List.getLast?_eq_getElem?] at hc
      exact hp c hc
    · obtain ⟨j,rfl⟩ := Nat.exists_eq_add_of_le hge
      exact hleft j c (by omega) (by rwa [hread] at hc)

end Runs

/-! ## One call -/

/-- What a call passes over: separators, a token, and a separator behind it or the end. -/
structure Cut (sep s seps t gap v : Bytes) : Prop where
  eq : s = seps++(t++(gap++v))
  seps : ∀ c ∈ seps,c ∈ sep
  nonempty : t ≠ []
  free : ∀ c ∈ t,c ∉ sep
  gap : gap = [] ∧ v = [] ∨ ∃ c ∈ sep,gap = [c]

section Cut

variable {sep s seps t gap v front : Bytes} {str lasts : Option ℕ} {b : ℕ} {t' : Bytes}

/-- A string is separators, or a token is cut from it. -/
theorem exists_cut (sep s : Bytes) :
    (∀ c ∈ s,c ∈ sep) ∨ ∃ seps t gap v,Cut sep s seps t gap v := by
  obtain ⟨seps,r,rfl,hseps,hr⟩ := exists_span (fun c => c ∈ sep) s
  obtain ⟨t,u,rfl,ht,hu⟩ := exists_span (fun c => c ∉ sep) r
  have hseps' : ∀ c ∈ seps,c ∈ sep := fun c hc => of_decide_eq_true (hseps c hc)
  have ht' : ∀ c ∈ t,c ∉ sep := fun c hc => of_decide_eq_true (ht c hc)
  cases t with
  | nil =>
    cases u with
    | nil => exact .inl (by simpa using hseps')
    | cons c u =>
      have hin := hr c rfl
      have hout := hu c rfl
      simp only [decide_eq_false_iff_not,not_not] at hin hout
      exact absurd hout hin
  | cons c t =>
    refine .inr ?_
    cases u with
    | nil =>
      exact ⟨seps,c::t,[],[],rfl,hseps',List.cons_ne_nil c t,ht',.inl ⟨rfl,rfl⟩⟩
    | cons d u =>
      have hout := hu d rfl
      simp only [decide_eq_false_iff_not,not_not] at hout
      exact ⟨seps,c::t,[d],u,rfl,hseps',List.cons_ne_nil c t,ht',.inr ⟨d,hout,rfl⟩⟩

theorem Cut.gap_length (h : Cut sep s seps t gap v) : gap.length ≤ 1 := by
  rcases h.gap with ⟨rfl,-⟩ | ⟨d,-,rfl⟩
  · exact Nat.zero_le 1
  · exact le_rfl

/-- The token is a maximal run. -/
theorem Cut.run (h : Cut sep s seps t gap v) : MaximalRun sep s seps.length t := by
  obtain ⟨rfl,hseps,hne,hfree,hgap⟩ := h
  refine ⟨hne,?_,hfree,fun i c hi hc => ?_,fun c hc => ?_⟩
  · rw [OccursAt,List.drop_left]
    exact List.prefix_append t (gap++v)
  · rw [List.getElem?_append_left (by omega)] at hc
    exact hseps c (List.mem_of_getElem? hc)
  · rw [List.getElem?_append_right (Nat.le_add_right _ _),Nat.add_sub_cancel_left,
      List.getElem?_append_right le_rfl,Nat.sub_self] at hc
    rcases hgap with ⟨rfl,rfl⟩ | ⟨d,hd,rfl⟩
    · cases hc
    · cases hc
      exact hd

/-- The runs of the rest are runs of the string. -/
theorem Cut.rest (h : Cut sep s seps t gap v) :
    MaximalRun sep s (seps.length+(t.length+gap.length)+b) t' ↔ MaximalRun sep v b t' := by
  obtain ⟨rfl,-,-,-,hgap⟩ := h
  rcases hgap with ⟨rfl,rfl⟩ | ⟨d,hd,rfl⟩
  · refine iff_of_false (fun hrun => ?_) not_maximalRun_nil
    have hle := hrun.le_length
    have hpos := List.length_pos_of_ne_nil hrun.nonempty
    simp only [List.length_append,List.length_nil] at hle
    omega
  · have hlast : ∀ c,(seps++(t++[d])).getLast? = some c → c ∈ sep := by
      intro c hc
      rw [← List.append_assoc,List.getLast?_concat] at hc
      cases hc
      exact hd
    have happ := maximalRun_append (v := v) (b := b) (t := t') hlast
    simp only [List.length_append,List.append_assoc] at happ
    exact happ

/-- The runs of a string are its first token and those of the rest. -/
theorem Cut.run_iff (h : Cut sep s seps t gap v) : MaximalRun sep s b t' ↔
    b = seps.length ∧ t' = t ∨
      ∃ j,b = seps.length+(t.length+gap.length)+j ∧ MaximalRun sep v j t' := by
  constructor
  · intro hrun
    have hpos := List.length_pos_of_ne_nil hrun.nonempty
    rcases Nat.lt_or_ge b (seps.length+(t.length+gap.length)) with hlt | hge
    · left
      have hle := hrun.le_length
      have hread : s[b]? = some s[b] := List.getElem?_eq_getElem (by omega)
      have hnot := hrun.not_mem le_rfl (by omega) hread
      have hge : seps.length ≤ b := by
        by_contra hb
        have hb := Nat.lt_of_not_le hb
        have hfront : s[b]? = seps[b]? := by
          rw [h.eq]
          exact List.getElem?_append_left hb
        rw [hread] at hfront
        exact hnot (h.seps _ (List.mem_of_getElem? hfront.symm))
      rcases Nat.lt_or_ge b (seps.length+t.length) with hin | hout
      · exact hrun.unique h.run le_rfl (by omega) hge hin
      · -- the separator behind the token
        obtain rfl : b = seps.length+t.length := by
          have hgap := h.gap_length
          omega
        exact absurd (h.run.right _ hread) hnot
    · obtain ⟨j,rfl⟩ := Nat.exists_eq_add_of_le hge
      exact .inr ⟨j,rfl,h.rest.mp hrun⟩
  · rintro (⟨rfl,rfl⟩ | ⟨j,rfl,hrun⟩)
    · exact h.run
    · exact h.rest.mpr hrun

/-- The call up to the place behind the token. -/
theorem ho_strtok_r_eq {e : UInt8} {r : Bytes} (hseps : ∀ c ∈ seps,c ∈ sep) (hne : t ≠ [])
    (hfree : ∀ c ∈ t,c ∉ sep) (hs : 0 ∉ seps++t) (he : e = 0 ∨ e ∈ sep)
    (hptr : str.or lasts = some front.length) :
    ho_strtok_r str sep lasts (front++(seps++(t++e::r))) =
      (if e ≠ 0 then .ok (some (front.length+seps.length),
        some (front.length+seps.length+t.length+1),front++(seps++(t++0::r)))
      else .ok (some (front.length+seps.length),some (front.length+seps.length+t.length),
        front++(seps++(t++e::r)))) := by
  obtain ⟨c,t,rfl⟩ := List.exists_cons_of_ne_nil hne
  simp only [List.mem_append,not_or] at hs
  obtain ⟨hs0,ht0⟩ := hs
  have hc : c ≠ 0 := fun h0 => ht0 (h0 ▸ List.mem_cons_self)
  have hspan : strspn ((front++(seps++(c::t++e::r))).drop front.length) sep = .ok seps.length := by
    rw [List.drop_left,strspn]
    refine spanLength_append hs0 (fun b hb => decide_eq_true (hseps b hb)) (.inr ?_) _
    exact decide_eq_false (hfree c List.mem_cons_self)
  have hload : load (front++(seps++(c::t++e::r))) (front.length+seps.length) = .ok c := by
    have happ := load_append (front++seps) c (t++e::r)
    rwa [List.length_append,List.append_assoc] at happ
  have hcspan : strcspn ((front++(seps++(c::t++e::r))).drop (front.length+seps.length)) sep =
      .ok (c::t).length := by
    rw [← List.drop_drop,List.drop_left,List.drop_left,strcspn]
    refine spanLength_append ht0 (fun b hb => decide_eq_true (hfree b hb)) ?_ _
    exact he.imp_right fun hmem => by simpa using hmem
  have hend : load (front++(seps++(c::t++e::r))) (front.length+seps.length+(c::t).length) =
      .ok e := by
    have happ := load_append (front++(seps++(c::t))) e r
    simpa only [List.length_append,List.append_assoc,Nat.add_assoc] using happ
  have hset : (front++(seps++(c::t++e::r))).set (front.length+seps.length+(c::t).length) 0 =
      front++(seps++(c::t++0::r)) := by
    have happ := set_append (front++(seps++(c::t))) e 0 r
    simpa only [List.length_append,List.append_assoc,Nat.add_assoc] using happ
  simp only [ho_strtok_r,hptr,hspan,ok_bind,hload,if_neg hc,hcspan,hend,hset]

/-- What a call does where a token is left. -/
theorem ho_strtok_r_cut (h : Cut sep s seps t gap v) (hs : 0 ∉ s)
    (hptr : str.or lasts = some front.length) :
    ho_strtok_r str sep lasts (front++(s++[0])) =
      .ok (some (front.length+seps.length),
        some (front.length+seps.length+t.length+gap.length),
        front++(seps++(t++(gap.map (fun _ => 0)++(v++[0]))))) := by
  obtain ⟨rfl,hseps,hne,hfree,hgap⟩ := h
  have hs' : 0 ∉ seps++t := fun hmem => hs (by
    rw [← List.append_assoc]
    exact List.mem_append_left _ hmem)
  rcases hgap with ⟨rfl,rfl⟩ | ⟨d,hd,rfl⟩
  · have hcall := ho_strtok_r_eq (r := []) hseps hne hfree hs' (.inl rfl) hptr
    simpa using hcall
  · have hd0 : d ≠ 0 := fun h0 => hs (by simp [h0])
    have hcall := ho_strtok_r_eq (r := v++[0]) hseps hne hfree hs' (.inr hd) hptr
    rw [if_pos hd0] at hcall
    simpa using hcall

/-- What a call does where only separators are left. -/
theorem ho_strtok_r_none (h : ∀ c ∈ s,c ∈ sep) (hs : 0 ∉ s)
    (hptr : str.or lasts = some front.length) :
    ho_strtok_r str sep lasts (front++(s++[0])) = .ok (none,none,front++(s++[0])) := by
  have hspan : strspn ((front++(s++[0])).drop front.length) sep = .ok s.length := by
    rw [List.drop_left,strspn]
    exact spanLength_append hs (fun b hb => decide_eq_true (h b hb)) (.inl rfl) []
  have hload : load (front++(s++[0])) (front.length+s.length) = .ok 0 := by
    have happ := load_append (front++s) 0 []
    rwa [List.length_append,List.append_assoc] at happ
  simp only [ho_strtok_r,hptr,hspan,ok_bind,hload,if_true]

end Cut

/-! ## All calls -/

/-- The tokens are the maximal runs from `off` on, in order, and each one stands in the
array in the end. -/
structure Tokens (sep s : Bytes) (off : ℕ) (ts : List (ℕ × Bytes)) (buf : Bytes) : Prop where
  order : ts.Pairwise fun x y => x.1 < y.1
  low : ∀ x ∈ ts,off ≤ x.1
  runs : ∀ j t,(off+j,t) ∈ ts ↔ MaximalRun sep s j t
  text : ∀ x ∈ ts,cstr (buf.drop x.1) = x.2

section Calls

variable {sep s seps t gap v front : Bytes} {str lasts : Option ℕ}

theorem Tokens.nil {off : ℕ} {buf : Bytes} (h : ∀ c ∈ s,c ∈ sep) : Tokens sep s off [] buf := by
  refine ⟨List.Pairwise.nil,fun x hx => absurd hx List.not_mem_nil,fun j t => ?_,
    fun x hx => absurd hx List.not_mem_nil⟩
  refine iff_of_false List.not_mem_nil fun hrun => ?_
  obtain ⟨c,hc⟩ := List.exists_mem_of_ne_nil t hrun.nonempty
  have hmem : c ∈ s.drop j := hrun.occurs.subset hc
  exact hrun.free c hc (h c (List.mem_of_mem_drop hmem))

/-- A token and the tokens of the rest. -/
theorem Tokens.cons (h : Cut sep s seps t gap v) {off : ℕ} {ts : List (ℕ × Bytes)} {buf : Bytes}
    (hts : Tokens sep v (off+(seps.length+(t.length+gap.length))) ts buf)
    (ht : cstr (buf.drop (off+seps.length)) = t) :
    Tokens sep s off ((off+seps.length,t)::ts) buf := by
  have hpos := List.length_pos_of_ne_nil h.nonempty
  refine ⟨List.pairwise_cons.mpr ⟨fun x hx => ?_,hts.order⟩,fun x hx => ?_,fun j u => ?_,
    fun x hx => ?_⟩
  · have hlow := hts.low x hx
    show off+seps.length < x.1
    omega
  · rcases List.mem_cons.mp hx with rfl | hx
    · exact Nat.le_add_right off seps.length
    · have hlow := hts.low x hx
      omega
  · rw [h.run_iff,List.mem_cons,Prod.mk.injEq,Nat.add_left_cancel_iff]
    refine or_congr_right ⟨fun hx => ?_,?_⟩
    · obtain ⟨i,hi⟩ := Nat.exists_eq_add_of_le (hts.low _ hx)
      obtain rfl : j = seps.length+(t.length+gap.length)+i := by
        simp only at hi
        omega
      refine ⟨i,rfl,(hts.runs i u).mp ?_⟩
      rwa [Nat.add_assoc]
    · rintro ⟨i,rfl,hrun⟩
      have hx := (hts.runs i u).mpr hrun
      rwa [Nat.add_assoc] at hx
  · rcases List.mem_cons.mp hx with rfl | hx
    · exact ht
    · exact hts.text x hx

/-- The token of a call ends at the terminator behind it, then and in the end. -/
theorem Cut.text (h : Cut sep s seps t gap v) (hs : 0 ∉ s) (front : Bytes) {rest : Bytes}
    (hrest : v = [] → rest = [0]) :
    cstr ((front++(seps++(t++(gap.map (fun _ => 0)++rest)))).drop (front.length+seps.length)) =
      t := by
  have ht : 0 ∉ t := fun hmem => hs (by
    rw [h.eq]
    simp [hmem])
  rw [← List.drop_drop,List.drop_left,List.drop_left]
  rcases h.gap with ⟨rfl,hv⟩ | ⟨d,-,rfl⟩
  · rw [hrest hv]
    exact cstr_terminated ht []
  · exact cstr_terminated ht rest

/-- The calls from a pointer on, with one call for each byte and one more at most. -/
theorem tokens_spec (fuel : ℕ) (front s : Bytes) (str lasts : Option ℕ) (hs : 0 ∉ s)
    (hfuel : s.length < fuel) (hptr : str.or lasts = some front.length) :
    ∃ ts rest,tokens sep fuel str lasts (front++(s++[0])) = .ok (ts,front++rest) ∧
      Tokens sep s front.length ts (front++rest) ∧ (s = [] → rest = [0]) := by
  induction fuel generalizing front s str lasts with
  | zero => exact absurd hfuel (Nat.not_lt_zero _)
  | succ fuel ih =>
    rcases exists_cut sep s with hseps | ⟨seps,t,gap,v,hcut⟩
    · refine ⟨[],s++[0],?_,Tokens.nil hseps,fun h0 => by rw [h0,List.nil_append]⟩
      rw [tokens,ho_strtok_r_none hseps hs hptr]
      rfl
    · have hlen := congrArg List.length hcut.eq
      have hpos := List.length_pos_of_ne_nil hcut.nonempty
      simp only [List.length_append] at hlen
      have hv : 0 ∉ v := fun hmem => hs (by
        rw [hcut.eq]
        simp [hmem])
      obtain ⟨ts,rest,hrun,hts,hrest⟩ := ih (front++(seps++(t++gap.map fun _ => 0))) v none
        (some (front.length+seps.length+t.length+gap.length)) hv (by omega)
        (by simp [Nat.add_assoc])
      simp only [List.length_append,List.length_map,List.append_assoc] at hrun hts
      refine ⟨(front.length+seps.length,t)::ts,seps++(t++(gap.map (fun _ => 0)++rest)),?_,
        Tokens.cons hcut hts (hcut.text hs front hrest),?_⟩
      · have htext := hcut.text hs front (show v = [] → v++[0] = [0] from fun h0 => by rw [h0]; rfl)
        rw [tokens,ho_strtok_r_cut hcut hs hptr]
        simp only [ok_bind,hrun,htext]
      · rintro rfl
        rw [List.length_nil] at hlen
        omega

/-- Up to the first `NULL`, the calls return the maximal runs without separators, in order. -/
theorem tokens_maximalRuns (sep s : Bytes) (hs : 0 ∉ s) (lasts : Option ℕ) :
    ∃ ts buf,tokens sep (s.length+1) (some 0) lasts (s++[0]) = .ok (ts,buf) ∧
      ts.Pairwise (fun x y => x.1 < y.1) ∧ (∀ b t,(b,t) ∈ ts ↔ MaximalRun sep s b t) ∧
      ∀ x ∈ ts,cstr (buf.drop x.1) = x.2 := by
  obtain ⟨ts,rest,hrun,hts,-⟩ :=
    tokens_spec (s.length+1) [] s (some 0) lasts hs (Nat.lt_succ_self _) rfl
  refine ⟨ts,rest,hrun,hts.order,fun b t => ?_,hts.text⟩
  have hiff := hts.runs b t
  rwa [List.length_nil,Nat.zero_add] at hiff

/-- The tokens of ":/http://a/". -/
theorem tokens_maximalRuns_url :
    ∃ ts buf,tokens (ascii ":/") ((ascii ":/http://a/").length+1) (some 0) none
        (ascii ":/http://a/"++[0]) = .ok (ts,buf) ∧
      ts.Pairwise (fun x y => x.1 < y.1) ∧
      (∀ b t,(b,t) ∈ ts ↔ MaximalRun (ascii ":/") (ascii ":/http://a/") b t) ∧
      ∀ x ∈ ts,cstr (buf.drop x.1) = x.2 :=
  tokens_maximalRuns (ascii ":/") (ascii ":/http://a/") (by decide) none

example : (tokens (ascii ":/") 11 (some 0) none (ascii ":/http://a/"++[0])).map Prod.fst =
    .ok [(2,ascii "http"),(9,ascii "a")] := by decide

end Calls

end HoStrtok
end RecycleBin
