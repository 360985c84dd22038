import Mathlib.Tactic

/-! Nested maps that are filled path by path: an assignment goes down through maps, makes those
that are missing, and puts a value in place of whatever is at its end. No path leads through a
value. -/
namespace RecycleBin
namespace NestedMap

/-- A value, or a map from keys to trees. -/
inductive Tree (K V : Type)
  | leaf (v : V)
  | node (m : K → Option (Tree K V))

variable {K V : Type}

/-- The map with nothing in it. -/
def Tree.empty : Tree K V := .node fun _ => none

/-- What is at a path. -/
def get : List K → Tree K V → Option (Tree K V)
  | [], t => some t
  | _::_, .leaf _ => none
  | k::ks, .node m => (m k).bind (get ks)

theorem get_leaf {k : K} {ks : List K} {v : V} : get (k::ks) (.leaf v) = none := rfl

theorem get_node {k : K} {ks : List K} {m : K → Option (Tree K V)} :
    get (k::ks) (.node m) = (m k).bind (get ks) := rfl

theorem get_child {k : K} {ks : List K} {m : K → Option (Tree K V)} (h : ks ≠ []) :
    get (k::ks) (.node m) = get ks ((m k).getD .empty) := by
  rw [get_node]
  cases m k with
  | some t => rfl
  | none =>
    obtain ⟨j,js,rfl⟩ := List.exists_cons_of_ne_nil h
    rfl

theorem get_append (p : List K) : ∀ (q : List K) (t : Tree K V),
    get (p++q) t = (get p t).bind (get q) := by
  induction p with
  | nil => exact fun _ _ => rfl
  | cons k p ih =>
    intro q t
    cases t with
    | leaf v => rfl
    | node m =>
      rw [List.cons_append,get_node,get_node,Option.bind_assoc]
      exact Option.bind_congr fun t _ => ih q t

/-- Nothing is behind a value. -/
theorem get_behind {p q : List K} {t : Tree K V} {v : V} (hp : get p t = some (.leaf v))
    (hpq : p <+: q) (hne : p ≠ q) : get q t = none := by
  obtain ⟨r,rfl⟩ := hpq
  cases r with
  | nil => exact absurd (List.append_nil p).symm hne
  | cons k r => rw [get_append,hp,Option.bind_some,get_leaf]

variable [DecidableEq K]

/-- Put a value at a path; none where the path leads through a value. -/
def assign (v : V) : List K → Tree K V → Option (Tree K V)
  | [], _ => some (.leaf v)
  | _::_, .leaf _ => none
  | k::ks, .node m => (assign v ks ((m k).getD .empty)).map fun t =>
      .node (Function.update m k (some t))

/-! ### One assignment -/

section Assign
variable {v : V} {k : K} {ks p q : List K} {m : K → Option (Tree K V)} {t t' : Tree K V}

theorem assign_node (h : assign v (k::ks) (.node m) = some t') : ∃ t,
    assign v ks ((m k).getD .empty) = some t ∧ t' = .node (Function.update m k (some t)) := by
  obtain ⟨t,ht,heq⟩ := Option.map_eq_some_iff.mp h
  exact ⟨t,ht,heq.symm⟩

theorem get_update_self (t : Tree K V) :
    get (k::ks) (.node (Function.update m k (some t))) = get ks t := by
  rw [get_node,Function.update_self,Option.bind_some]

theorem get_update_other {j : K} (h : j ≠ k) (t : Tree K V) :
    get (j::ks) (.node (Function.update m k (some t))) = get (j::ks) (.node m) := by
  rw [get_node,get_node,Function.update_of_ne h]

/-- The value is at its path. -/
theorem get_assign (p : List K) : ∀ {t t' : Tree K V}, assign v p t = some t' →
    get p t' = some (.leaf v) := by
  induction p with
  | nil =>
    intro t t' h
    cases h
    rfl
  | cons k p ih =>
    intro t t' h
    cases t with
    | leaf w => cases h
    | node m =>
      obtain ⟨t,ht,rfl⟩ := assign_node h
      rw [get_update_self]
      exact ih ht

/-- On the way to it there are maps. -/
theorem get_assign_above (q : List K) : ∀ {p : List K} {t t' : Tree K V},
    assign v p t = some t' → q <+: p → q ≠ p → ∃ m, get q t' = some (.node m) := by
  induction q with
  | nil =>
    intro p t t' h _ hne
    obtain ⟨k,p,rfl⟩ := List.exists_cons_of_ne_nil hne.symm
    cases t with
    | leaf w => cases h
    | node m =>
      obtain ⟨t,-,rfl⟩ := assign_node h
      exact ⟨_,rfl⟩
  | cons k q ih =>
    intro p t t' h hqp hne
    obtain ⟨r,rfl⟩ := hqp
    cases t with
    | leaf w => cases h
    | node m =>
      obtain ⟨t,ht,rfl⟩ := assign_node h
      rw [get_update_self]
      exact ih ht ⟨r,rfl⟩ fun heq => hne (congrArg (k::·) heq)

/-- Beside it nothing changes. -/
theorem get_assign_beside (q : List K) : ∀ {p : List K} {t t' : Tree K V},
    assign v p t = some t' → ¬q <+: p → ¬p <+: q → get q t' = get q t := by
  induction q with
  | nil => exact fun _ h => absurd List.nil_prefix h
  | cons j q ih =>
    intro p t t' h hqp hpq
    cases p with
    | nil => exact absurd List.nil_prefix hpq
    | cons k p =>
      cases t with
      | leaf w => cases h
      | node m =>
        obtain ⟨t,ht,rfl⟩ := assign_node h
        by_cases hjk : j = k
        · subst j
          rw [List.prefix_cons_inj] at hqp hpq
          have hne : q ≠ [] := by
            rintro rfl
            exact hqp List.nil_prefix
          rw [get_update_self,ih ht hqp hpq,get_child hne]
        · exact get_update_other hjk t

/-- It only fails at a value. -/
theorem exists_assign (p : List K) : ∀ {t : Tree K V},
    (∀ q w, q <+: p → q ≠ p → get q t ≠ some (.leaf w)) → ∃ t', assign v p t = some t' := by
  induction p with
  | nil => exact fun _ => ⟨_,rfl⟩
  | cons k p ih =>
    intro t h
    cases t with
    | leaf w => exact absurd rfl (h [] w List.nil_prefix (List.cons_ne_nil _ _).symm)
    | node m =>
      have hchild : ∀ q w, q <+: p → q ≠ p → get q ((m k).getD .empty) ≠ some (.leaf w) := by
        intro q w hq hne hget
        have hkq : k::q ≠ k::p := fun heq => hne (List.cons.inj heq).2
        refine h (k::q) w ((List.prefix_cons_inj k).mpr hq) hkq ?_
        rw [get_node]
        cases hk : m k with
        | some t =>
          rw [hk] at hget
          exact hget
        | none =>
          rw [hk] at hget
          cases q with
          | nil => cases hget
          | cons j q => cases hget
      obtain ⟨t,ht⟩ := ih hchild
      exact ⟨_,Option.map_eq_some_iff.mpr ⟨t,ht,rfl⟩⟩

theorem not_leaf_of_assign (q : List K) : ∀ {p : List K} {t t' : Tree K V},
    assign v p t = some t' → q <+: p → q ≠ p → ∀ w, get q t ≠ some (.leaf w) := by
  induction q with
  | nil =>
    intro p t t' h _ hne w hget
    obtain ⟨k,p,rfl⟩ := List.exists_cons_of_ne_nil hne.symm
    cases hget
    cases h
  | cons k q ih =>
    intro p t t' h hqp hne w hget
    obtain ⟨r,rfl⟩ := hqp
    cases t with
    | leaf u => cases h
    | node m =>
      obtain ⟨t,ht,-⟩ := assign_node h
      obtain ⟨child,hk,hchild⟩ := Option.bind_eq_some_iff.mp hget
      rw [hk] at ht
      exact ih ht ⟨r,rfl⟩ (fun heq => hne (congrArg (k::·) heq)) w hchild

end Assign

/-! ### Values in the way -/

/-- There is a value at the path or above it. -/
def Blocked (p : List K) (t : Tree K V) : Prop := ∃ q v, q <+: p ∧ get q t = some (.leaf v)

section Blocked
variable {v : V} {p q : List K} {t t' : Tree K V}

theorem blocked_assign (h : assign v p t = some t') : Blocked p t' :=
  ⟨p,v,List.prefix_rfl,get_assign p h⟩

/-- A path that is blocked stays so. -/
theorem Blocked.assign (hb : Blocked q t) (h : assign v p t = some t') : Blocked q t' := by
  obtain ⟨r,w,hr,hget⟩ := hb
  by_cases hpr : p <+: r
  · exact ⟨p,v,hpr.trans hr,get_assign p h⟩
  · by_cases hrp : r <+: p
    · have hne : r ≠ p := fun heq => hpr (heq ▸ List.prefix_rfl)
      exact absurd hget (not_leaf_of_assign r h hrp hne w)
    · exact ⟨r,w,hr,(get_assign_beside r h hrp hpr).trans hget⟩

omit [DecidableEq K] in
theorem Blocked.get_none (hb : Blocked p t) (hpq : p <+: q) (hne : p ≠ q) : get q t = none := by
  obtain ⟨r,w,hr,hget⟩ := hb
  refine get_behind hget (hr.trans hpq) ?_
  rintro rfl
  exact hne (hpq.eq_of_length_le hr.length_le)

end Blocked

/-! ### Assignments in a row -/

def assignAll (S : List (List K × V)) (t : Tree K V) : Option (Tree K V) :=
  S.foldlM (fun t e => assign e.2 e.1 t) t

/-- The last value for a path. -/
def last : List (List K × V) → List K → Option V
  | [], _ => none
  | e::S, p => (last S p).or (if e.1 = p then some e.2 else none)

theorem last_append (S T : List (List K × V)) (p : List K) :
    last (S++T) p = (last T p).or (last S p) := by
  induction S with
  | nil => exact Option.or_none.symm
  | cons e S ih => rw [List.cons_append,last,last,ih,Option.or_assoc]

theorem last_single (p q : List K) (v : V) : last [(p,v)] q = if p = q then some v else none :=
  Option.none_or

theorem mem_of_last {S : List (List K × V)} {p : List K} {v : V} (h : last S p = some v) :
    (p,v) ∈ S := by
  induction S with
  | nil => cases h
  | cons e S ih =>
    rcases Option.or_eq_some_iff.mp h with h | ⟨-,h⟩
    · exact List.mem_cons_of_mem _ (ih h)
    · split_ifs at h with he
      cases h
      rw [← he]
      exact List.mem_cons_self

theorem exists_last {S : List (List K × V)} {p : List K} {v : V} (h : (p,v) ∈ S) :
    ∃ w, last S p = some w := by
  induction S with
  | nil => cases h
  | cons e S ih =>
    rw [last]
    cases hl : last S p with
    | some w => exact ⟨w,rfl⟩
    | none =>
      rcases List.mem_cons.mp h with rfl | h
      · exact ⟨v,if_pos rfl⟩
      · obtain ⟨w,hw⟩ := ih h
        cases hl.symm.trans hw

theorem assignAll_blocked (S : List (List K × V)) : ∀ {t t' : Tree K V}, assignAll S t = some t' →
    (∀ p, Blocked p t → Blocked p t') ∧ ∀ e ∈ S, Blocked e.1 t' := by
  induction S with
  | nil =>
    intro t t' h
    cases h
    exact ⟨fun _ h => h,by simp⟩
  | cons e S ih =>
    intro t t' h
    obtain ⟨t₁,ht₁,h⟩ := Option.bind_eq_some_iff.mp h
    obtain ⟨hold,hnew⟩ := ih h
    refine ⟨fun p hp => hold p (hp.assign ht₁),?_⟩
    intro f hf
    rcases List.mem_cons.mp hf with rfl | hf
    · exact hold _ (blocked_assign ht₁)
    · exact hnew f hf

/-- No path is a proper part of the way to another. -/
def Separate (S : List (List K × V)) : Prop := ∀ e ∈ S, ∀ f ∈ S, e.1 <+: f.1 → e.1 = f.1

/-- The tree has the last value at each path, maps on the way to it, and nothing else. -/
structure Layout (S : List (List K × V)) (t : Tree K V) : Prop where
  root : ∃ m, t = .node m
  values : ∀ p v, last S p = some v → get p t = some (.leaf v)
  above : ∀ e ∈ S, ∀ p, p <+: e.1 → p ≠ e.1 → ∃ m, get p t = some (.node m)
  only : ∀ p x, get p t = some x → p = [] ∨ ∃ e ∈ S, p <+: e.1

theorem layout_empty : Layout [] (.empty : Tree K V) where
  root := ⟨_,rfl⟩
  values := fun p v h => by cases h
  above := fun e h => by cases h
  only := by
    intro p x h
    cases p with
    | nil => exact .inl rfl
    | cons k p => cases h

/-- Another path does not meet a value. -/
theorem Layout.free {S : List (List K × V)} {t : Tree K V} {p : List K} (h : Layout S t)
    (hsep : ∀ e ∈ S, e.1 <+: p → e.1 = p) {q : List K} (hq : q <+: p) (hne : q ≠ p) (w : V) :
    get q t ≠ some (.leaf w) := by
  intro hget
  rcases h.only q _ hget with rfl | ⟨e,he,hqe⟩
  · obtain ⟨m,rfl⟩ := h.root
    cases hget
  · by_cases heq : q = e.1
    · exact hne (heq.trans (hsep e he (heq ▸ hq)))
    · obtain ⟨m,hm⟩ := h.above e he q hqe heq
      cases hm.symm.trans hget

theorem Layout.assign {S : List (List K × V)} {t : Tree K V} {p : List K} (h : Layout S t) (v : V)
    (hp : p ≠ []) (hsep : Separate (S++[(p,v)])) :
    ∃ t', assign v p t = some t' ∧ Layout (S++[(p,v)]) t' := by
  have hmem : (p,v) ∈ S++[(p,v)] := List.mem_append_right S List.mem_cons_self
  have hto : ∀ e ∈ S, e.1 <+: p → e.1 = p := fun e he => hsep e (List.mem_append_left _ he) _ hmem
  have hfrom : ∀ e ∈ S, p <+: e.1 → p = e.1 := fun e he => hsep _ hmem e (List.mem_append_left _ he)
  obtain ⟨t',ht'⟩ := exists_assign (v:=v) p fun q w hq hne => h.free hto hq hne w
  have habove : ∀ q, q <+: p → q ≠ p → ∃ m, get q t' = some (.node m) :=
    fun q hq hne => get_assign_above q ht' hq hne
  refine ⟨t',ht',?_,?_,?_,?_⟩
  · obtain ⟨m,hm⟩ := habove [] List.nil_prefix hp.symm
    exact ⟨m,Option.some.inj hm⟩
  · intro q w hlast
    rw [last_append,last_single] at hlast
    by_cases hpq : p = q
    · rw [if_pos hpq] at hlast
      cases hlast
      rw [← hpq]
      exact get_assign p ht'
    · rw [if_neg hpq,Option.none_or] at hlast
      have he := mem_of_last hlast
      rw [get_assign_beside q ht' (fun hqp => hpq (hto _ he hqp).symm) fun hle => hpq (hfrom _ he hle)]
      exact h.values q w hlast
  · intro e he q hqe hne
    rcases List.mem_append.mp he with he | he
    · by_cases hqp : q <+: p
      · exact habove q hqp fun heq => hne (heq.trans (hfrom e he (heq ▸ hqe)))
      · have hpq : ¬p <+: q := by
          intro hle
          have heq := hfrom e he (hle.trans hqe)
          exact hqp (heq ▸ hqe)
        rw [get_assign_beside q ht' hqp hpq]
        exact h.above e he q hqe hne
    · cases List.mem_singleton.mp he
      exact habove q hqe hne
  · intro q x hget
    by_cases hqp : q <+: p
    · exact .inr ⟨_,hmem,hqp⟩
    · have hpq : ¬p <+: q := by
        intro hle
        have hne : p ≠ q := fun heq => hqp (heq ▸ List.prefix_rfl)
        cases (get_behind (get_assign p ht') hle hne).symm.trans hget
      rw [get_assign_beside q ht' hqp hpq] at hget
      exact (h.only q x hget).imp id fun ⟨e,he,hle⟩ => ⟨e,List.mem_append_left _ he,hle⟩

theorem Layout.assignAll (T : List (List K × V)) : ∀ {S : List (List K × V)} {t : Tree K V},
    Layout S t → (∀ e ∈ T, e.1 ≠ []) → Separate (S++T) →
      ∃ t', assignAll T t = some t' ∧ Layout (S++T) t' := by
  induction T with
  | nil =>
    intro S t h _ _
    exact ⟨t,rfl,by rwa [List.append_nil]⟩
  | cons e T ih =>
    intro S t h hne hsep
    have hassoc : S++e::T = (S++[e])++T := by simp
    rw [hassoc] at hsep ⊢
    have hone : Separate (S++[e]) := fun f hf g hg =>
      hsep f (List.mem_append_left T hf) g (List.mem_append_left T hg)
    obtain ⟨t₁,ht₁,hlayout⟩ := h.assign e.2 (hne e List.mem_cons_self) hone
    obtain ⟨t',ht',hall⟩ := ih hlayout (fun f hf => hne f (List.mem_cons_of_mem e hf)) hsep
    exact ⟨t',Option.bind_eq_some_iff.mpr ⟨t₁,ht₁,ht'⟩,hall⟩

/-- Assignments along separate paths go through, and each path has its last value. -/
theorem assignAll_layout {S : List (List K × V)} (hne : ∀ e ∈ S, e.1 ≠ []) (hsep : Separate S) :
    ∃ t, assignAll S .empty = some t ∧ Layout S t :=
  layout_empty.assignAll S hne hsep

end NestedMap
end RecycleBin
