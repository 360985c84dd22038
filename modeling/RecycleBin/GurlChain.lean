import RecycleBin.GurlSend

/-! What the steps of a chain see under the names of the response before. The first response
that is taken over into the map of a loop stays in it. -/
namespace RecycleBin
namespace GurlSend
open GurlText GurlConf

/-- The response of the step before, under both names. -/
def View.Right (v : View) : Prop :=
  ∀ r ∈ v.scope.reply, ∀ x : Name, v.visible x.key = some (.str (r.value x))

/-- Each step behind the first sees the response of the step before in its iteration. -/
def Right (views : List View) : Prop := ∀ v ∈ views, v.Right

/-- What a view merges into the map of the loop. -/
def View.merged (v : View) : Option Reply := if v.scope.merges then v.scope.inherited else none

/-- The reply that is in the map of the loop: the first that has been merged. -/
def taken (views : List View) : Option Reply := views.findSome? View.merged

/-- The reply a step sees behind others. -/
def held (pre : List View) (v : View) : Option Reply := (taken pre).or v.scope.inherited

/-- A variable of the configuration: a global one, one of the loop or a parameter. -/
def View.named (v : View) (s : Bytes) : Option Any := (v.root s).or (v.scope.vars.lookup s)

/-- The responses that a further step follows are all like the first that has been taken over,
and so are the variables of the configuration under their names. -/
def Steady (views : List View) : Prop :=
  ∀ pre v, pre++[v] <+: views → ∀ r ∈ v.scope.reply, ∀ x : Name,
    (∀ a ∈ v.named x.key, a = .str (r.value x)) ∧
      (v.named x.key = none → ∃ r' ∈ held pre v, r'.value x = r.value x)

/-! ### Maps -/

theorem lookup_union (m m' : SaveVar) (x : Bytes) :
    (m ∪ m').lookup x = (m.lookup x).or (m'.lookup x) := by
  cases h : m.lookup x with
  | none =>
    rw [AList.lookup_union_right (AList.lookup_eq_none.mp h)]
    rfl
  | some a =>
    have hmem : x ∈ m := AList.lookup_isSome.mp (by rw [h]; rfl)
    rw [AList.lookup_union_left hmem,h]
    rfl

theorem lookup_insert (m : SaveVar) (k x : Bytes) (a : Any) :
    (m.insert k a).lookup x = if x = k then some a else m.lookup x := by
  by_cases h : x = k
  · subst h
    rw [AList.lookup_insert,if_pos rfl]
  · rw [AList.lookup_insert_ne h,if_neg h]

/-- A value of a reply as an expander's value. -/
def replyValue (r : Option Reply) (x : Name) : Option Any := r.map fun r => .str (r.value x)

theorem lookup_savedVars (r : Option Reply) (x : Name) :
    (savedVars r).lookup x.key = replyValue r x := by
  cases r with
  | none => rfl
  | some r =>
    show ((((∅ : SaveVar).insert _ _).insert _ _).lookup _) = _
    rw [lookup_insert,lookup_insert]
    cases x with
    | body => rw [if_neg (by decide),if_pos rfl]; rfl
    | code => rw [if_pos rfl]; rfl

theorem lookup_curVal (r : Reply) (x : Name) : r.curVal.lookup x.key = none := by
  rw [Reply.curVal,lookup_insert,lookup_insert]
  cases x with
  | body => rw [if_neg (by decide),if_neg (by decide)]; rfl
  | code => rw [if_neg (by decide),if_neg (by decide)]; rfl

theorem replyValue_or (r r' : Option Reply) (x : Name) :
    replyValue (r.or r') x = (replyValue r x).or (replyValue r' x) := by
  cases r <;> rfl

/-! ### What is in a map -/

theorem taken_append (views : List View) (v : View) :
    taken (views++[v]) = (taken views).or v.merged := by
  rw [taken,List.findSome?_append]
  cases h : v.merged <;> simp [taken,h]

/-- Under the two names a map has the variables of the loop, and else a reply. -/
def Holds (m vars : SaveVar) (r : Option Reply) : Prop :=
  ∀ x : Name, m.lookup x.key = (vars.lookup x.key).or (replyValue r x)

theorem Holds.insert {m vars : SaveVar} {r : Option Reply} (h : Holds m vars r) (k : Bytes)
    (a : Any) : Holds (m.insert k a) (vars.insert k a) r := by
  intro x
  rw [lookup_insert,lookup_insert]
  split
  · rfl
  · exact h x

theorem Holds.union {m vars : SaveVar} {r : Option Reply} (h : Holds m vars r) (r' : Option Reply) :
    Holds (m ∪ savedVars r') vars (r.or r') := by
  intro x
  rw [lookup_union,h x,lookup_savedVars,replyValue_or,Option.or_assoc]

theorem Holds.union_curVal {m vars : SaveVar} {r : Option Reply} (h : Holds m vars r)
    (r' : Option Reply) (own : Reply) : Holds (m ∪ (savedVars r' ∪ own.curVal)) vars (r.or r') := by
  intro x
  rw [lookup_union,lookup_union,lookup_curVal,Option.or_none,← lookup_union]
  exact h.union r' x

/-- The variables of a loop are in its map already. -/
theorem holds_self (m : SaveVar) : Holds m m none := fun _ => Option.or_none.symm

/-! ### What has been seen -/

/-- Each view has the variables of the loop, and else the reply that is held. -/
def Told (views : List View) : Prop :=
  ∀ pre v, pre++[v] <+: views → Holds v.scope.map v.scope.vars (held pre v)

theorem told_nil : Told [] := by
  intro pre v h
  exact absurd (List.prefix_nil.mp h) (by simp)

theorem Told.append {views : List View} {v : View} (h : Told views)
    (hv : Holds v.scope.map v.scope.vars (held views v)) : Told (views++[v]) := by
  intro pre w hpre
  rcases List.prefix_concat_iff.mp hpre with heq | hpre
  · obtain ⟨rfl,hw⟩ := List.append_inj' heq rfl
    cases hw
    exact hv
  · exact h pre w hpre

theorem visible_eq {pre : List View} {v : View} (h : Holds v.scope.map v.scope.vars (held pre v))
    (x : Name) : v.visible x.key = (v.named x.key).or (replyValue (held pre v) x) := by
  rw [View.visible,h x,View.named,Option.or_assoc]

/-- A value that is of the configuration, or of a reply. -/
theorem or_replyValue_eq {a : Option Any} {r' : Option Reply} {r : Reply} {x : Name} :
    a.or (replyValue r' x) = some (.str (r.value x)) ↔
      (∀ b ∈ a, b = .str (r.value x)) ∧ (a = none → ∃ r'' ∈ r', r''.value x = r.value x) := by
  cases a with
  | some b => simp
  | none => cases r' <;> simp [replyValue]

/-- What is seen is the response of the step before exactly if the responses are alike. -/
theorem right_iff_steady {views : List View} (h : Told views) : Right views ↔ Steady views := by
  have hview : ∀ pre v, pre++[v] <+: views → ∀ (r : Reply) (x : Name), v.visible x.key = some (.str (r.value x)) ↔
      (∀ a ∈ v.named x.key, a = .str (r.value x)) ∧
        (v.named x.key = none → ∃ r' ∈ held pre v, r'.value x = r.value x) := by
    intro pre v hpre r x
    rw [visible_eq (h pre v hpre) x,or_replyValue_eq]
  constructor
  · intro hr pre v hpre r hreply x
    have hmem : v ∈ views := hpre.subset (by simp)
    exact (hview pre v hpre r x).mp (hr v hmem r hreply x)
  · intro hs v hmem r hreply x
    obtain ⟨pre,post,rfl⟩ := List.append_of_mem hmem
    have hpre : pre++[v] <+: pre++v::post := ⟨post,by simp⟩
    exact (hview pre v hpre r x).mpr (hs pre v hpre r hreply x)

/-! ### Runs -/

section Runs
variable {ω : Type} {α β : Type} {P Q : List View → Prop}

/-- Where the views are told and satisfy `P`, they are told behind the run, and satisfy `Q` where
it returns. -/
def Triple (P : List View → Prop) (m : Run ω α) (Q : α → List View → Prop) : Prop :=
  ∀ s : Sys ω, Told s.views → P s.views →
    Told (m s).2.views ∧ ∀ a, (m s).1 = .ok a → Q a (m s).2.views

namespace Triple

theorem pure {a : α} {Q : α → List View → Prop} (h : ∀ vs, P vs → Q a vs) :
    Triple (ω := ω) P (Pure.pure a) Q := by
  intro s ht hp
  refine ⟨ht,?_⟩
  intro b hb
  cases hb
  exact h _ hp

theorem bind {m : Run ω α} {f : α → Run ω β} {R : α → List View → Prop} {Q : β → List View → Prop}
    (hm : Triple P m R) (hf : ∀ a, Triple (R a) (f a) Q) : Triple P (m >>= f) Q := by
  intro s ht hp
  obtain ⟨ht',hr⟩ := hm s ht hp
  have hrun : (m >>= f) s = ExceptT.bindCont f (m s).1 (m s).2 := rfl
  rw [hrun]
  cases h : (m s).1 with
  | ok a => exact hf a (m s).2 ht' (hr a h)
  | error e => exact ⟨ht',fun b hb => by cases hb⟩

/-- The store has no views in it. -/
theorem act (m : M (World ω) α) : Triple P (GurlSend.act m) fun _ => P := by
  intro s ht hp
  unfold GurlSend.act
  cases m s.store with
  | ok r => exact ⟨ht,fun _ _ => hp⟩
  | error e => exact ⟨ht,fun _ _ => hp⟩

theorem mono {m : Run ω α} {R : α → List View → Prop} {P' : List View → Prop}
    {Q : α → List View → Prop} (hm : Triple P m R) (hp : ∀ vs, P' vs → P vs)
    (hq : ∀ a vs, R a vs → Q a vs) : Triple P' m Q := by
  intro s ht h
  obtain ⟨ht',hr⟩ := hm s ht (hp _ h)
  exact ⟨ht',fun a ha => hq a _ (hr a ha)⟩

theorem note {sc : Scope} (hm : ∀ vs, P vs → Holds sc.map sc.vars ((taken vs).or sc.inherited))
    (hq : ∀ vs root, P vs → Q (vs++[⟨sc,root⟩])) : Triple (ω := ω) P (GurlSend.note sc) fun _ => Q := by
  intro s ht hp
  exact ⟨ht.append (hm _ hp),fun _ _ => hq _ _ hp⟩

end Triple

/-- The map of the loop has the reply that has been taken. -/
def Shared (m vars : SaveVar) (vs : List View) : Prop := Holds m vars (taken vs)

/-- What a scope needs before templates are expanded in it; it is merged into `m` if at all. -/
structure Ready (sc : Scope) (m : SaveVar) (vs : List View) : Prop where
  holds : Holds sc.map sc.vars ((taken vs).or sc.inherited)
  merges : sc.merges → m = sc.map
  shared : sc.merges = false → Shared m sc.vars vs

/-- A template is expanded. -/
theorem Ready.note {sc : Scope} {m : SaveVar} {vs : List View} (h : Ready sc m vs) (root : Parent) :
    Ready sc m (vs++[⟨sc,root⟩]) ∧ Shared m sc.vars (vs++[⟨sc,root⟩]) := by
  have htaken := taken_append vs ⟨sc,root⟩
  cases hm : sc.merges with
  | true =>
    have hmerged : (⟨sc,root⟩ : View).merged = sc.inherited := if_pos hm
    have hshared : Shared m sc.vars (vs++[⟨sc,root⟩]) := by
      rw [Shared,htaken,hmerged,h.merges hm]
      exact h.holds
    refine ⟨⟨?_,h.merges,fun _ => hshared⟩,hshared⟩
    rw [htaken,hmerged,Option.or_assoc,Option.or_self]
    exact h.holds
  | false =>
    have hmerged : (⟨sc,root⟩ : View).merged = none := if_neg (by rw [hm]; decide)
    rw [hmerged,Option.or_none] at htaken
    have hshared : Shared m sc.vars (vs++[⟨sc,root⟩]) := by
      rw [Shared,htaken]
      exact h.shared hm
    refine ⟨⟨?_,h.merges,fun _ => hshared⟩,hshared⟩
    rw [htaken]
    exact h.holds

theorem triple_note (sc : Scope) (m : SaveVar) :
    Triple (ω := ω) (Ready sc m) (note sc) fun _ vs => Ready sc m vs ∧ Shared m sc.vars vs :=
  Triple.note (fun _ h => h.holds) fun _ root h => h.note root

end Runs

/-! ### The code -/

section Code
variable {ω : Type} (c : Conf (World ω)) (d : ℕ) (client : Client ω)

theorem parseFields_triple (g : ℕ) (sc : Scope) (m : SaveVar) (ts : List (Bytes × ℕ)) :
    Triple (fun vs => Ready sc m vs ∧ Shared m sc.vars vs) (parseFields c d g sc ts)
      fun _ vs => Ready sc m vs ∧ Shared m sc.vars vs := by
  induction ts with
  | nil => exact .pure fun _ h => h
  | cons t ts ih =>
    refine .bind (R := fun _ vs => Ready sc m vs ∧ Shared m sc.vars vs) ?_ fun _ => ih
    refine .bind ?_ fun _ => .act _
    exact (triple_note sc m).mono (fun _ h => h.1) fun _ _ h => h

/-- An empty map has no reply in it. -/
theorem Shared.of_keys {m vars : SaveVar} {vs : List View} (h : Shared m vars vs) (hk : m.keys = [])
    (x : Name) : vars.lookup x.key = none ∧ replyValue (taken vs) x = none := by
  have hnone : m.lookup x.key = none := by
    refine AList.lookup_eq_none.mpr fun hmem => ?_
    have hkeys := AList.mem_keys.mp hmem
    rw [hk] at hkeys
    exact List.not_mem_nil hkeys
  exact Option.or_eq_none_iff.mp ((h x).symm.trans hnone)

/-- The scope of `BaseParse`. -/
theorem ready_baseParse {rangeMap vars : SaveVar} {vs : List View} (h : Shared rangeMap vars vs)
    (reply inherited : Option Reply) :
    Ready ⟨vars,reply,inherited,rangeMap.keys ≠ [],(mergeMaps rangeMap (savedVars inherited)).2⟩
      (mergeMaps rangeMap (savedVars inherited)).1 vs := by
  rw [mergeMaps]
  by_cases hk : rangeMap.keys ≠ []
  · rw [if_pos hk]
    refine ⟨h.union inherited,fun _ => rfl,fun hf => ?_⟩
    exact absurd (of_decide_eq_false hf) (not_not.mpr hk)
  · rw [if_neg hk]
    refine ⟨?_,fun ht => absurd (of_decide_eq_true ht) hk,fun _ => h⟩
    intro x
    obtain ⟨hvars,htaken⟩ := h.of_keys (not_not.mp hk) x
    rw [lookup_savedVars,replyValue_or,hvars,htaken]
    rfl

theorem baseParse_triple (g : ℕ) (vars : SaveVar) (reply : Option Reply) (rangeMap : SaveVar) :
    Triple (Shared rangeMap vars) (baseParse c d g vars reply rangeMap)
      fun m => Shared m vars := by
  refine .bind (.act _) fun b => .bind (.act _) fun inherited => .bind (.act _) fun _ => ?_
  refine .bind ((triple_note _ (mergeMaps rangeMap (savedVars inherited)).1).mono
    (fun vs h => ready_baseParse h reply inherited) fun _ _ h => h) fun _ => ?_
  refine .bind (.act _) fun _ => .bind (parseFields_triple c d g _ _ _) fun _ => ?_
  refine .bind (.act _) fun _ => ?_
  exact .pure fun _ h => h.2

theorem receive_triple (b : ℕ) (hasNext : Bool) (vars : SaveVar) (reply : Option Reply)
    (valMap : SaveVar) (rsp : Response) :
    Triple (Shared valMap vars) (receive c d client b hasNext vars reply valMap rsp)
      fun _ => Shared valMap vars := by
  refine .bind (.act _) fun g => ?_
  split
  · cases rsp.body with
    | none => exact .pure fun _ h => h
    | some body =>
      refine .bind (.act _) fun _ => .bind (.act _) fun inherited => ?_
      refine .bind ((triple_note _ valMap).mono ?_ fun _ _ h => h) fun _ => ?_
      · intro vs h
        refine ⟨h.union_curVal inherited _,?_,fun _ => h⟩
        rintro ⟨⟩
      · exact (Triple.act _).mono (fun _ h => h.2) fun _ _ h => h
  · exact .act _

theorem baseSend_triple (b : ℕ) (hasNext : Bool) (vars : SaveVar) (reply : Option Reply)
    (valMap : SaveVar) :
    Triple (Shared valMap vars) (baseSend c d client b hasNext vars reply valMap)
      fun _ => Shared valMap vars := by
  refine .bind (.act _) fun g => ?_
  split
  · exact .pure fun _ h => h
  · refine .bind (.act _) fun rsp => ?_
    cases rsp with
    | none => exact .pure fun _ h => h
    | some rsp =>
      exact .bind (receive_triple c d client b hasNext vars reply valMap rsp) fun _ => .pure fun _ h => h

theorem step_triple (b : ℕ) (hasNext : Bool) (vars : SaveVar) (reply : Option Reply)
    (valMap : SaveVar) :
    Triple (Shared valMap vars) (step c d client b hasNext vars reply valMap)
      fun r => Shared r.1 vars := by
  refine .bind (baseParse_triple c d b vars reply valMap) fun m => .bind (.act _) fun _ => ?_
  exact .bind (baseSend_triple c d client b hasNext vars reply m) fun _ => .pure fun _ h => h

theorem sendNext_triple (vars : SaveVar) (next : List ℕ) : ∀ (v2 : ℕ) (reply : Option Reply)
    (valMap : SaveVar), Triple (Shared valMap vars) (sendNext c d client vars v2 reply next valMap)
      fun m => Shared m vars := by
  induction next with
  | nil => exact fun _ _ _ => .pure fun _ h => h
  | cons n next ih =>
    intro v2 reply valMap
    refine .bind (.act _) fun _ => ?_
    exact .bind (step_triple c d client n _ vars reply valMap) fun r => ih n r.2 r.1

/-- A chain keeps the map of the loop. -/
theorem childInitSend_triple (b : ℕ) (next : List ℕ) (vars valMap : SaveVar) :
    Triple (Shared valMap vars) (childInitSend c d client b next vars valMap)
      fun m => Shared m vars :=
  .bind (step_triple c d client b _ vars none valMap) fun r =>
    sendNext_triple c d client vars next b r.2 r.1

theorem forRange_triple (fr : For) (sl : Slice) (is : List ℕ) : ∀ vars rangeMap : SaveVar,
    Triple (Shared rangeMap vars) (forRange c d client fr sl is vars rangeMap)
      fun r => Shared r.2 r.1 := by
  induction is with
  | nil => exact fun _ _ => .pure fun _ h => h
  | cons i is ih =>
    intro vars rangeMap
    refine .bind (.act _) fun v => ?_
    refine .bind ((childInitSend_triple c d client fr.base fr.next (setRange fr i v vars)
      (setRange fr i v rangeMap)).mono (fun _ h => (h.insert _ _).insert _ _) fun _ _ h => h) ?_
    exact fun m => .bind (.act _) fun _ => ih (setRange fr i v vars) m

/-- The iterations of a loop keep its map. -/
theorem runFor_triple (fr : For) (vars rangeMap : SaveVar) :
    Triple (Shared rangeMap vars) (runFor c d client fr vars rangeMap) fun r => Shared r.2 r.1 := by
  rw [runFor]
  split
  · exact .pure fun _ h => h
  · exact .bind (.act _) fun sl => forRange_triple c d client fr sl _ vars rangeMap

theorem gurlFunc_triple (f : Function) (callArgs : List Bytes) :
    Triple (fun vs => vs = []) (gurlFunc c d client f callArgs) fun _ _ => True := by
  rw [gurlFunc]
  split
  · exact fun s ht _ => ⟨ht,fun _ h => by cases h⟩
  · refine .bind (.act _) fun m => ?_
    refine .bind ((runFor_triple c d client f.loop m m).mono ?_ fun _ _ h => h) fun r => ?_
    · rintro _ rfl
      exact holds_self m
    · refine .bind (childInitSend_triple c d client f.base f.next r.1 r.2) fun _ => ?_
      exact fun s ht _ => ⟨ht,fun _ _ => trivial⟩

/-- What the steps see in a run is told. -/
theorem told_views (caller : Caller) (st : Store (World ω)) : Told (caller.views c d client st) := by
  cases caller with
  | loop fr =>
    have hrun : Triple (Shared ∅ ∅) ((Caller.loop fr).run c d client) fun _ _ => True :=
      .bind (runFor_triple c d client fr ∅ ∅) fun _ => .pure fun _ _ => trivial
    exact (hrun ⟨st,[]⟩ told_nil (holds_self ∅)).1
  | call f callArgs => exact (gurlFunc_triple c d client f callArgs ⟨st,[]⟩ told_nil rfl).1

end Code

/-- In every run of a loop or of a user function, each step behind the first sees the response of
the step before exactly if these responses are all alike. -/
theorem chain_right_iff {ω : Type} (c : Conf (World ω)) (d : ℕ) (client : Client ω)
    (caller : Caller) (st : Store (World ω)) :
    Right (caller.views c d client st) ↔ Steady (caller.views c d client st) :=
  right_iff_steady (told_views c d client caller st)

/-! ### A chain of three steps -/

/-- A step that only has a URL. -/
def plainBase (url : String) : Base where
  noSend := false
  set := []
  method := []
  j := []
  f := []
  h := []
  url := ascii url
  o := []
  jfa := []
  runF := []
  runH := []
  runUrl := []
  runO := []
  runJfa := []
  parent := none
  nextMap := none
  formCache := []
  body := []
  onIf := ⟨[],[],[]⟩
  onElse := ⟨[],[],[]⟩

/-- A server that answers with the URL. -/
def echo : Client Unit where
  memInit b := pure (b.body,[])
  multipart b := pure (some ⟨200,some b.runUrl⟩)
  bodyRequest b := pure (some ⟨200,some b.runUrl⟩)
  output _ _ _ := pure ()

def threeSteps : Store (World Unit) where
  rootMap _ := none
  heap _ := []
  fresh := 1
  world := (fun b => plainBase (if b = 0 then "one" else if b = 1 then "two" else "three"),())

/-- A loop that runs them once. -/
def onceLoop : Caller := .loop ⟨ascii "x",ascii "$i",ascii "$v",0,[1,2]⟩

/-- The third step sees what the first has got, where the second has got something else. -/
theorem third_sees_first : ¬Right (onceLoop.views ⟨fun _ => none,id⟩ 2 echo threeSteps) := by
  intro hright
  have hlast : (onceLoop.views ⟨fun _ => none,id⟩ 2 echo threeSteps).getLast?.map (fun v =>
      (v.scope.reply,v.visible Name.body.key)) =
        some (some ⟨ascii "two",200⟩,some (.str (ascii "one"))) := by
    decide +kernel
  obtain ⟨v,hv,hseen⟩ := Option.map_eq_some_iff.mp hlast
  obtain ⟨hreply,hbody⟩ := Prod.mk.inj hseen
  have h := hright v (List.mem_of_getLast? hv) _ hreply .body
  rw [hbody] at h
  exact absurd h (by decide)

end GurlSend
end RecycleBin
