import RecycleBin.NgPlugins

/-! Finding the command of a directive. The place of the command among the commands of its
main name is returned as if it were the position of the main name. -/
namespace RecycleBin.NgPlugins

/-- The first of these commands that may stand in the context `t`, with its place. -/
def commandIn (s : Store) (t k : ℕ) : List ℕ → Except Panic (Option (Command × ℕ))
  | [] => .ok none
  | i::pos => do
    let commands ← index s s.plugins.commands k
    let cmd ← index s commands i
    if cmd.type &&& t = 0 then commandIn s t k pos else .ok (some (cmd,i))

/-- The loop of `getCommand` from main position `k` on. -/
def commandFrom (s : Store) (name : String) (t : ℕ) :
    ℕ → List (GoMap (List ℕ)) → Except Panic (Option Command × ℕ)
  | _, [] => .ok (none,0)
  | k, v::vs =>
    match v name with
    | none => commandFrom s name t (k+1) vs
    | some pos => do
      match ← commandIn s t k pos with
      | some (cmd,i) => .ok (some cmd,i)
      | none => commandFrom s name t (k+1) vs

def getCommand (s : Store) (name : String) (t : ℕ) : Except Panic (Option Command × ℕ) :=
  commandFrom s name t 0 s.plugins.commandsToPos

def getMainModules2 (s : Store) (pos : ℕ) : Except Panic (List (Option ℕ)) :=
  index s s.plugins.modules pos

/-- Command `i` of main position `k` has this name and may stand in the context. -/
def Matches (s : Store) (name : String) (t k i : ℕ) (cmd : Command) : Prop :=
  ∃ cs, s.plugins.commands[k]? = some cs ∧ cs[i]? = some cmd ∧ cmd.name = name ∧ cmd.type &&& t ≠ 0

/-- No command of an earlier main name or of an earlier registration matches. -/
structure First (s : Store) (name : String) (t k i : ℕ) (cmd : Command) : Prop where
  here : Matches s name t k i cmd
  main : ∀ k' < k, ∀ i' cmd', ¬Matches s name t k' i' cmd'
  place : ∀ i' < i, ∀ cmd', ¬Matches s name t k i' cmd'

/-- Module `a` of main position `k` declared the command. -/
def Declares (s : Store) (k a : ℕ) (cmd : Command) : Prop :=
  (∃ modules, s.plugins.modules[k]? = some modules ∧ modules[cmd.ctxIndex]? = some (some a)) ∧
    ∃ v ∈ (s.heap a).commands, cmd = { v with ctxIndex := cmd.ctxIndex }

/-- No command is returned iff none matches, and with the first command that matches comes the
position of a main name whose modules have, at the index of the command, the one that declared it. -/
structure Dispatches (s : Store) (name : String) (t : ℕ) : Prop where
  returns : ∃ r, getCommand s name t = .ok r
  none : (∃ pos, getCommand s name t = .ok (none,pos)) ↔ ∀ k i cmd, ¬Matches s name t k i cmd
  some : ∀ cmd pos, getCommand s name t = .ok (some cmd,pos) → ∃ k i a, First s name t k i cmd ∧
    Declares s k a cmd ∧ ∃ modules, getMainModules2 s pos = .ok modules ∧
      modules[cmd.ctxIndex]? = some (some a)

theorem index_eq_ok {α : Type} {s : Store} {xs : List α} {i : ℕ} {x : α} :
    index s xs i = .ok x ↔ xs[i]? = some x := by
  cases h : xs[i]? <;> simp [index,h]

variable {l : List ℕ} {s : Store} {name : String} {t k : ℕ}

theorem Matches.unique {i : ℕ} {cmd cmd' : Command} (h : Matches s name t k i cmd)
    (h' : Matches s name t k i cmd') : cmd = cmd' := by
  have ⟨cs,h1,h2,_⟩ := h
  have ⟨cs',h1',h2',_⟩ := h'
  rw [h1] at h1'
  cases h1'
  rw [h2] at h2'
  exact Option.some.inj h2'

theorem First.unique {i k' i' : ℕ} {cmd cmd' : Command} (h : First s name t k i cmd)
    (h' : First s name t k' i' cmd') : k = k' ∧ i = i' ∧ cmd = cmd' := by
  have hk : k = k' := by
    by_contra hne
    cases Nat.lt_or_gt_of_ne hne with
    | inl hlt => exact h'.main k hlt i cmd h.here
    | inr hlt => exact h.main k' hlt i' cmd' h'.here
  subst hk
  have hi : i = i' := by
    by_contra hne
    cases Nat.lt_or_gt_of_ne hne with
    | inl hlt => exact h'.place i hlt cmd h.here
    | inr hlt => exact h.place i' hlt cmd' h'.here
  subst hi
  exact ⟨rfl,rfl,h.here.unique h'.here⟩

/-- The places of a name list the commands with that name. -/
theorem mem_places {cs : List Command} {i : ℕ} :
    i ∈ places cs name ↔ ∃ cmd, cs[i]? = some cmd ∧ cmd.name = name := by
  simp only [places,List.mem_filter,List.mem_range,Option.any_eq_true,decide_eq_true_eq]
  constructor
  · exact fun h => h.2
  · rintro ⟨cmd,h1,h2⟩
    exact ⟨(List.getElem?_eq_some_iff.mp h1).1,cmd,h1,h2⟩

theorem sorted_places (cs : List Command) (name : String) : (places cs name).Pairwise (· < ·) :=
  List.pairwise_lt_range.filter _

/-- Among ascending places of commands with the name, the first that matches is found. -/
theorem commandIn_spec {cs : List Command} (hk : s.plugins.commands[k]? = some cs) {pos : List ℕ}
    (hpos : ∀ i ∈ pos, ∃ cmd, cs[i]? = some cmd ∧ cmd.name = name) (hs : pos.Pairwise (· < ·)) :
    (commandIn s t k pos = .ok none ∧ ∀ i ∈ pos, ∀ cmd, ¬Matches s name t k i cmd) ∨
      ∃ cmd i, commandIn s t k pos = .ok (some (cmd,i)) ∧ Matches s name t k i cmd ∧
        ∀ i' ∈ pos, i' < i → ∀ cmd', ¬Matches s name t k i' cmd' := by
  induction pos with
  | nil => exact .inl ⟨rfl,by simp⟩
  | cons i pos ih =>
    have ⟨cmd,hi,hname⟩ := hpos i (by simp)
    have h1 : index s s.plugins.commands k = .ok cs := index_eq_ok.mpr hk
    have h2 : index s cs i = .ok cmd := index_eq_ok.mpr hi
    have hlt := (List.pairwise_cons.mp hs).1
    by_cases ht : cmd.type &&& t = 0
    · have hno : ∀ cmd', ¬Matches s name t k i cmd' := by
        intro cmd' ⟨cs',h1',h2',_,ht'⟩
        rw [hk] at h1'
        cases h1'
        rw [hi] at h2'
        cases h2'
        exact ht' ht
      simp only [commandIn,h1,h2,ok_bind,ht,if_true]
      cases ih (fun i hi => hpos i (by simp [hi])) (List.pairwise_cons.mp hs).2 with
      | inl hnone =>
        refine .inl ⟨hnone.1,?_⟩
        intro j hj
        cases List.mem_cons.mp hj with
        | inl he => exact he ▸ hno
        | inr hj => exact hnone.2 j hj
      | inr hsome =>
        have ⟨c,j,hc,hm,hfirst⟩ := hsome
        refine .inr ⟨c,j,hc,hm,?_⟩
        intro i' hi' hlt'
        cases List.mem_cons.mp hi' with
        | inl he => exact he ▸ hno
        | inr hi' => exact hfirst i' hi' hlt'
    · refine .inr ⟨cmd,i,by simp only [commandIn,h1,h2,ok_bind,ht,if_false],⟨cs,hk,hi,hname,ht⟩,?_⟩
      intro i' hi' hlt'
      cases List.mem_cons.mp hi' with
      | inl he => omega
      | inr hi' =>
        have := hlt i' hi'
        omega

/-- The commands of main position `k` and their places. -/
theorem Invariant.at (h : Invariant l s) (hk : k < s.plugins.modules.length) :
    ∃ mainName cs map, s.plugins.mainModulesToPos mainName = some k ∧
      s.plugins.modules[k]? = some ((ofMain s.heap l mainName).map some) ∧
      s.plugins.commands[k]? = some cs ∧ s.plugins.commandsToPos[k]? = some map ∧
      Entry s.heap mainName (ofMain s.heap l mainName) cs map := by
  have ⟨mainName,hm⟩ := h.named k hk
  have ⟨cs,map,h1,h2,h3,hentry⟩ := h.entry mainName k trivial hm
  exact ⟨mainName,cs,map,hm,h1,h2,h3,hentry⟩

/-- The loop from position `k` on returns the first command there that matches. -/
theorem commandFrom_spec (h : Invariant l s) {vs : List (GoMap (List ℕ))}
    (hvs : s.plugins.commandsToPos.drop k = vs)
    (hbefore : ∀ k' < k, ∀ i cmd, ¬Matches s name t k' i cmd) :
    (commandFrom s name t k vs = .ok (none,0) ∧ ∀ k' i cmd, ¬Matches s name t k' i cmd) ∨
      ∃ k' i cmd, commandFrom s name t k vs = .ok (some cmd,i) ∧ First s name t k' i cmd := by
  induction vs generalizing k with
  | nil =>
    refine .inl ⟨rfl,?_⟩
    intro k' i cmd hm
    have hlen : s.plugins.commandsToPos.length ≤ k := List.drop_eq_nil_iff.mp hvs
    have ⟨cs,hk',_⟩ := hm
    have hlt := (List.getElem?_eq_some_iff.mp hk').1
    have := h.commands
    have := h.toPos
    exact hbefore k' (by omega) i cmd hm
  | cons v vs ih =>
    have hv : s.plugins.commandsToPos[k]? = some v := by
      have := congrArg List.head? hvs
      simpa using this
    have hlt : k < s.plugins.modules.length := h.toPos ▸ (List.getElem?_eq_some_iff.mp hv).1
    have ⟨mainName,cs,map,_,_,hcs,hmap,hentry⟩ := h.at hlt
    rw [hv] at hmap
    cases hmap
    have hrest : s.plugins.commandsToPos.drop (k+1) = vs := by
      have := congrArg List.tail hvs
      simpa using this
    -- the search in this main name
    have hnext : (∀ i cmd, ¬Matches s name t k i cmd) →
        ∀ k' < k+1, ∀ i cmd, ¬Matches s name t k' i cmd := by
      intro hno k' hk' i cmd hm
      by_cases he : k' = k
      · exact hno i cmd (he ▸ hm)
      · exact hbefore k' (by omega) i cmd hm
    have hplace : ∀ i cmd, Matches s name t k i cmd → i ∈ places cs name := by
      intro i cmd ⟨cs',h1,h2,h3,_⟩
      rw [hcs] at h1
      cases h1
      exact mem_places.mpr ⟨cmd,h2,h3⟩
    by_cases hnil : places cs name = []
    · have hvn : v name = none := by rw [hentry.toPos,if_pos hnil]
      have hno : ∀ i cmd, ¬Matches s name t k i cmd := by
        intro i cmd hm
        have := hplace i cmd hm
        simp [hnil] at this
      simp only [commandFrom,hvn]
      exact ih hrest (hnext hno)
    · have hvn : v name = some (places cs name) := by rw [hentry.toPos,if_neg hnil]
      cases commandIn_spec (t := t) hcs (fun i hi => mem_places.mp hi) (sorted_places cs name) with
      | inl hnone =>
        simp only [commandFrom,hvn,hnone.1,ok_bind]
        exact ih hrest (hnext fun i cmd hm => hnone.2 i (hplace i cmd hm) cmd hm)
      | inr hsome =>
        have ⟨cmd,i,hc,hm,hfirst⟩ := hsome
        refine .inr ⟨k,i,cmd,by simp only [commandFrom,hvn,hc,ok_bind],hm,hbefore,?_⟩
        intro i' hi' cmd' hm'
        exact hfirst i' (hplace i' cmd' hm') hi' cmd' hm'

theorem getCommand_spec (h : Invariant l s) (name : String) (t : ℕ) :
    (getCommand s name t = .ok (none,0) ∧ ∀ k i cmd, ¬Matches s name t k i cmd) ∨
      ∃ k i cmd, getCommand s name t = .ok (some cmd,i) ∧ First s name t k i cmd :=
  commandFrom_spec h rfl (by simp)

/-- Every command was declared by a module of its main name. -/
theorem Matches.declared (h : Invariant l s) {i : ℕ} {cmd : Command}
    (hm : Matches s name t k i cmd) : ∃ a, Declares s k a cmd := by
  have ⟨cs,h1,h2,_⟩ := hm
  have hlt : k < s.plugins.modules.length := h.commands ▸ (List.getElem?_eq_some_iff.mp h1).1
  have ⟨mainName,cs',map,_,hmods,hcs,_,hentry⟩ := h.at hlt
  rw [h1] at hcs
  cases hcs
  have hmem := List.mem_of_getElem? h2
  rw [hentry.commands] at hmem
  simp only [NgPlugins.declared,List.mem_flatten,List.mem_mapIdx] at hmem
  obtain ⟨vs,⟨j,hj,hvs⟩,hmem⟩ := hmem
  rw [← hvs,List.mem_map] at hmem
  obtain ⟨v,hv,he⟩ := hmem
  refine ⟨(ofMain s.heap l mainName)[j],⟨_,hmods,?_⟩,v,hv,?_⟩
  · rw [← he]
    simp [hj]
  · rw [← he]

/-- The modules of different main positions are different. -/
theorem Declares.pos_eq (h : Invariant l s) {a pos : ℕ} {cmd : Command} (hd : Declares s k a cmd)
    {modules : List (Option ℕ)} (hpos : s.plugins.modules[pos]? = some modules)
    (ha : modules[cmd.ctxIndex]? = some (some a)) : pos = k := by
  have ⟨⟨modules',hk,ha'⟩,_⟩ := hd
  have ⟨name₁,_,_,hn₁,hm₁,_,_,he₁⟩ := h.at (List.getElem?_eq_some_iff.mp hpos).1
  have ⟨name₂,_,_,hn₂,hm₂,_,_,he₂⟩ := h.at (List.getElem?_eq_some_iff.mp hk).1
  rw [hpos] at hm₁
  cases hm₁
  rw [hk] at hm₂
  cases hm₂
  have hmem₁ : a ∈ ofMain s.heap l name₁ := by simpa using List.mem_of_getElem? ha
  have hmem₂ : a ∈ ofMain s.heap l name₂ := by simpa using List.mem_of_getElem? ha'
  have hname : name₁ = name₂ := (he₁.main a hmem₁).symm.trans (he₂.main a hmem₂)
  rw [hname,hn₂] at hn₁
  exact (Option.some.inj hn₁).symm

theorem dispatches_of_first (h : Invariant l s)
    (hf : ∀ k i cmd, First s name t k i cmd → i = k) : Dispatches s name t := by
  cases getCommand_spec h name t with
  | inl hnone =>
    refine ⟨⟨_,hnone.1⟩,⟨fun _ => hnone.2,fun _ => ⟨0,hnone.1⟩⟩,?_⟩
    intro cmd pos hget
    rw [hnone.1] at hget
    cases hget
  | inr hsome =>
    have ⟨k,i,cmd,hc,hfirst⟩ := hsome
    refine ⟨⟨_,hc⟩,⟨?_,fun hno => (hno k i cmd hfirst.here).elim⟩,?_⟩
    · intro ⟨pos,hget⟩
      rw [hc] at hget
      cases hget
    · intro cmd' pos hget
      rw [hc] at hget
      cases hget
      have ⟨a,hd⟩ := hfirst.here.declared h
      have ⟨modules,hk,ha⟩ := hd.1
      exact ⟨k,i,a,hfirst,hd,modules,index_eq_ok.mpr (hf k i cmd hfirst ▸ hk),ha⟩

theorem Dispatches.place_eq (h : Invariant l s) (hd : Dispatches s name t) {i : ℕ} {cmd : Command}
    (hfirst : First s name t k i cmd) : i = k := by
  cases getCommand_spec h name t with
  | inl hnone => exact (hnone.2 k i cmd hfirst.here).elim
  | inr hsome =>
    have ⟨k₁,i₁,cmd₁,hc,hfirst₁⟩ := hsome
    have ⟨hk,hi,_⟩ := hfirst.unique hfirst₁
    have ⟨k₂,i₂,a,hfirst₂,hdecl,modules,hmods,ha⟩ := hd.some cmd₁ i₁ hc
    have ⟨hk',_,_⟩ := hfirst.unique hfirst₂
    rw [hi,hk']
    exact hdecl.pos_eq h (index_eq_ok.mp hmods) ha

/-- Directives are dispatched to the modules that declared them exactly when the place of the
first command that matches is the position of its main name. -/
theorem dispatches_iff (heap : ℕ → Module) (ms : List (Option ℕ)) (name : String) (t : ℕ) :
    Dispatches (registerAll ms (start heap)) name t ↔
      ∀ k i cmd, First (registerAll ms (start heap)) name t k i cmd → i = k := by
  have h := invariant_registerAll (invariant_start heap) ms
  constructor
  · intro hd k i cmd hfirst
    exact hd.place_eq h hfirst
  · exact dispatches_of_first h

/-- A module with two commands, the first to be registered. -/
def twoCommands : ℕ → Module := fun _ =>
  { name := "core", commands := [{ name := "listen", type := 1 },{ name := "server", type := 1 }],
    type := 1, mainName := "stream" }

/-- The position that comes with the second command is that of no main name. -/
theorem not_dispatches_second :
    ¬∀ heap ms name t, Dispatches (registerAll ms (start heap)) name t := by
  intro h
  have hcs : (registerAll [some 0] (start twoCommands)).plugins.commands[0]? =
      some [{ name := "listen", type := 1 },{ name := "server", type := 1 }] := rfl
  have hfirst : First (registerAll [some 0] (start twoCommands)) "server" 1 0 1
      { name := "server", type := 1 } := by
    refine ⟨⟨_,hcs,rfl,rfl,by decide⟩,by simp,?_⟩
    intro i hi cmd ⟨cs,h1,h2,h3,_⟩
    have hi0 : i = 0 := by omega
    subst hi0
    rw [hcs] at h1
    cases h1
    cases h2
    exact absurd h3 (by decide)
  have hinv := invariant_registerAll (invariant_start twoCommands) [some 0]
  have := (h twoCommands [some 0] "server" 1).place_eq hinv hfirst
  omega

end RecycleBin.NgPlugins
