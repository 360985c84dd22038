import RecycleBin.Refinement

/-! The registry of modules and their commands. A main name has a position, under which
four parallel tables hold the modules, the commands, and for each command name the places of
the commands with that name. Modules are registered by pointer and live in a heap. -/
namespace RecycleBin.NgPlugins

structure Command where
  name : String
  type : ℕ
  ctxIndex : ℕ := 0
  deriving DecidableEq,Repr

structure Module where
  ctxIndex : ℕ := 0
  name : String
  commands : List Command
  type : ℕ
  mainName : String
  deriving DecidableEq,Repr

/-- A Go map. -/
abbrev GoMap (α : Type) := String → Option α

structure Plugins where
  mainModulesToPos : GoMap ℕ
  /-- Pointers to modules, `none` for the nil pointer. -/
  modules : List (List (Option ℕ))
  commandsToPos : List (GoMap (List ℕ))
  commands : List (List Command)

structure Store where
  heap : ℕ → Module
  plugins : Plugins

/-- The text of a panic, and the state it leaves behind. -/
structure Panic where
  text : String
  left : Store

/-- Element `i` of a slice. -/
def index {α : Type} (s : Store) (xs : List α) (i : ℕ) : Except Panic α :=
  match xs[i]? with
  | some x => .ok x
  | none => .error ⟨"runtime error: index out of range",s⟩

/-- The local variables of `register`. -/
structure Local where
  mainPos : ℕ
  modules : List (Option ℕ)
  commands : List Command
  commandsToPos : GoMap (List ℕ)

/-- An empty place in each table for a new main name. -/
def Plugins.extend (p : Plugins) (mainName : String) : Plugins where
  mainModulesToPos := Function.update p.mainModulesToPos mainName (some p.modules.length)
  modules := p.modules++[[none,none,none]]
  commandsToPos := p.commandsToPos++[fun _ => none]
  commands := p.commands++[[]]

/-- The position of the main name. A new name gets the next position, and the local slices
stay empty. -/
def enter (m : Module) (s : Store) : Except Panic (Local × Store) :=
  match s.plugins.mainModulesToPos m.mainName with
  | none =>
    .ok (⟨s.plugins.modules.length,[],[],fun _ => none⟩,
      { s with plugins := s.plugins.extend m.mainName })
  | some pos => do
    let modules ← index s s.plugins.modules pos
    let commands ← index s s.plugins.commands pos
    let commandsToPos ← index s s.plugins.commandsToPos pos
    .ok (⟨pos,modules,commands,commandsToPos⟩,s)

/-- No registered module has the name and the type of the new one. -/
def checkModules (s : Store) (m : Module) : List (Option ℕ) → Except Panic Unit
  | [] => .ok ()
  | none::_ => .error ⟨"runtime error: nil pointer dereference",s⟩
  | some v::rest =>
    if (s.heap v).name = m.name ∧ (s.heap v).type = m.type then
      .error ⟨"core: Register called twice for modules "++m.name,s⟩
    else checkModules s m rest

/-- No registered command has the name and the type of a new one. -/
def checkCommands (s : Store) (m : Module) : List Command → Except Panic Unit
  | [] => .ok ()
  | v1::rest =>
    if ∃ v2 ∈ m.commands, v1.name = v2.name ∧ v1.type = v2.type then
      .error ⟨"core: Register called twice for commands "++v1.name,s⟩
    else checkCommands s m rest

/-- Append the commands, each with the index of its module, and record their places. -/
def addCommands (ctxIndex : ℕ) :
    List Command → List Command × GoMap (List ℕ) → List Command × GoMap (List ℕ)
  | [], r => r
  | v::vs, (commands,commandsToPos) =>
    let commands := commands++[{ v with ctxIndex := ctxIndex }]
    addCommands ctxIndex vs (commands,Function.update commandsToPos v.name
      (some ((commandsToPos v.name).getD []++[commands.length-1])))

/-- The tables with the entry at one position replaced. -/
def Plugins.write (p : Plugins) (l : Local) : Plugins :=
  { p with
    modules := p.modules.set l.mainPos l.modules
    commandsToPos := p.commandsToPos.set l.mainPos l.commandsToPos
    commands := p.commands.set l.mainPos l.commands }

def register (m : Option ℕ) (s : Store) : Except Panic Store :=
  match m with
  | none => .error ⟨"core: Register modules is nil",s⟩
  | some a => do
    let (l,s) ← enter (s.heap a) s
    let m := s.heap a
    checkModules s m l.modules
    let modules := l.modules++[some a]
    let ctxIndex := modules.length-1
    let s := { s with heap := Function.update s.heap a { m with ctxIndex := ctxIndex } }
    checkCommands s m l.commands
    let (commands,commandsToPos) := addCommands ctxIndex m.commands (l.commands,l.commandsToPos)
    .ok { s with plugins := s.plugins.write ⟨l.mainPos,modules,commands,commandsToPos⟩ }

/-- A sequence of calls. A panic is recovered from, the next call meets what it left. -/
def registerAll : List (Option ℕ) → Store → Store
  | [], s => s
  | m::ms, s =>
    match register m s with
    | .ok s => registerAll ms s
    | .error e => registerAll ms e.left

/-- The modules that are registered by a sequence of calls, in order. -/
def registered : List (Option ℕ) → Store → List ℕ
  | [], _ => []
  | m::ms, s =>
    match register m s with
    | .ok s => m.toList++registered ms s
    | .error e => registered ms e.left

def start (heap : ℕ → Module) : Store := ⟨heap,⟨fun _ => none,[],[],[]⟩⟩

/-- The indices of the commands with a name, ascending. -/
def places (commands : List Command) (name : String) : List ℕ :=
  (List.range commands.length).filter fun i => commands[i]?.any (·.name = name)

/-- The commands of the modules in order, each with the index of its module. -/
def declared (heap : ℕ → Module) (as : List ℕ) : List Command :=
  (as.mapIdx fun j a => (heap a).commands.map fun v => { v with ctxIndex := j }).flatten

/-- The tables of one main name, with these modules. -/
structure Entry (heap : ℕ → Module) (mainName : String) (as : List ℕ) (cs : List Command)
    (map : GoMap (List ℕ)) : Prop where
  main : ∀ a ∈ as, (heap a).mainName = mainName
  modules : as.Pairwise fun a b => ¬((heap a).name = (heap b).name ∧ (heap a).type = (heap b).type)
  ctxIndex : ∀ j a, as[j]? = some a → (heap a).ctxIndex = j
  commands : cs = declared heap as
  distinct : ∀ v ∈ cs, ∀ w ∈ cs, v.ctxIndex ≠ w.ctxIndex → ¬(v.name = w.name ∧ v.type = w.type)
  toPos : ∀ name, map name = if places cs name = [] then none else some (places cs name)

/-- The modules of one main name among these. -/
def ofMain (heap : ℕ → Module) (l : List ℕ) (mainName : String) : List ℕ :=
  l.filter fun a => (heap a).mainName = mainName

/-- The modules `l` are registered. The tables have a place for each of their main names, and an
entry with the modules of that name for each main name that is settled. -/
structure Tables (l : List ℕ) (s : Store) (settled : String → Prop) : Prop where
  commands : s.plugins.commands.length = s.plugins.modules.length
  toPos : s.plugins.commandsToPos.length = s.plugins.modules.length
  named : ∀ k < s.plugins.modules.length, ∃ name, s.plugins.mainModulesToPos name = some k
  injective : ∀ name name' k, s.plugins.mainModulesToPos name = some k →
    s.plugins.mainModulesToPos name' = some k → name = name'
  known : ∀ a ∈ l, ∃ k, s.plugins.mainModulesToPos (s.heap a).mainName = some k
  entry : ∀ name k, settled name → s.plugins.mainModulesToPos name = some k → ∃ cs map,
    s.plugins.modules[k]? = some ((ofMain s.heap l name).map some) ∧
    s.plugins.commands[k]? = some cs ∧ s.plugins.commandsToPos[k]? = some map ∧
    Entry s.heap name (ofMain s.heap l name) cs map

/-- Every registered main name has its entry. -/
def Invariant (l : List ℕ) (s : Store) : Prop := Tables l s fun _ => True

theorem ofMain_congr {heap heap' : ℕ → Module} (h : ∀ b, (heap' b).mainName = (heap b).mainName)
    (l : List ℕ) (mainName : String) : ofMain heap' l mainName = ofMain heap l mainName := by
  simp only [ofMain,h]

theorem places_nil (name : String) : places [] name = [] := rfl

theorem places_concat (cs : List Command) (v : Command) (name : String) :
    places (cs++[v]) name = places cs name++if v.name = name then [cs.length] else [] := by
  have hold : (List.range cs.length).filter (fun i => (cs++[v])[i]?.any (·.name = name)) =
      places cs name := by
    apply List.filter_congr
    intro i hi
    rw [List.getElem?_append_left (List.mem_range.mp hi)]
  simp only [places] at hold ⊢
  rw [List.length_append,List.length_singleton,List.range_succ,List.filter_append,hold]
  by_cases h : v.name = name <;> simp [h]

theorem declared_concat (heap : ℕ → Module) (as : List ℕ) (a : ℕ) :
    declared heap (as++[a]) = declared heap as++
      (heap a).commands.map fun v => { v with ctxIndex := as.length } := by
  simp [declared,List.mapIdx_append]

theorem declared_congr {heap heap' : ℕ → Module} {as : List ℕ} (h : ∀ a ∈ as, heap' a = heap a) :
    declared heap' as = declared heap as := by
  induction as using List.reverseRecOn with
  | nil => rfl
  | append_singleton as a ih =>
    rw [declared_concat,declared_concat,ih fun b hb => h b (by simp [hb]),h a (by simp)]

theorem entry_nil (heap : ℕ → Module) (mainName : String) : Entry heap mainName [] [] fun _ => none where
  main := by simp
  modules := .nil
  ctxIndex := by simp
  commands := rfl
  distinct := by simp
  toPos := by simp [places_nil]

/-- An entry depends on its own modules only. -/
theorem Entry.congr {heap heap' : ℕ → Module} {mainName : String} {as : List ℕ} {cs : List Command}
    {map : GoMap (List ℕ)} (h : Entry heap mainName as cs map) (he : ∀ a ∈ as, heap' a = heap a) :
    Entry heap' mainName as cs map where
  main := fun a ha => by rw [he a ha]; exact h.main a ha
  modules := by
    apply h.modules.imp_of_mem
    intro a b ha hb hab
    rwa [he a ha,he b hb]
  ctxIndex := fun j a hj => by rw [he a (List.mem_of_getElem? hj)]; exact h.ctxIndex j a hj
  commands := by rw [declared_congr he]; exact h.commands
  distinct := h.distinct
  toPos := h.toPos

/-- The map of the places follows the commands that are appended. -/
theorem addCommands_spec (j : ℕ) (vs cs : List Command) {map : GoMap (List ℕ)}
    (h : ∀ name, map name = if places cs name = [] then none else some (places cs name)) :
    (addCommands j vs (cs,map)).1 = cs++vs.map (fun v => { v with ctxIndex := j }) ∧
      ∀ name, (addCommands j vs (cs,map)).2 name =
        if places (addCommands j vs (cs,map)).1 name = [] then none
        else some (places (addCommands j vs (cs,map)).1 name) := by
  induction vs generalizing cs map with
  | nil => exact ⟨by simp [addCommands],h⟩
  | cons v vs ih =>
    have hmap : ∀ name, Function.update map v.name (some ((map v.name).getD []++[cs.length])) name =
        if places (cs++[{ v with ctxIndex := j }]) name = [] then none
        else some (places (cs++[{ v with ctxIndex := j }]) name) := by
      intro name
      rw [places_concat]
      by_cases hn : name = v.name
      · subst hn
        have := h v.name
        by_cases h0 : places cs v.name = [] <;> simp [this,h0]
      · simp [hn,Ne.symm hn,h name]
    have ⟨h1,h2⟩ := ih (cs++[{ v with ctxIndex := j }]) hmap
    simp only [addCommands,List.length_append,List.length_singleton,Nat.add_sub_cancel]
    refine ⟨?_,h2⟩
    rw [h1]
    simp

/-- Commands of one module that repeat none of the others. -/
theorem distinct_append {cs ws : List Command} {j : ℕ}
    (hcs : ∀ v ∈ cs, ∀ w ∈ cs, v.ctxIndex ≠ w.ctxIndex → ¬(v.name = w.name ∧ v.type = w.type))
    (hws : ∀ w ∈ ws, w.ctxIndex = j)
    (hnew : ∀ v ∈ cs, ∀ w ∈ ws, ¬(v.name = w.name ∧ v.type = w.type)) :
    ∀ v ∈ cs++ws, ∀ w ∈ cs++ws, v.ctxIndex ≠ w.ctxIndex →
      ¬(v.name = w.name ∧ v.type = w.type) := by
  intro v hv w hw hne
  cases List.mem_append.mp hv with
  | inl hv =>
    cases List.mem_append.mp hw with
    | inl hw => exact hcs v hv w hw hne
    | inr hw => exact hnew v hv w hw
  | inr hv =>
    cases List.mem_append.mp hw with
    | inl hw => exact fun he => hnew w hw v hv ⟨he.1.symm,he.2.symm⟩
    | inr hw => exact (hne ((hws v hv).trans (hws w hw).symm)).elim

/-- A module that repeats neither a module nor a command of the entry is added to it. -/
theorem Entry.push {heap : ℕ → Module} {mainName : String} {as : List ℕ} {cs : List Command}
    {map : GoMap (List ℕ)} (h : Entry heap mainName as cs map) {a : ℕ}
    (hmain : (heap a).mainName = mainName)
    (hmod : ∀ b ∈ as, ¬((heap b).name = (heap a).name ∧ (heap b).type = (heap a).type))
    (hcmd : ∀ v1 ∈ cs, ∀ v2 ∈ (heap a).commands, ¬(v1.name = v2.name ∧ v1.type = v2.type)) :
    Entry (Function.update heap a { heap a with ctxIndex := as.length }) mainName (as++[a])
      (addCommands as.length (heap a).commands (cs,map)).1
      (addCommands as.length (heap a).commands (cs,map)).2 := by
  set heap' := Function.update heap a { heap a with ctxIndex := as.length } with hheap
  have hold : ∀ b ∈ as, heap' b = heap b := by
    intro b hb
    have hne : b ≠ a := by
      intro he
      exact hmod b hb (by simp [he])
    simp [hheap,hne]
  have hnew : heap' a = { heap a with ctxIndex := as.length } := by simp [hheap]
  have ⟨hcs,hmap⟩ := addCommands_spec as.length (heap a).commands cs h.toPos
  have h' := h.congr hold
  refine ⟨?_,?_,?_,?_,?_,hmap⟩
  · intro b hb
    cases List.mem_append.mp hb with
    | inl hb => exact h'.main b hb
    | inr hb =>
      rw [List.mem_singleton.mp hb,hnew]
      exact hmain
  · apply List.pairwise_append.mpr
    refine ⟨h'.modules,List.pairwise_singleton _ _,?_⟩
    intro b hb c hc
    rw [List.mem_singleton.mp hc,hnew,hold b hb]
    exact hmod b hb
  · intro j b hj
    by_cases hlt : j < as.length
    · rw [List.getElem?_append_left hlt] at hj
      exact h'.ctxIndex j b hj
    · rw [List.getElem?_append_right (by omega)] at hj
      have hj0 : j-as.length = 0 := by
        by_contra hn
        simp [hn] at hj
      rw [hj0] at hj
      cases hj
      rw [hnew]
      exact (by omega : as.length = j)
  · rw [hcs,declared_concat,hnew,← h'.commands]
  · rw [hcs]
    apply distinct_append (j := as.length) h.distinct
    · intro w hw
      have ⟨v2,_,he⟩ := List.mem_map.mp hw
      rw [← he]
    · intro v hv w hw
      have ⟨v2,hv2,he⟩ := List.mem_map.mp hw
      rw [← he]
      exact hcmd v hv v2 hv2

theorem checkModules_map (s : Store) (m : Module) (as : List ℕ) :
    (checkModules s m (as.map some) = .ok () ∧
      ∀ b ∈ as, ¬((s.heap b).name = m.name ∧ (s.heap b).type = m.type)) ∨
    (as ≠ [] ∧ ∃ text, checkModules s m (as.map some) = .error ⟨text,s⟩) := by
  induction as with
  | nil => exact .inl ⟨rfl,by simp⟩
  | cons b as ih =>
    by_cases h : (s.heap b).name = m.name ∧ (s.heap b).type = m.type
    · exact .inr ⟨by simp,"core: Register called twice for modules "++m.name,
        by simp only [List.map_cons,checkModules,h,and_self,if_true]⟩
    · simp only [List.map_cons,checkModules,h,if_false]
      cases ih with
      | inl hok =>
        refine .inl ⟨hok.1,?_⟩
        intro c hc
        cases List.mem_cons.mp hc with
        | inl he => exact he ▸ h
        | inr hc => exact hok.2 c hc
      | inr herr => exact .inr ⟨by simp,herr.2⟩

theorem checkCommands_spec (s : Store) (m : Module) (cs : List Command) :
    (checkCommands s m cs = .ok () ∧
      ∀ v1 ∈ cs, ∀ v2 ∈ m.commands, ¬(v1.name = v2.name ∧ v1.type = v2.type)) ∨
    (cs ≠ [] ∧ ∃ text, checkCommands s m cs = .error ⟨text,s⟩) := by
  induction cs with
  | nil => exact .inl ⟨rfl,by simp⟩
  | cons v cs ih =>
    by_cases h : ∃ v2 ∈ m.commands, v.name = v2.name ∧ v.type = v2.type
    · exact .inr ⟨by simp,"core: Register called twice for commands "++v.name,
        by simp only [checkCommands,h,if_true]⟩
    · simp only [checkCommands,h,if_false]
      cases ih with
      | inl hok =>
        refine .inl ⟨hok.1,?_⟩
        intro v1 hv1
        cases List.mem_cons.mp hv1 with
        | inl he =>
          intro v2 hv2 hv
          exact h ⟨v2,hv2,he ▸ hv⟩
        | inr hv1 => exact hok.2 v1 hv1
      | inr herr => exact .inr ⟨by simp,herr.2⟩

variable {l : List ℕ}

/-- A registered main name: the slices are those of its entry and nothing is written. -/
theorem enter_known {s : Store} (h : Invariant l s) {m : Module} {pos : ℕ}
    (hm : s.plugins.mainModulesToPos m.mainName = some pos) :
    ∃ cs map, enter m s = .ok (⟨pos,(ofMain s.heap l m.mainName).map some,cs,map⟩,s) ∧
      pos < s.plugins.modules.length ∧
      Entry s.heap m.mainName (ofMain s.heap l m.mainName) cs map := by
  have ⟨cs,map,h1,h2,h3,hentry⟩ := h.entry m.mainName pos trivial hm
  refine ⟨cs,map,?_,(List.getElem?_eq_some_iff.mp h1).1,hentry⟩
  simp only [enter,hm,index,h1,h2,h3]
  rfl

/-- A new main name: its place is at the end of the tables. -/
theorem Invariant.extend {s : Store} (h : Invariant l s) {mainName : String}
    (hm : s.plugins.mainModulesToPos mainName = none) :
    Tables l { s with plugins := s.plugins.extend mainName } (· ≠ mainName) := by
  have hlt : ∀ name k, s.plugins.mainModulesToPos name = some k → k < s.plugins.modules.length := by
    intro name k hk
    have ⟨_,_,h1,_⟩ := h.entry name k trivial hk
    exact (List.getElem?_eq_some_iff.mp h1).1
  have hne : ∀ name k, s.plugins.mainModulesToPos name = some k → name ≠ mainName := by
    intro name k hk he
    rw [he,hm] at hk
    cases hk
  have hself : (s.plugins.extend mainName).mainModulesToPos mainName =
      some s.plugins.modules.length := Function.update_self ..
  have hother : ∀ name, name ≠ mainName → (s.plugins.extend mainName).mainModulesToPos name =
      s.plugins.mainModulesToPos name := fun name hn => Function.update_of_ne hn ..
  refine ⟨by simp [Plugins.extend,h.commands],by simp [Plugins.extend,h.toPos],?_,?_,?_,?_⟩
  · intro k hk
    simp only [Plugins.extend,List.length_append,List.length_singleton] at hk
    by_cases hlast : k = s.plugins.modules.length
    · exact ⟨mainName,hlast ▸ hself⟩
    · have ⟨name,hname⟩ := h.named k (by omega)
      exact ⟨name,(hother name (hne name k hname)).trans hname⟩
  · intro name name' k h1 h2
    by_cases e1 : name = mainName
    · by_cases e2 : name' = mainName
      · rw [e1,e2]
      · have hk := hself.symm.trans (e1 ▸ h1)
        have := hlt name' k ((hother name' e2).symm.trans h2)
        simp only [Option.some.injEq] at hk
        omega
    · have h1' := (hother name e1).symm.trans h1
      by_cases e2 : name' = mainName
      · have hk := hself.symm.trans (e2 ▸ h2)
        have := hlt name k h1'
        simp only [Option.some.injEq] at hk
        omega
      · exact h.injective name name' k h1' ((hother name' e2).symm.trans h2)
  · intro a ha
    have ⟨k,hk⟩ := h.known a ha
    exact ⟨k,(hother _ (hne _ k hk)).trans hk⟩
  · intro name k hn hk
    have hk' := (hother name hn).symm.trans hk
    have ⟨cs,map,h1,h2,h3,hentry⟩ := h.entry name k trivial hk'
    have hb := hlt name k hk'
    refine ⟨cs,map,?_,?_,?_,hentry⟩
    · exact (List.getElem?_append_left hb).trans h1
    · exact (List.getElem?_append_left (h.commands ▸ hb)).trans h2
    · exact (List.getElem?_append_left (h.toPos ▸ hb)).trans h3

/-- A new main name has no modules yet. -/
theorem Invariant.ofMain_new {s : Store} (h : Invariant l s) {mainName : String}
    (hm : s.plugins.mainModulesToPos mainName = none) : ofMain s.heap l mainName = [] := by
  apply List.filter_eq_nil_iff.mpr
  intro a ha
  have ⟨k,hk⟩ := h.known a ha
  simp only [decide_eq_true_eq]
  intro he
  rw [he,hm] at hk
  cases hk

/-- The entry of the main name is written, and the other entries do not see the change of the heap. -/
theorem Tables.write {s : Store} {mainName : String} (h : Tables l s (· ≠ mainName)) {pos a : ℕ}
    (hpos : s.plugins.mainModulesToPos mainName = some pos) (hlt : pos < s.plugins.modules.length)
    {heap : ℕ → Module} {cs : List Command} {map : GoMap (List ℕ)}
    (ha : (s.heap a).mainName = mainName) (hmain : ∀ b, (heap b).mainName = (s.heap b).mainName)
    (hheap : ∀ b, (s.heap b).mainName ≠ mainName → heap b = s.heap b)
    (hentry : Entry heap mainName (ofMain s.heap l mainName++[a]) cs map) :
    Invariant (l++[a])
      ⟨heap,s.plugins.write ⟨pos,(ofMain s.heap l mainName++[a]).map some,cs,map⟩⟩ := by
  have hself : ofMain heap (l++[a]) mainName = ofMain s.heap l mainName++[a] := by
    rw [ofMain_congr hmain]
    simp [ofMain,ha]
  have hother : ∀ name, name ≠ mainName → ofMain heap (l++[a]) name = ofMain s.heap l name := by
    intro name hn
    rw [ofMain_congr hmain]
    simp [ofMain,ha,Ne.symm hn]
  refine ⟨by simp [Plugins.write,h.commands],by simp [Plugins.write,h.toPos],?_,h.injective,?_,?_⟩
  · intro k hk
    exact h.named k (by simpa [Plugins.write] using hk)
  · intro b hb
    rw [hmain]
    cases List.mem_append.mp hb with
    | inl hb => exact h.known b hb
    | inr hb =>
      rw [List.mem_singleton.mp hb,ha]
      exact ⟨pos,hpos⟩
  · intro name k _ hk
    by_cases hn : name = mainName
    · subst hn
      have he : pos = k := by
        rw [Plugins.write,hpos] at hk
        exact Option.some.inj hk
      subst he
      have h1 : pos < s.plugins.commands.length := h.commands ▸ hlt
      have h2 : pos < s.plugins.commandsToPos.length := h.toPos ▸ hlt
      rw [hself]
      exact ⟨cs,map,List.getElem?_set_self hlt,List.getElem?_set_self h1,
        List.getElem?_set_self h2,hentry⟩
    · have hne : pos ≠ k := by
        intro he
        exact hn (h.injective name mainName k hk (he ▸ hpos))
      have ⟨cs',map',h1,h2,h3,hold⟩ := h.entry name k hn hk
      rw [hother name hn]
      refine ⟨cs',map',?_,?_,?_,?_⟩
      · rw [Plugins.write,List.getElem?_set_ne hne]
        exact h1
      · rw [Plugins.write,List.getElem?_set_ne hne]
        exact h2
      · rw [Plugins.write,List.getElem?_set_ne hne]
        exact h3
      · apply hold.congr
        intro b hb
        apply hheap
        rw [hold.main b hb]
        exact hn

/-- A module that no table holds may change its index. -/
theorem Invariant.heap {s : Store} (h : Invariant l s) {heap : ℕ → Module}
    (hmain : ∀ b, (heap b).mainName = (s.heap b).mainName)
    (hheap : ∀ name k cs map, s.plugins.mainModulesToPos name = some k →
      Entry s.heap name (ofMain s.heap l name) cs map →
      ∀ b ∈ ofMain s.heap l name, heap b = s.heap b) : Invariant l ⟨heap,s.plugins⟩ := by
  refine ⟨h.commands,h.toPos,h.named,h.injective,?_,?_⟩
  · intro a ha
    rw [hmain]
    exact h.known a ha
  · intro name k _ hk
    have ⟨cs,map,h1,h2,h3,hentry⟩ := h.entry name k trivial hk
    rw [ofMain_congr hmain]
    exact ⟨cs,map,h1,h2,h3,hentry.congr (hheap name k cs map hk hentry)⟩

/-- What is left to do once the modules have been checked. -/
theorem register_checked {s s₁ : Store} {a pos : ℕ} {as : List ℕ} {cs : List Command}
    {map : GoMap (List ℕ)}
    (henter : enter (s.heap a) s = .ok (⟨pos,as.map some,cs,map⟩,s₁)) (hh : s₁.heap = s.heap)
    (hcheck : checkModules s₁ (s.heap a) (as.map some) = .ok ()) :
    ((∀ v1 ∈ cs, ∀ v2 ∈ (s.heap a).commands, ¬(v1.name = v2.name ∧ v1.type = v2.type)) ∧
      register (some a) s = .ok
        ⟨Function.update s.heap a { s.heap a with ctxIndex := as.length },
          s₁.plugins.write ⟨pos,(as++[a]).map some,
            (addCommands as.length (s.heap a).commands (cs,map)).1,
            (addCommands as.length (s.heap a).commands (cs,map)).2⟩⟩) ∨
    (cs ≠ [] ∧ ∃ text, register (some a) s = .error ⟨text,
      ⟨Function.update s.heap a { s.heap a with ctxIndex := as.length },s₁.plugins⟩⟩) := by
  have hlen : (as.map some++[some a]).length-1 = as.length := by simp
  have hrun : register (some a) s =
      (checkCommands ⟨Function.update s.heap a { s.heap a with ctxIndex := as.length },s₁.plugins⟩
        (s.heap a) cs >>= fun _ => .ok
        ⟨Function.update s.heap a { s.heap a with ctxIndex := as.length },
          s₁.plugins.write ⟨pos,(as++[a]).map some,
            (addCommands as.length (s.heap a).commands (cs,map)).1,
            (addCommands as.length (s.heap a).commands (cs,map)).2⟩⟩) := by
    simp only [register,henter,ok_bind,hh,hcheck,hlen,List.map_append,List.map_cons,List.map_nil]
  rw [hrun]
  cases checkCommands_spec ⟨Function.update s.heap a { s.heap a with ctxIndex := as.length },
    s₁.plugins⟩ (s.heap a) cs with
  | inl hok =>
    rw [hok.1,ok_bind]
    exact .inl ⟨hok.2,rfl⟩
  | inr herr =>
    have ⟨text,htext⟩ := herr.2
    rw [htext,error_bind]
    exact .inr ⟨herr.1,text,rfl⟩

/-- Numbering a module changes no main name. -/
theorem mainName_numbered (heap : ℕ → Module) (a j b : ℕ) :
    (Function.update heap a { heap a with ctxIndex := j } b).mainName = (heap b).mainName := by
  by_cases hb : b = a <;> simp [hb]

theorem update_other {heap : ℕ → Module} {a b : ℕ} (hb : (heap b).mainName ≠ (heap a).mainName)
    (m : Module) : Function.update heap a m b = heap b :=
  Function.update_of_ne (fun he => hb (by rw [he])) ..

/-- The first module of a main name is registered. -/
theorem register_new {s : Store} (h : Invariant l s) {a : ℕ}
    (hm : s.plugins.mainModulesToPos (s.heap a).mainName = none) :
    ∃ s', register (some a) s = .ok s' ∧ Invariant (l++[a]) s' := by
  -- the slices are empty, so nothing can be a duplicate
  have hnil := h.ofMain_new hm
  have henter : enter (s.heap a) s = .ok (⟨s.plugins.modules.length,([] : List ℕ).map some,[],
      fun _ => none⟩,{ s with plugins := s.plugins.extend (s.heap a).mainName }) := by
    simp only [enter,hm,List.map_nil]
  cases register_checked henter rfl rfl with
  | inr herr => exact (herr.1 rfl).elim
  | inl hok =>
    have hentry := (entry_nil s.heap (s.heap a).mainName).push (a := a) rfl (by simp) hok.1
    have hw := (h.extend hm).write (a := a) (Function.update_self ..) (by simp [Plugins.extend])
      rfl (mainName_numbered s.heap a 0) (fun b hb => update_other hb _) (by simpa [hnil] using hentry)
    refine ⟨_,hok.2,?_⟩
    simpa [hnil] using hw

/-- A module of a main name that is known is registered or rejected. -/
theorem register_known {s : Store} (h : Invariant l s) {a pos : ℕ}
    (hm : s.plugins.mainModulesToPos (s.heap a).mainName = some pos) :
    (∃ s', register (some a) s = .ok s' ∧ Invariant (l++[a]) s') ∨
      ∃ text heap, register (some a) s = .error ⟨text,⟨heap,s.plugins⟩⟩ ∧
        Invariant l ⟨heap,s.plugins⟩ := by
  have ⟨cs,map,henter,hlt,hentry⟩ := enter_known h hm
  cases checkModules_map s (s.heap a) (ofMain s.heap l (s.heap a).mainName) with
  | inr herr =>
    have ⟨text,htext⟩ := herr.2
    exact .inr ⟨text,s.heap,by simp only [register,henter,ok_bind,htext,error_bind],h⟩
  | inl hcheck =>
    cases register_checked henter rfl hcheck.1 with
    | inl hok =>
      refine .inl ⟨_,hok.2,?_⟩
      have ht : Tables l s (· ≠ (s.heap a).mainName) :=
        ⟨h.commands,h.toPos,h.named,h.injective,h.known,fun name k _ => h.entry name k trivial⟩
      exact ht.write hm hlt rfl (mainName_numbered s.heap a _) (fun b hb => update_other hb _)
        (hentry.push rfl hcheck.2 hok.1)
    | inr herr =>
      have ⟨text,htext⟩ := herr.2
      refine .inr ⟨text,_,htext,?_⟩
      apply h.heap (mainName_numbered s.heap a _)
      intro name k cs' map' hk he b hb
      -- the rejected module is in no table: it is new to its own entry, and the others have
      -- other main names
      by_cases hn : name = (s.heap a).mainName
      · subst hn
        have hne : b ≠ a := by
          intro hba
          exact hcheck.2 b hb (by simp [hba])
        exact Function.update_of_ne hne ..
      · exact update_other (by rw [he.main b hb]; exact hn) _

/-- One call keeps the invariant, and if it panics it leaves the tables alone. -/
theorem register_spec {s : Store} (h : Invariant l s) (m : Option ℕ) :
    (∃ s', register m s = .ok s' ∧ Invariant (l++m.toList) s') ∨
      ∃ text heap, register m s = .error ⟨text,⟨heap,s.plugins⟩⟩ ∧ Invariant l ⟨heap,s.plugins⟩ := by
  cases m with
  | none => exact .inr ⟨"core: Register modules is nil",s.heap,rfl,h⟩
  | some a =>
    cases hm : s.plugins.mainModulesToPos (s.heap a).mainName with
    | none => exact .inl (register_new h hm)
    | some pos => exact register_known h hm

theorem invariant_start (heap : ℕ → Module) : Invariant [] (start heap) :=
  ⟨rfl,rfl,by simp [start],by simp [start],by simp,by simp [start]⟩

theorem invariant_registerAll {s : Store} (h : Invariant l s) (ms : List (Option ℕ)) :
    Invariant (l++registered ms s) (registerAll ms s) := by
  induction ms generalizing l s with
  | nil => simpa [registered,registerAll] using h
  | cons m ms ih =>
    cases register_spec h m with
    | inl hok =>
      have ⟨s',hs,hi⟩ := hok
      simp only [registerAll,registered,hs]
      simpa using ih hi
    | inr herr =>
      have ⟨text,heap,hs,hi⟩ := herr
      simp only [registerAll,registered,hs]
      exact ih hi

/-- After every sequence of calls the four tables are consistent and hold the modules that were
registered in order, and a call that panics leaves them as they were. -/
theorem register_invariant (heap : ℕ → Module) (ms : List (Option ℕ)) :
    Invariant (registered ms (start heap)) (registerAll ms (start heap)) ∧
      ∀ m e, register m (registerAll ms (start heap)) = .error e →
        e.left.plugins = (registerAll ms (start heap)).plugins := by
  have h := invariant_registerAll (invariant_start heap) ms
  rw [List.nil_append] at h
  refine ⟨h,?_⟩
  intro m e he
  cases register_spec h m with
  | inl hok =>
    have ⟨s',hs,_⟩ := hok
    rw [hs] at he
    cases he
  | inr herr =>
    have ⟨text,heap',hs,_⟩ := herr
    rw [hs] at he
    cases he
    rfl

end RecycleBin.NgPlugins
