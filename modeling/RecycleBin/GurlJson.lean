import RecycleBin.GurlScan
import RecycleBin.NestedMap

/-! `toJson` of `gurlib/gurl.go`, which puts items `path:val` and `path:=val` into a nested map.
Paths with and without dots have rules of their own: one that is a single byte takes no `:=`, and
a text behind no dots may not be empty. What `{}` makes is no `jsonObj`, so no path leads into it. -/
namespace RecycleBin
namespace GurlJson
open GurlText GurlConf NestedMap

/-- What a map holds besides a `jsonObj`; `map` is a `map[string]interface{}` with nothing in it. -/
inductive Value (F : Type)
  | str (s : Bytes)
  | float (f : F)
  | int (i : ℤ)
  | bool (b : Bool)
  | map

/-- A `map[string]interface{}`, as the function gets it or as a `jsonObj` in it. -/
abbrev Obj (F : Type) := Bytes → Option (Tree Bytes (Value F))

/-- `strconv.ParseBool`. -/
def parseBool (s : Bytes) : Option Bool :=
  if (["1","t","T","TRUE","true","True"].map ascii).contains s then some true
  else if (["0","f","F","FALSE","false","False"].map ascii).contains s then some false
  else none

section Code
variable {F : Type} (parseFloat : Bytes → Option F)

/-- What `parseVal` makes of a text; `parseFloat` is none where `strconv.ParseFloat` has an error. -/
def decode (val : Bytes) : Value F :=
  if val = ascii "{}" then .map
  else
    match parseFloat val with
    | some f => .float f
    | none =>
      match parseInt val with
      | .ok i => .int i
      | .error _ =>
        match parseBool val with
        | some b => .bool b
        | none => .str val

def parseVal (bodyJson : Obj F) (key val : Bytes) : Obj F :=
  Function.update bodyJson key (some (.leaf (decode parseFloat val)))

def parseVal2 (bodyJson : Obj F) (key val : Bytes) : Obj F :=
  Function.update bodyJson key (some (.leaf (.str val)))

/-- The loop over the keys of a path, from the map `curMap`. -/
def setKeys (parseValCb : Obj F → Bytes → Bytes → Obj F) (val : Bytes) :
    List Bytes → Obj F → Except Panic (Obj F)
  | [], curMap => .ok curMap
  | [v], curMap => .ok (parseValCb curMap v val)
  | v::keys, curMap =>
    match (curMap v).getD .empty with
    | .leaf _ => .error .typeAssertion
    | .node vv => do
      let vv ← setKeys parseValCb val keys vv
      .ok (Function.update curMap v (some (.node vv)))

/-- What stands before and behind the first `:`. -/
def keyVal (v : Bytes) : Option (Bytes × Bytes) :=
  (v.idxOf? 58).map fun pos => (v.take pos,v.drop (pos+1))

/-- One item. -/
def addItem (bodyJson : Obj F) (v : Bytes) : Except Panic (Obj F) :=
  match keyVal v with
  | none => .ok bodyJson
  | some (key,val) =>
    if 46 ∈ key then
      if val.head? = some 61 then setKeys (parseVal parseFloat) val.tail (key.splitOn 46) bodyJson
      else setKeys parseVal2 val (key.splitOn 46) bodyJson
    else
      match val with
      | [] => .error .index
      | b::rest =>
        if b ≠ 61 then .ok (Function.update bodyJson key (some (.leaf (.str val))))
        else if key.length = 1 then .ok bodyJson
        else .ok (parseVal parseFloat bodyJson key rest)

def toJson (J : List Bytes) (bodyJson : Obj F) : Except Panic (Obj F) :=
  J.foldlM (addItem parseFloat) bodyJson

/-! ### What the items say -/

/-- The path of an item, and the value at it. -/
def item (v : Bytes) : Option (List Bytes × Value F) :=
  (keyVal v).map fun kv => (kv.1.splitOn 46,
    if kv.2.head? = some 61 then decode parseFloat kv.2.tail else .str kv.2)

def items (J : List Bytes) : List (List Bytes × Value F) := J.filterMap (item parseFloat)

end Code

/-- Either of the two types of map. -/
def IsObject {F : Type} : Tree Bytes (Value F) → Prop
  | .leaf .map => True
  | .leaf _ => False
  | .node _ => True

/-- Whether a value is there: `{}` is where there is a map. -/
def Shows {F : Type} (x : Option (Tree Bytes (Value F))) : Value F → Prop
  | .map => ∃ t, x = some t ∧ IsObject t
  | v => x = some (.leaf v)

def IsLeaf {F : Type} : Tree Bytes (Value F) → Prop
  | .leaf _ => True
  | .node m => ∀ k, m k = none

/-- The map has the last value for each path, and no other leaves. -/
structure Holds {F : Type} (S : List (List Bytes × Value F)) (m : Obj F) : Prop where
  values : ∀ p v, last S p = some v → Shows (get p (.node m)) v
  leaves : ∀ p t, p ≠ [] → get p (.node m) = some t → IsLeaf t → ∃ v, last S p = some v

/-- The items are put into an empty map as they say. -/
def Builds {F : Type} (parseFloat : Bytes → Option F) (J : List Bytes) : Prop :=
  ∃ m, toJson parseFloat J (fun _ => none) = .ok m ∧ Holds (items parseFloat J) m

/-! ### What the items do -/

/-- `k:=val` for a key of one byte, which is passed over. -/
def isSkipped (v : Bytes) : Bool :=
  match keyVal v with
  | none => false
  | some (key,val) => 46 ∉ key ∧ key.length = 1 ∧ val.head? = some 61

/-- There is something behind the colon, or a dot before it. -/
def Filled (v : Bytes) : Prop := ∀ key, keyVal v = some (key,[]) → 46 ∈ key

section Effects
variable {F : Type} (parseFloat : Bytes → Option F)

/-- What an item assigns. -/
def assigned (v : Bytes) : Option (List Bytes × Value F) :=
  if isSkipped v then none else item parseFloat v

def assignments (J : List Bytes) : List (List Bytes × Value F) := J.filterMap (assigned parseFloat)

variable {parseFloat}

theorem setKeys_cons {cb : Obj F → Bytes → Bytes → Obj F} {val v w : Bytes} (keys : List Bytes)
    (m : Obj F) : setKeys cb val (v::w::keys) m =
      match (m v).getD .empty with
      | .leaf _ => .error .typeAssertion
      | .node vv => setKeys cb val (w::keys) vv >>= fun vv =>
        .ok (Function.update m v (some (.node vv))) :=
  setKeys.eq_3 cb val m v (w::keys) (List.cons_ne_nil w keys)

/-- The loop is an assignment along the keys. -/
theorem setKeys_ok {cb : Obj F → Bytes → Bytes → Obj F} {val : Bytes} {x : Value F}
    (hcb : ∀ m k, cb m k val = Function.update m k (some (.leaf x))) (keys : List Bytes) :
    ∀ {m m' : Obj F}, keys ≠ [] →
      (setKeys cb val keys m = .ok m' ↔ assign x keys (.node m) = some (.node m')) := by
  induction keys with
  | nil => exact fun h => absurd rfl h
  | cons v keys ih =>
    intro m m' _
    cases keys with
    | nil =>
      rw [setKeys,hcb]
      simp [assign]
    | cons w keys =>
      rw [setKeys_cons,assign]
      cases (m v).getD .empty with
      | leaf u => simp [assign]
      | node m₁ =>
        constructor
        · intro h
          obtain ⟨m₂,hm₂,h⟩ := except_bind_ok h
          cases h
          rw [(ih (List.cons_ne_nil w keys)).mp hm₂]
          rfl
        · intro h
          obtain ⟨t,ht,heq⟩ := Option.map_eq_some_iff.mp h
          obtain ⟨t₁,-,rfl⟩ := assign_node ht
          cases heq
          dsimp only
          rw [(ih (List.cons_ne_nil w keys)).mpr ht]
          rfl

theorem addItem_none {v : Bytes} (h : assigned parseFloat v = none) (m : Obj F) :
    addItem parseFloat m v = .ok m := by
  rw [assigned] at h
  rw [addItem]
  cases hkv : keyVal v with
  | none => rfl
  | some kv =>
    obtain ⟨key,val⟩ := kv
    split_ifs at h with hs
    · rw [isSkipped,hkv] at hs
      obtain ⟨hdot,hlen,heq⟩ := of_decide_eq_true hs
      obtain ⟨rest,rfl⟩ := List.head?_eq_some_iff.mp heq
      dsimp only
      rw [if_neg hdot,if_neg (by decide),if_pos hlen]
    · rw [item,hkv] at h
      cases h

theorem addItem_some {v : Bytes} {e : List Bytes × Value F} (h : assigned parseFloat v = some e)
    (hf : Filled v) {m m' : Obj F} :
    addItem parseFloat m v = .ok m' ↔ assign e.2 e.1 (.node m) = some (.node m') := by
  rw [assigned] at h
  split_ifs at h with hs
  obtain ⟨⟨key,val⟩,hkv,rfl⟩ := Option.map_eq_some_iff.mp h
  rw [addItem,hkv]
  dsimp only
  by_cases hdot : 46 ∈ key
  · rw [if_pos hdot]
    by_cases heq : val.head? = some 61
    · rw [if_pos heq,if_pos heq]
      exact setKeys_ok (fun _ _ => rfl) _ (List.splitOn_ne_nil _ _)
    · rw [if_neg heq,if_neg heq]
      exact setKeys_ok (fun _ _ => rfl) _ (List.splitOn_ne_nil _ _)
  · rw [if_neg hdot,List.splitOn_eq_singleton hdot]
    cases val with
    | nil => exact absurd (hf key hkv) hdot
    | cons b rest =>
      by_cases heq : b = 61
      · have hlen : key.length ≠ 1 := by
          intro hlen
          apply hs
          rw [isSkipped,hkv]
          exact decide_eq_true ⟨hdot,hlen,by rw [heq]; rfl⟩
        rw [heq]
        dsimp only
        rw [if_neg (by decide),if_neg hlen,parseVal]
        simp [assign]
      · simp [assign,heq]

theorem addItem_unfilled {v : Bytes} (h : ¬Filled v) (m : Obj F) :
    addItem parseFloat m v = .error .index := by
  obtain ⟨key,hkv,hdot⟩ : ∃ key, keyVal v = some (key,[]) ∧ 46 ∉ key := by simpa [Filled] using h
  rw [addItem,hkv]
  exact if_neg hdot

theorem path_ne_nil {v : Bytes} {e : List Bytes × Value F} (h : item parseFloat v = some e) :
    e.1 ≠ [] := by
  obtain ⟨kv,-,rfl⟩ := Option.map_eq_some_iff.mp h
  exact List.splitOn_ne_nil _ _

theorem item_of_assigned {v : Bytes} {e : List Bytes × Value F}
    (h : assigned parseFloat v = some e) : item parseFloat v = some e := by
  rw [assigned] at h
  split_ifs at h
  exact h

/-- All items are put in where none of them panics, and no path leads through a value. -/
theorem toJson_ok (J : List Bytes) : ∀ {m m' : Obj F}, toJson parseFloat J m = .ok m' ↔
    (∀ v ∈ J, Filled v) ∧ assignAll (assignments parseFloat J) (.node m) = some (.node m') := by
  induction J with
  | nil =>
    intro m m'
    rw [toJson,List.foldlM_nil,assignments,List.filterMap_nil,assignAll,List.foldlM_nil]
    constructor
    · intro h
      cases h
      exact ⟨by simp,rfl⟩
    · rintro ⟨-,h⟩
      cases h
      rfl
  | cons v J ih =>
    intro m m'
    change addItem parseFloat m v >>= toJson parseFloat J = _ ↔ _
    rw [List.forall_mem_cons]
    by_cases hf : Filled v
    · cases ha : assigned parseFloat v with
      | none =>
        have hrest : assignments parseFloat (v::J) = assignments parseFloat J :=
          List.filterMap_cons_none ha
        rw [addItem_none ha,hrest,and_iff_right hf]
        exact ih
      | some e =>
        have hrest : assignments parseFloat (v::J) = e::assignments parseFloat J :=
          List.filterMap_cons_some ha
        rw [hrest,and_iff_right hf]
        constructor
        · intro h
          obtain ⟨m₁,hm₁,h⟩ := except_bind_ok h
          obtain ⟨hall,hassign⟩ := ih.mp h
          exact ⟨hall,Option.bind_eq_some_iff.mpr ⟨_,(addItem_some ha hf).mp hm₁,hassign⟩⟩
        · rintro ⟨hall,h⟩
          obtain ⟨t,ht,hassign⟩ := Option.bind_eq_some_iff.mp h
          obtain ⟨k,ks,hpath⟩ := List.exists_cons_of_ne_nil (path_ne_nil (item_of_assigned ha))
          have hnode : assign e.2 (k::ks) (.node m) = some t := hpath ▸ ht
          obtain ⟨t₁,-,rfl⟩ := assign_node hnode
          rw [(addItem_some ha hf).mpr ht]
          exact ih.mpr ⟨hall,hassign⟩
    · rw [addItem_unfilled hf]
      constructor
      · intro h
        cases h
      · rintro ⟨⟨h,-⟩,-⟩
        exact absurd h hf

/-! ### When they do what they say -/

/-- Every item has a text, no path leads through another, and where the last item for a path is
passed over the others make its value. -/
structure Fits (parseFloat : Bytes → Option F) (J : List Bytes) : Prop where
  filled : ∀ v ∈ J, Filled v
  separate : Separate (assignments parseFloat J)
  shown : ∀ p v, last (items parseFloat J) p = some v →
    last (assignments parseFloat J) p = some v ∨
      v = .map ∧ ∃ e ∈ assignments parseFloat J, p <+: e.1 ∧ p ≠ e.1

theorem items_of_assignments {J : List Bytes} {e : List Bytes × Value F}
    (h : e ∈ assignments parseFloat J) : e ∈ items parseFloat J := by
  obtain ⟨v,hv,he⟩ := List.mem_filterMap.mp h
  exact List.mem_filterMap.mpr ⟨v,hv,item_of_assigned he⟩

theorem ne_nil_of_items {J : List Bytes} {e : List Bytes × Value F}
    (h : e ∈ items parseFloat J) : e.1 ≠ [] := by
  obtain ⟨v,-,he⟩ := List.mem_filterMap.mp h
  exact path_ne_nil he

theorem shows_leaf {v : Value F} : Shows (some (.leaf v)) v := by
  cases v with
  | map => exact ⟨_,rfl,trivial⟩
  | _ => rfl

theorem eq_of_shows_leaf {v w : Value F} (h : Shows (some (.leaf w)) v) : w = v := by
  cases v with
  | map =>
    obtain ⟨t,ht,hobj⟩ := h
    cases ht
    cases w with
    | map => rfl
    | _ => exact absurd hobj id
  | _ =>
    cases h
    rfl

theorem eq_of_shows_node {v : Value F} {m : Obj F} (h : Shows (some (.node m)) v) : v = .map := by
  cases v with
  | map => rfl
  | _ => cases h

theorem not_shows_none (v : Value F) : ¬Shows none v := by
  cases v with
  | map =>
    rintro ⟨t,ht,-⟩
    cases ht
  | _ => exact fun h => by cases h

theorem separate_of_holds {J : List Bytes} {m m₀ : Obj F}
    (hrun : assignAll (assignments parseFloat J) (.node m₀) = some (.node m))
    (h : Holds (items parseFloat J) m) : Separate (assignments parseFloat J) := by
  intro e he f hf hle
  by_contra hne
  have hnone : get f.1 (.node m) = none := ((assignAll_blocked _ hrun).2 e he).get_none hle hne
  obtain ⟨w,hw⟩ := exists_last (items_of_assignments hf)
  have hshow := h.values f.1 w hw
  rw [hnone] at hshow
  exact not_shows_none w hshow

theorem holds_of_layout {J : List Bytes} {m : Obj F}
    (h : Layout (assignments parseFloat J) (.node m)) (hfit : Fits parseFloat J) :
    Holds (items parseFloat J) m where
  values := by
    intro p v hv
    rcases hfit.shown p v hv with hlast | ⟨rfl,e,he,hle,hne⟩
    · rw [h.values p v hlast]
      exact shows_leaf
    · obtain ⟨m',hm'⟩ := h.above e he p hle hne
      exact ⟨_,hm',trivial⟩
  leaves := by
    intro p t hp ht hleaf
    obtain ⟨e,he,hle⟩ := (h.only p t ht).resolve_left hp
    by_cases heq : p = e.1
    · rw [heq]
      exact exists_last (items_of_assignments he)
    · obtain ⟨m',hm'⟩ := h.above e he p hle heq
      obtain ⟨r,hr⟩ := hle
      obtain ⟨w,hw⟩ := exists_last he
      have hget := h.values e.1 w hw
      cases ht.symm.trans hm'
      rw [← hr,get_append,hm',Option.bind_some] at hget
      cases r with
      | nil => exact absurd (by rw [← hr,List.append_nil]) heq
      | cons k r =>
        rw [get_node,hleaf k] at hget
        cases hget

theorem fits_of_layout {J : List Bytes} {m : Obj F}
    (h : Layout (assignments parseFloat J) (.node m)) (hfilled : ∀ v ∈ J, Filled v)
    (hsep : Separate (assignments parseFloat J)) (hholds : Holds (items parseFloat J) m) :
    Fits parseFloat J where
  filled := hfilled
  separate := hsep
  shown := by
    intro p v hv
    have hshow := hholds.values p v hv
    cases hget : get p (.node m) with
    | none =>
      rw [hget] at hshow
      exact absurd hshow (not_shows_none v)
    | some t =>
      rw [hget] at hshow
      obtain ⟨e,he,hle⟩ := (h.only p t hget).resolve_left (ne_nil_of_items (mem_of_last hv))
      by_cases heq : p = e.1
      · obtain ⟨w,hw⟩ := exists_last he
        rw [← heq] at hw
        cases hget.symm.trans (h.values p w hw)
        rw [← eq_of_shows_leaf hshow]
        exact .inl hw
      · obtain ⟨m',hm'⟩ := h.above e he p hle heq
        cases hget.symm.trans hm'
        exact .inr ⟨eq_of_shows_node hshow,e,he,hle,heq⟩

end Effects

/-- The items make the map they stand for exactly if each has a text, no path leads through that
of another, and those that are passed over have nothing to add. -/
theorem builds_iff {F : Type} (parseFloat : Bytes → Option F) (J : List Bytes) :
    Builds parseFloat J ↔ Fits parseFloat J := by
  have hne : ∀ e ∈ assignments parseFloat J, e.1 ≠ [] :=
    fun e he => ne_nil_of_items (items_of_assignments he)
  constructor
  · rintro ⟨m,hm,hholds⟩
    obtain ⟨hfilled,hrun⟩ := (toJson_ok J).mp hm
    have hsep := separate_of_holds hrun hholds
    obtain ⟨t,ht,hlayout⟩ := assignAll_layout hne hsep
    cases hrun.symm.trans ht
    exact fits_of_layout hlayout hfilled hsep hholds
  · intro h
    obtain ⟨t,ht,hlayout⟩ := assignAll_layout hne h.separate
    obtain ⟨m,rfl⟩ := hlayout.root
    exact ⟨m,(toJson_ok J).mpr ⟨h.filled,ht⟩,holds_of_layout hlayout h⟩

/-- No path is a proper part of another, but for that of a `{}`. -/
def ConflictFree {F : Type} (S : List (List Bytes × Value F)) : Prop :=
  ∀ e ∈ S, ∀ f ∈ S, e.1 <+: f.1 → e.1 = f.1 ∨ e.2 = .map

/-- `a:` panics. -/
theorem not_builds_empty : ¬∀ (F : Type) (parseFloat : Bytes → Option F) (J : List Bytes),
    (∀ e ∈ items parseFloat J, [] ∉ e.1) → ConflictFree (items parseFloat J) →
      Builds parseFloat J := by
  intro h
  have hitems : items (fun _ => (none : Option Unit)) [[97,58]] = [([[97]],.str [])] := by rfl
  obtain ⟨m,hm,-⟩ := h Unit (fun _ => none) [[97,58]] (by rw [hitems]; simp) (by
    rw [hitems]
    intro e he f hf _
    exact .inl (by rw [List.mem_singleton.mp he,List.mem_singleton.mp hf]))
  cases hm

end GurlJson
end RecycleBin
