import Mathlib.Data.Finmap
import RecycleBin.AntHash
import RecycleBin.Bytes

/-! The hash table as a finite map over the keys up to key equality. The map
keeps the key pointer each entry was stored under, since `ant_hash_del` frees it. -/
namespace RecycleBin
namespace AntHash
open Linked

variable {cfg : Config}

/-- A key as a caller passes it: the non-NULL address of a block the mode can read. -/
structure Key (cfg : Config) where
  addr : ℕ
  block : Block
  addr_ne : addr ≠ 0
  valid : cfg.Valid block.bytes

/-- Key equality on readable blocks. -/
def Config.Lawful.setoid (h : cfg.Lawful) : Setoid {a : Bytes // cfg.Valid a} where
  r a b := cfg.Equal a b
  iseqv := {
    refl := fun a => h.refl a a.2
    symm := fun {a b} hab => h.symm a b a.2 b.2 hab
    trans := fun {a b c} hab hbc => h.trans a b c a.2 b.2 c.2 hab hbc }

/-- The keys of the map. -/
def Class (h : cfg.Lawful) : Type := Quotient h.setoid

instance (h : cfg.Lawful) : DecidableEq (Class h) :=
  @Quotient.decidableEq _ h.setoid fun a b => inferInstanceAs (Decidable (cfg.Equal a b))

/-- All keys of a class share their bucket. -/
def Class.bucket {h : cfg.Lawful} (c : Class h) : ℕ :=
  Quotient.lift (s := h.setoid) (fun a => cfg.bucket a)
    (fun a b hab => h.bucket_eq a b a.2 b.2 hab) c

namespace Key

def cls (h : cfg.Lawful) (k : Key cfg) : Class h := Quotient.mk h.setoid ⟨k.block.bytes,k.valid⟩

theorem cls_eq {h : cfg.Lawful} {k k' : Key cfg} :
    k.cls h = k'.cls h ↔ cfg.Equal k.block.bytes k'.block.bytes :=
  ⟨fun he => Quotient.exact he,fun he => Quotient.sound he⟩

@[simp] theorem bucket_cls {h : cfg.Lawful} (k : Key cfg) :
    (k.cls h).bucket = cfg.bucket k.block.bytes := rfl

end Key

/-- What the table keeps for a key. -/
structure Stored (cfg : Config) where
  key : Key cfg
  val : ℕ

abbrev Map (h : cfg.Lawful) := Finmap fun _ : Class h => Stored cfg

inductive Op (cfg : Config)
  | put (key : Key cfg) (val : ℕ)
  | get (key : Key cfg)
  | del (key : Key cfg)
  | lookup (key : Key cfg)

def Op.key : Op cfg → Key cfg
  | .put key _ | .get key | .del key | .lookup key => key

/-- A value pointer, or the key and value of the element found. -/
inductive Res
  | ptr (val : ℕ)
  | elem (e : Option (ℕ × ℕ))
  deriving DecidableEq

/-- One call, on the caller's key block as it stands at the call. -/
def exec (op : Op cfg) (t : Table) : Except Fault (Res × Table) :=
  let s := t.present op.key.addr op.key.block
  match op with
  | .put key val => do
    let r ← put cfg s key.addr val
    .ok (.ptr r.1,r.2)
  | .get key => do
    let v ← get cfg s key.addr
    .ok (.ptr v,s)
  | .del key => do
    let r ← del cfg s key.addr
    .ok (.ptr r.1,r.2)
  | .lookup key => do
    let r ← lookup cfg s key.addr
    match r.1 with
    | none => .ok (.elem none,s)
    | some p =>
      let e ← s.elem p
      .ok (.elem (some (e.key,e.val)),s)

section Spec
variable (h : cfg.Lawful)

/-- The value a finite map holds for a key, or NULL. -/
def valueOf (M : Map h) (key : Key cfg) : ℕ := ((M.lookup (key.cls h)).map Stored.val).getD 0

/-- The finite map. Putting a key that is present keeps the pointer stored first. -/
def spec : Op cfg → Map h → Res × Map h
  | .put key val, M =>
    (.ptr (valueOf h M key),
      M.insert (key.cls h) ⟨((M.lookup (key.cls h)).map Stored.key).getD key,val⟩)
  | .get key, M => (.ptr (valueOf h M key),M)
  | .del key, M => (.ptr (valueOf h M key),M.erase (key.cls h))
  | .lookup key, M => (.elem ((M.lookup (key.cls h)).map fun e => (e.key.addr,e.val)),M)

/-- A stored key block is passed again only as it was stored. -/
def Unmodified (op : Op cfg) (M : Map h) : Prop :=
  ∀ c e, M.lookup c = some e → e.key.addr = op.key.addr → e.key = op.key

/-- What a deletion frees is a live `malloc` block. -/
def FreesOwned : Op cfg → Map h → Prop
  | .del key, M => ∀ e, M.lookup (key.cls h) = some e → e.key.block.owned
  | _, _ => True

/-- A new key is put only where the `int` length can count it. -/
def Fits : Op cfg → Map h → Prop
  | .put key _, M => M.lookup (key.cls h) = none → M.keys.card < 2^31-1
  | _, _ => True

def Legal (op : Op cfg) (M : Map h) : Prop :=
  Unmodified h op M ∧ FreesOwned h op M ∧ Fits h op M

end Spec

/-- An element of a chain, at its address. -/
structure Entry (cfg : Config) extends Stored cfg where
  cell : ℕ

namespace Entry

def link (e : Entry cfg) : ℕ × (ℕ × ℕ) := (e.cell,(e.key.addr,e.val))

def cls (h : cfg.Lawful) (e : Entry cfg) : Class h := e.key.cls h

theorem notMem_link {l : List (Entry cfg)} {a : ℕ} (hl : ∀ e ∈ l, e.cell ≠ a) :
    a ∉ (l.map link).map Prod.fst := by
  rw [List.map_map]
  intro ha
  obtain ⟨e,he,hea⟩ := List.mem_map.mp ha
  exact hl e he hea

end Entry

/-- The elements as cells of linked chains. -/
def Table.cell (s : Table) (a : ℕ) : Option ((ℕ × ℕ) × Option ℕ) :=
  (s.elems a).map fun e => ((e.key,e.val),e.next)

/-- The table holds the map `M`, with bucket `i` chained through the entries `B i`:
every chain holds only keys of its own bucket, no key occurs twice and the length
field counts the keys. -/
structure Represents (h : cfg.Lawful) (s : Table) (M : Map h) (B : ℕ → List (Entry cfg)) :
    Prop where
  heads : s.hash.length = cfg.m
  chain : ∀ i p, s.hash[i]? = some p → Chain s.cell ((B i).map Entry.link) p
  bucket : ∀ i, ∀ e ∈ B i, (e.cls h).bucket = i
  nodup : ∀ i, ((B i).map (Entry.cls h)).Nodup
  lookup : ∀ c st, M.lookup c = some st ↔ ∃ e ∈ B c.bucket, e.cls h = c ∧ e.toStored = st
  length : s.length = M.keys.card
  block : ∀ i, ∀ e ∈ B i, s.keys e.key.addr = some e.key.block
  cell_lt : ∀ i, ∀ e ∈ B i, e.cell < s.fresh
  size_le : ∀ i, (B i).length ≤ s.fresh

/-! ### The heap of elements -/

theorem Table.cell_setElem (s : Table) (p : ℕ) (e : Elem) :
    (s.setElem p (some e)).cell = Function.update s.cell p (some ((e.key,e.val),e.next)) := by
  funext a
  by_cases ha : a = p <;> simp [Table.cell,Table.setElem,Function.update,ha]

theorem Table.cell_setElem_none (s : Table) (p : ℕ) :
    (s.setElem p none).cell = Function.update s.cell p none := by
  funext a
  by_cases ha : a = p <;> simp [Table.cell,Table.setElem,Function.update,ha]

theorem Table.elem_of_cell {s : Table} {p : ℕ} {d : ℕ × ℕ} {n : Option ℕ}
    (h : s.cell p = some (d,n)) : s.elem p = .ok ⟨d.1,d.2,n⟩ := by
  simp only [Table.cell,Option.map_eq_some_iff] at h
  obtain ⟨e,he,hd⟩ := h
  cases hd
  simp [Table.elem,he]

/-- The comparison of one lookup step decides the equality of the two classes. -/
theorem matchKey_eq (h : cfg.Lawful) {s : Table} {e k : Key cfg} (val : ℕ) (n : Option ℕ)
    (he : s.keys e.addr = some e.block) (hk : s.keys k.addr = some k.block) :
    matchKey cfg s ⟨e.addr,val,n⟩ k.addr = .ok (decide (e.cls h = k.cls h)) := by
  obtain ⟨c,hc,hz⟩ := Config.compare_eq e.valid k.valid
  have hd : (c == 0) = decide (e.cls h = k.cls h) := by
    rw [Bool.eq_iff_iff,beq_iff_eq,decide_eq_true_iff,hz,Key.cls_eq]
  simp [matchKey,Table.block,e.addr_ne,he,hk,hc,hd]

section Loop
variable (h : cfg.Lawful) {s : Table} {k : Key cfg} (hk : s.keys k.addr = some k.block)
include hk

/-- Entries of other classes are passed over. -/
theorem lookupLoop_append {l₁ l₂ : List (Entry cfg)} {p : Option ℕ}
    (hc : Chain s.cell ((l₁++l₂).map Entry.link) p)
    (hb : ∀ e ∈ l₁, s.keys e.key.addr = some e.key.block)
    (hn : ∀ e ∈ l₁, e.cls h ≠ k.cls h) (fuel : ℕ) (pr : Option ℕ) :
    ∃ q, Chain s.cell (l₂.map Entry.link) q ∧
      lookupLoop cfg s k.addr (l₁.length+fuel) p pr =
        lookupLoop cfg s k.addr fuel q ((l₁.getLast?.map Entry.cell).or pr) := by
  induction l₁ generalizing p pr with
  | nil => exact ⟨p,hc,by simp⟩
  | cons e l₁ ih =>
    obtain ⟨rfl,n,hcell,hl⟩ := chain_cons.mp hc
    obtain ⟨q,hq,heq⟩ := ih hl (fun x hx => hb x (List.mem_cons_of_mem _ hx))
      (fun x hx => hn x (List.mem_cons_of_mem _ hx)) (some e.cell)
    refine ⟨q,hq,?_⟩
    have hne : e.key.cls h ≠ k.cls h := hn e List.mem_cons_self
    have helem : s.elem e.cell = .ok ⟨e.key.addr,e.val,n⟩ := Table.elem_of_cell hcell
    have hm := matchKey_eq h e.val n (hb e List.mem_cons_self) hk
    have hlast : ((e::l₁).getLast?.map Entry.cell).or pr =
        (l₁.getLast?.map Entry.cell).or (some e.cell) := by
      rcases hl₁ : l₁.getLast? with _ | x
      · simp [List.getLast?_cons,hl₁]
      · simp [List.getLast?_cons,hl₁]
    rw [List.length_cons,show l₁.length+1+fuel = (l₁.length+fuel)+1 by omega,hlast,← heq]
    simp [lookupLoop,Entry.link,helem,hm,hne]

/-- Without an entry of the class the chain is walked to its end. -/
theorem lookupLoop_absent {l : List (Entry cfg)} {p : Option ℕ}
    (hc : Chain s.cell (l.map Entry.link) p)
    (hb : ∀ e ∈ l, s.keys e.key.addr = some e.key.block)
    (hn : ∀ e ∈ l, e.cls h ≠ k.cls h) {fuel : ℕ} (hf : l.length < fuel) (pr : Option ℕ) :
    lookupLoop cfg s k.addr fuel p pr = .ok (none,none) := by
  have hc' : Chain s.cell ((l++[]).map Entry.link) p := by simpa using hc
  obtain ⟨q,hq,heq⟩ := lookupLoop_append h hk hc' hb hn (fuel-l.length) pr
  obtain ⟨f,hf'⟩ : ∃ f, fuel-l.length = f+1 := ⟨fuel-l.length-1,by omega⟩
  rw [show l.length+(fuel-l.length) = fuel by omega,hf'] at heq
  rw [heq,show q = none from hq,lookupLoop]

/-- The first entry of the class is found, with its predecessor. -/
theorem lookupLoop_present {l₁ l₂ : List (Entry cfg)} {e : Entry cfg} {p : Option ℕ}
    (hc : Chain s.cell ((l₁++e::l₂).map Entry.link) p)
    (hb : ∀ x ∈ l₁++e::l₂, s.keys x.key.addr = some x.key.block)
    (hn : ∀ x ∈ l₁, x.cls h ≠ k.cls h) (he : e.cls h = k.cls h) {fuel : ℕ}
    (hf : l₁.length < fuel) :
    lookupLoop cfg s k.addr fuel p none = .ok (some e.cell,l₁.getLast?.map Entry.cell) := by
  obtain ⟨q,hq,heq⟩ := lookupLoop_append h hk hc
    (fun x hx => hb x (List.mem_append_left _ hx)) hn (fuel-l₁.length) none
  obtain ⟨f,hf'⟩ : ∃ f, fuel-l₁.length = f+1 := ⟨fuel-l₁.length-1,by omega⟩
  rw [show l₁.length+(fuel-l₁.length) = fuel by omega,hf'] at heq
  obtain ⟨rfl,n,hcell,-⟩ := chain_cons.mp hq
  have helem : s.elem e.cell = .ok ⟨e.key.addr,e.val,n⟩ := Table.elem_of_cell hcell
  have hm := matchKey_eq h e.val n (hb e (by simp)) hk
  have he' : e.key.cls h = k.cls h := he
  rw [heq]
  simp [lookupLoop,Entry.link,helem,hm,he']

end Loop

/-! ### The representation -/

theorem Class.bucket_lt {h : cfg.Lawful} (c : Class h) : c.bucket < cfg.m :=
  Quotient.inductionOn (s := h.setoid) c fun a => (h.hash_eq a.2).2

theorem keys_insert {α : Type*} {β : α → Type*} [DecidableEq α] (a : α) (b : β a)
    (M : Finmap β) : (M.insert a b).keys = insert a M.keys := by
  ext x
  simp [Finmap.mem_keys,Finmap.mem_insert]

theorem mem_keys_of_lookup {α : Type*} {β : α → Type*} [DecidableEq α] {a : α} {b : β a}
    {M : Finmap β} (hM : M.lookup a = some b) : a ∈ M.keys := by
  rw [Finmap.mem_keys,← Finmap.lookup_isSome,hM]
  rfl

theorem hashKey_eq (h : cfg.Lawful) {s : Table} {k : Key cfg}
    (hk : s.keys k.addr = some k.block) : hashKey cfg s k.addr = .ok (k.cls h).bucket := by
  simp [hashKey,Table.block,hk,(h.hash_eq k.valid).1]

namespace Represents
variable {h : cfg.Lawful} {s : Table} {M : Map h} {B : ℕ → List (Entry cfg)}

theorem init : Represents h (new cfg) ∅ fun _ => [] where
  heads := by simp [new]
  chain := fun i p hp => by
    simp only [new,List.getElem?_replicate,Option.ite_none_right_eq_some,Option.some.injEq] at hp
    exact hp.2.symm
  bucket := fun i e he => by simp at he
  nodup := fun i => List.nodup_nil
  lookup := fun c st => by simp
  length := by simp [new]
  block := fun i e he => by simp at he
  cell_lt := fun i e he => by simp at he
  size_le := fun i => Nat.zero_le _

variable (R : Represents h s M B)
include R

theorem head_eq {i : ℕ} (hi : i < cfg.m) :
    ∃ p, s.hash[i]? = some p ∧ s.head i = .ok p ∧ Chain s.cell ((B i).map Entry.link) p := by
  rw [← R.heads] at hi
  have hp : s.hash[i]? = some s.hash[i] := List.getElem?_eq_getElem hi
  exact ⟨_,hp,by simp [Table.head,hp],R.chain i _ hp⟩

theorem cell_eq {i : ℕ} {e : Entry cfg} (he : e ∈ B i) :
    ∃ n, s.cell e.cell = some ((e.key.addr,e.val),n) := by
  have hi : i < cfg.m := R.bucket i e he ▸ Class.bucket_lt _
  obtain ⟨p,-,-,hc⟩ := R.head_eq hi
  exact hc.cell_of_mem (List.mem_map_of_mem he)

theorem eq_of_cls {i j : ℕ} {e e' : Entry cfg} (he : e ∈ B i) (he' : e' ∈ B j)
    (hc : e.cls h = e'.cls h) : e = e' := by
  have hij : i = j := by rw [← R.bucket i e he,← R.bucket j e' he',hc]
  subst hij
  exact List.inj_on_of_nodup_map (R.nodup i) he he' hc

theorem eq_of_addr {i j : ℕ} {e e' : Entry cfg} (he : e ∈ B i) (he' : e' ∈ B j)
    (ha : e.key.addr = e'.key.addr) : e = e' := by
  have hb : e.key.block = e'.key.block := by
    rw [← Option.some_inj,← R.block i e he,← R.block j e' he',ha]
  refine R.eq_of_cls he he' (Key.cls_eq.mpr ?_)
  rw [← hb]
  exact h.refl _ e.key.valid

theorem eq_of_cell {i j : ℕ} {e e' : Entry cfg} (he : e ∈ B i) (he' : e' ∈ B j)
    (hc : e.cell = e'.cell) : e = e' := by
  obtain ⟨n,hn⟩ := R.cell_eq he
  obtain ⟨n',hn'⟩ := R.cell_eq he'
  rw [hc,hn'] at hn
  have ha : e'.key.addr = e.key.addr := by
    simp only [Option.some.injEq,Prod.mk.injEq] at hn
    exact hn.1.1
  exact R.eq_of_addr he he' ha.symm

omit R in
theorem mem_of_split {i : ℕ} {l₁ l₂ : List (Entry cfg)} {e : Entry cfg} (hB : B i = l₁++e::l₂) :
    ∀ x ∈ l₁++l₂, x ∈ B i := by
  intro x hx
  rw [hB]
  simp only [List.mem_append,List.mem_cons] at hx ⊢
  tauto

omit R in
/-- An entry of another key is another entry. -/
theorem mem_split_of_cls_ne {i : ℕ} {l₁ l₂ : List (Entry cfg)} {e x : Entry cfg}
    (hB : B i = l₁++e::l₂) (hx : x ∈ B i) (hne : x.cls h ≠ e.cls h) : x ∈ l₁++l₂ := by
  rw [hB,List.mem_append,List.mem_cons] at hx
  rw [List.mem_append]
  rcases hx with hx | rfl | hx
  · exact .inl hx
  · exact absurd rfl hne
  · exact .inr hx

/-- An entry is a cell of its chain, and the entries behind it are chained from its `next`. -/
theorem elem_of_split {c : Class h} {l₁ l₂ : List (Entry cfg)} {e : Entry cfg}
    (hB : B c.bucket = l₁++e::l₂) :
    ∃ p n, s.hash[c.bucket]? = some p ∧
      Chain s.cell (l₁.map Entry.link++e.link::l₂.map Entry.link) p ∧
      Chain s.cell (l₂.map Entry.link) n ∧ s.elem e.cell = .ok ⟨e.key.addr,e.val,n⟩ := by
  obtain ⟨p,hp,-,hc⟩ := R.head_eq c.bucket_lt
  rw [hB,List.map_append,List.map_cons] at hc
  obtain ⟨n,hcell,hl₂⟩ := hc.cell_of_split
  exact ⟨p,n,hp,hc,hl₂,Table.elem_of_cell hcell⟩

/-- The other entries of a chain have other keys at other addresses. -/
theorem ne_of_split {i : ℕ} {l₁ l₂ : List (Entry cfg)} {e : Entry cfg} (hB : B i = l₁++e::l₂) :
    ∀ x ∈ l₁++l₂, x.cls h ≠ e.cls h ∧ x.cell ≠ e.cell ∧ x.key.addr ≠ e.key.addr := fun x hx => by
  have hxB : x ∈ B i := mem_of_split hB x hx
  have heB : e ∈ B i := by simp [hB]
  have hnodup := R.nodup i
  rw [hB,List.map_append,List.map_cons,List.nodup_middle,List.nodup_cons,← List.map_append] at hnodup
  have hne : x.cls h ≠ e.cls h := fun hc => hnodup.1 (hc ▸ List.mem_map_of_mem hx)
  refine ⟨hne,fun hc => hne ?_,fun ha => hne ?_⟩
  · rw [R.eq_of_cell hxB heB hc]
  · rw [R.eq_of_addr hxB heB ha]

/-- Passing a key block leaves the stored blocks as they are. -/
theorem present {op : Op cfg} (hU : Unmodified h op M) :
    Represents h (s.present op.key.addr op.key.block) M B where
  heads := R.heads
  chain := R.chain
  bucket := R.bucket
  nodup := R.nodup
  lookup := R.lookup
  length := R.length
  block := fun i e he => by
    by_cases ha : e.key.addr = op.key.addr
    · have hM : M.lookup (e.cls h) = some e.toStored :=
        (R.lookup _ _).mpr ⟨e,by rw [R.bucket i e he]; exact he,rfl,rfl⟩
      have hk := hU _ _ hM ha
      simp [Table.present,hk]
    · simp [Table.present,Function.update,ha,R.block i e he]
  cell_lt := R.cell_lt
  size_le := R.size_le

section Lookup
variable {k : Key cfg} (hk : s.keys k.addr = some k.block)
include hk

theorem lookup_none (hM : M.lookup (k.cls h) = none) :
    AntHash.lookup cfg s k.addr = .ok (none,none) := by
  obtain ⟨p,-,hp,hc⟩ := R.head_eq (k.cls h).bucket_lt
  have hn : ∀ e ∈ B (k.cls h).bucket, e.cls h ≠ k.cls h := fun e he heq => by
    have hs := (R.lookup (k.cls h) e.toStored).mpr ⟨e,he,heq,rfl⟩
    rw [hM] at hs
    cases hs
  have hl := lookupLoop_absent h hk hc (R.block _) hn (Nat.lt_succ_of_le (R.size_le _)) none
  simp only [AntHash.lookup,hashKey_eq h hk,hp,ok_bind]
  exact hl

theorem lookup_some {st : Stored cfg} (hM : M.lookup (k.cls h) = some st) :
    ∃ l₁ e l₂, B (k.cls h).bucket = l₁++e::l₂ ∧ e.cls h = k.cls h ∧ e.toStored = st ∧
      AntHash.lookup cfg s k.addr = .ok (some e.cell,l₁.getLast?.map Entry.cell) := by
  obtain ⟨e,he,hcls,hst⟩ := (R.lookup _ _).mp hM
  obtain ⟨l₁,l₂,hsplit⟩ := List.append_of_mem he
  obtain ⟨p,-,hp,hc⟩ := R.head_eq (k.cls h).bucket_lt
  have hnodup := R.nodup (k.cls h).bucket
  have hsize := R.size_le (k.cls h).bucket
  rw [hsplit] at hc hnodup hsize
  have hn : ∀ x ∈ l₁, x.cls h ≠ k.cls h := fun x hx heq => by
    rw [List.map_append,List.nodup_append] at hnodup
    refine hnodup.2.2 _ (List.mem_map_of_mem hx) (e.cls h) (by simp) ?_
    rw [heq,hcls]
  have hfuel : l₁.length < s.fresh+1 := by
    simp only [List.length_append,List.length_cons] at hsize
    omega
  have hl := lookupLoop_present h hk hc (hsplit ▸ R.block _) hn hcls hfuel
  refine ⟨l₁,e,l₂,hsplit,hcls,hst,?_⟩
  simp only [AntHash.lookup,hashKey_eq h hk,hp,ok_bind]
  exact hl

end Lookup

/-- Rewriting the chain of one class's bucket. -/
theorem modify {s' : Table} {M' : Map h} {c : Class h} {l : List (Entry cfg)}
    (hheads : s'.hash.length = s.hash.length)
    (hhead : ∀ j ≠ c.bucket, s'.hash[j]? = s.hash[j]?) (hfresh : s.fresh ≤ s'.fresh)
    (hcell : ∀ j ≠ c.bucket, ∀ e ∈ B j, s'.cell e.cell = s.cell e.cell)
    (hblock : ∀ j ≠ c.bucket, ∀ e ∈ B j, s'.keys e.key.addr = s.keys e.key.addr)
    (hl : ∀ e ∈ l, (e.cls h).bucket = c.bucket ∧ s'.keys e.key.addr = some e.key.block ∧
      e.cell < s'.fresh)
    (hsize : l.length ≤ s'.fresh) (hnodup : (l.map (Entry.cls h)).Nodup)
    (hchain : ∀ p, s'.hash[c.bucket]? = some p → Chain s'.cell (l.map Entry.link) p)
    (hother : ∀ x ≠ c, M'.lookup x = M.lookup x)
    (hsame : ∀ e, e.cls h ≠ c → (e ∈ l ↔ e ∈ B c.bucket))
    (hself : ∀ st, M'.lookup c = some st ↔ ∃ e ∈ l, e.cls h = c ∧ e.toStored = st)
    (hlength : s'.length = M'.keys.card) :
    Represents h s' M' (Function.update B c.bucket l) where
  heads := hheads.trans R.heads
  length := hlength
  chain := by
    refine (Function.forall_update_iff B fun j l => ∀ p, s'.hash[j]? = some p →
      Chain s'.cell (l.map Entry.link) p).mpr ⟨hchain,fun j hj p hp => ?_⟩
    rw [hhead j hj] at hp
    refine (R.chain j p hp).frame fun a ha => ?_
    obtain ⟨x,hx,rfl⟩ := List.mem_map.mp ha
    obtain ⟨e,he,rfl⟩ := List.mem_map.mp hx
    exact hcell j hj e he
  bucket := (Function.forall_update_iff B fun j l => ∀ e ∈ l, (e.cls h).bucket = j).mpr
    ⟨fun e he => (hl e he).1,fun j _ => R.bucket j⟩
  nodup := (Function.forall_update_iff B fun _ l => (l.map (Entry.cls h)).Nodup).mpr
    ⟨hnodup,fun j _ => R.nodup j⟩
  lookup := fun x st => by
    rcases eq_or_ne x c with rfl | hc
    · rw [Function.update_self]
      exact hself st
    rw [hother x hc,R.lookup x st]
    rcases eq_or_ne x.bucket c.bucket with hcb | hcb
    · rw [hcb,Function.update_self]
      refine exists_congr fun e => ⟨fun ⟨he,hec,hs⟩ => ?_,fun ⟨he,hec,hs⟩ => ?_⟩
      · exact ⟨(hsame e (hec ▸ hc)).mpr he,hec,hs⟩
      · exact ⟨(hsame e (hec ▸ hc)).mp he,hec,hs⟩
    · rw [Function.update_of_ne hcb]
  block := by
    refine (Function.forall_update_iff B fun _ l => ∀ e ∈ l, s'.keys e.key.addr = some e.key.block).mpr
      ⟨fun e he => (hl e he).2.1,fun j hj e he => ?_⟩
    rw [hblock j hj e he]
    exact R.block j e he
  cell_lt := (Function.forall_update_iff B fun _ l => ∀ e ∈ l, e.cell < s'.fresh).mpr
    ⟨fun e he => (hl e he).2.2,fun j _ e he => (R.cell_lt j e he).trans_le hfresh⟩
  size_le := (Function.forall_update_iff B fun _ l => l.length ≤ s'.fresh).mpr
    ⟨hsize,fun j _ => (R.size_le j).trans hfresh⟩

theorem notMem_of_lookup {k : Key cfg} (hM : M.lookup (k.cls h) = none) :
    k.cls h ∉ (B (k.cls h).bucket).map (Entry.cls h) := fun hc => by
  obtain ⟨e,he,heq⟩ := List.mem_map.mp hc
  have hs := (R.lookup (k.cls h) e.toStored).mpr ⟨e,he,heq,rfl⟩
  rw [hM] at hs
  cases hs

/-- Putting a new key chains a new element at the head of its bucket. -/
theorem put_none {k : Key cfg} (val : ℕ) (hk : s.keys k.addr = some k.block)
    (hM : M.lookup (k.cls h) = none) (hfit : M.keys.card < 2^31-1) :
    ∃ s' B', put cfg s k.addr val = .ok (0,s') ∧
      Represents h s' (M.insert (k.cls h) ⟨k,val⟩) B' := by
  obtain ⟨p,hp,hhead,hc⟩ := R.head_eq (k.cls h).bucket_lt
  have hlen : s.length < 2^31-1 := by rw [R.length]; omega
  refine ⟨{ (s.setElem s.fresh (some ⟨k.addr,val,p⟩)).setHead (k.cls h).bucket (some s.fresh) with
      fresh := s.fresh+1, length := s.length+1 },
    Function.update B (k.cls h).bucket (⟨⟨k,val⟩,s.fresh⟩::B (k.cls h).bucket),?_,?_⟩
  · simp only [put,R.lookup_none hk hM,hashKey_eq h hk,hhead,ok_bind,if_pos hlen]
  have hfresh : s.fresh ∉ ((B (k.cls h).bucket).map Entry.link).map Prod.fst :=
    Entry.notMem_link fun e he => (R.cell_lt _ e he).ne
  have hi : (k.cls h).bucket < s.hash.length := by rw [R.heads]; exact Class.bucket_lt _
  refine R.modify (c := k.cls h) ?_ ?_ (Nat.le_succ _) ?_ (fun _ _ _ _ => rfl) ?_ ?_ ?_ ?_ ?_ ?_ ?_ ?_
  · simp [Table.setHead,Table.setElem]
  · exact fun j hj => List.getElem?_set_ne hj.symm
  · intro j hj e he
    show (s.setElem s.fresh _).cell e.cell = _
    rw [Table.cell_setElem,Function.update_of_ne (R.cell_lt j e he).ne]
  · intro e he
    rcases List.mem_cons.mp he with rfl | he
    · exact ⟨rfl,hk,Nat.lt_succ_self _⟩
    · exact ⟨R.bucket _ e he,R.block _ e he,(R.cell_lt _ e he).trans (Nat.lt_succ_self _)⟩
  · exact Nat.succ_le_succ (R.size_le _)
  · exact List.nodup_cons.mpr ⟨R.notMem_of_lookup hM,R.nodup _⟩
  · intro q hq
    change (s.hash.set (k.cls h).bucket (some s.fresh))[(k.cls h).bucket]? = some q at hq
    rw [List.getElem?_set_self hi] at hq
    cases hq
    show Chain (s.setElem s.fresh _).cell _ _
    rw [Table.cell_setElem]
    exact hc.push hfresh
  · exact fun c hc => Finmap.lookup_insert_of_ne _ hc
  · refine fun e he => ⟨fun hm => (List.mem_cons.mp hm).resolve_left ?_,List.mem_cons_of_mem _⟩
    rintro rfl
    exact he rfl
  · intro st
    rw [Finmap.lookup_insert]
    constructor
    · rintro ⟨⟩
      exact ⟨_,List.mem_cons_self,rfl,rfl⟩
    · rintro ⟨e,he,hcls,rfl⟩
      rcases List.mem_cons.mp he with rfl | he
      · rfl
      · exact absurd (List.mem_map.mpr ⟨e,he,hcls⟩) (R.notMem_of_lookup hM)
  · show s.length+1 = _
    rw [keys_insert,Finset.card_insert_of_notMem (by rwa [Finmap.mem_keys,← Finmap.lookup_eq_none]),
      R.length]
    push_cast
    rfl

/-- Entries of other buckets lie elsewhere. -/
theorem ne_of_bucket {i j : ℕ} {e e' : Entry cfg} (he : e ∈ B i) (he' : e' ∈ B j) (hij : j ≠ i) :
    e'.cell ≠ e.cell ∧ e'.key.addr ≠ e.key.addr := by
  have hne : e' ≠ e := by
    rintro rfl
    exact hij ((R.bucket j _ he').symm.trans (R.bucket i _ he))
  exact ⟨fun hc => hne (R.eq_of_cell he' he hc),fun ha => hne (R.eq_of_addr he' he ha)⟩

/-- Putting a key that is present replaces its value. -/
theorem put_some {k : Key cfg} {st : Stored cfg} (val : ℕ) (hk : s.keys k.addr = some k.block)
    (hM : M.lookup (k.cls h) = some st) :
    ∃ s' B', put cfg s k.addr val = .ok (st.val,s') ∧
      Represents h s' (M.insert (k.cls h) ⟨st.key,val⟩) B' := by
  obtain ⟨l₁,e,l₂,hB,hcls,rfl,hlookup⟩ := R.lookup_some hk hM
  obtain ⟨p,n,hp,hc,hl₂,helem⟩ := R.elem_of_split hB
  have heB : e ∈ B (k.cls h).bucket := hB ▸ List.mem_append_right _ List.mem_cons_self
  have hne := R.ne_of_split hB
  have hcell' := s.cell_setElem e.cell ⟨e.key.addr,val,n⟩
  have hmem : ∀ x, x ∈ l₁++⟨⟨e.key,val⟩,e.cell⟩::l₂ → x = ⟨⟨e.key,val⟩,e.cell⟩ ∨ x ∈ l₁++l₂ := by
    intro x hx
    simp only [List.mem_append,List.mem_cons] at hx ⊢
    tauto
  have hmemB := mem_of_split hB
  refine ⟨s.setElem e.cell (some ⟨e.key.addr,val,n⟩),
    Function.update B (k.cls h).bucket (l₁++⟨⟨e.key,val⟩,e.cell⟩::l₂),?_,?_⟩
  · simp only [put,hlookup,helem,ok_bind]
  refine R.modify (c := k.cls h) rfl (fun _ _ => rfl) le_rfl ?_ (fun _ _ _ _ => rfl) ?_ ?_ ?_ ?_ ?_ ?_ ?_ ?_
  · intro j hj x hx
    rw [hcell',Function.update_of_ne (R.ne_of_bucket heB hx hj).1]
  · intro x hx
    rcases hmem x hx with rfl | hx
    · exact ⟨R.bucket _ e heB,R.block _ e heB,R.cell_lt _ e heB⟩
    · exact ⟨R.bucket _ x (hmemB x hx),R.block _ x (hmemB x hx),R.cell_lt _ x (hmemB x hx)⟩
  · have hsize := R.size_le (k.cls h).bucket
    rw [hB,List.length_append,List.length_cons] at hsize
    rwa [List.length_append,List.length_cons]
  · have hnodup := R.nodup (k.cls h).bucket
    rw [hB,List.map_append,List.map_cons] at hnodup
    rwa [List.map_append,List.map_cons]
  · intro q hq
    rw [show q = p from Option.some_inj.mp (hq.symm.trans hp),hcell',List.map_append,List.map_cons]
    refine hc.splice hl₂ (Entry.notMem_link fun x hx => ?_) (Entry.notMem_link fun x hx => ?_)
    · exact (hne x (List.mem_append_left _ hx)).2.1
    · exact (hne x (List.mem_append_right _ hx)).2.1
  · exact fun c hcne => Finmap.lookup_insert_of_ne _ hcne
  · refine fun x hx => ⟨fun hm => hmemB x ((hmem x hm).resolve_left ?_),fun hm => ?_⟩
    · rintro rfl
      exact hx hcls
    · rw [List.mem_append,List.mem_cons]
      rcases List.mem_append.mp (mem_split_of_cls_ne hB hm fun hc => hx (hc.trans hcls)) with hm | hm
      · exact .inl hm
      · exact .inr (.inr hm)
  · intro st
    rw [Finmap.lookup_insert]
    constructor
    · rintro ⟨⟩
      exact ⟨⟨⟨e.key,val⟩,e.cell⟩,by simp,hcls,rfl⟩
    · rintro ⟨x,hx,hxc,rfl⟩
      rcases hmem x hx with rfl | hx
      · rfl
      · exact absurd (hxc.trans hcls.symm) (hne x hx).1
  · show s.length = _
    rw [keys_insert,Finset.insert_eq_self.mpr (mem_keys_of_lookup hM),R.length]

/-- Unlinking an entry touches only its bucket's head and the cells before it. -/
theorem unlink_eq {c : Class h} {l₁ l₂ : List (Entry cfg)} {e : Entry cfg} {n : Option ℕ}
    (hB : B c.bucket = l₁++e::l₂) (hl₂ : Chain s.cell (l₂.map Entry.link) n) :
    ∃ s₁, unlink s c.bucket n (l₁.getLast?.map Entry.cell) = .ok s₁ ∧
      s₁.hash.length = s.hash.length ∧ (∀ j ≠ c.bucket, s₁.hash[j]? = s.hash[j]?) ∧
      s₁.fresh = s.fresh ∧ s₁.length = s.length ∧ s₁.keys = s.keys ∧
      (∀ a, (∀ x ∈ l₁, a ≠ x.cell) → s₁.cell a = s.cell a) ∧
      ∀ p, s₁.hash[c.bucket]? = some p → Chain s₁.cell ((l₁++l₂).map Entry.link) p := by
  obtain ⟨_,-,hhead,-⟩ := R.head_eq c.bucket_lt
  rcases List.eq_nil_or_concat l₁ with rfl | ⟨l₀,f,rfl⟩
  · -- the head of the bucket: only the bucket changes
    have hi : c.bucket < s.hash.length := by rw [R.heads]; exact c.bucket_lt
    refine ⟨s.setHead c.bucket n,by simp [unlink,hhead],by simp [Table.setHead],
      fun j hj => List.getElem?_set_ne hj.symm,rfl,rfl,rfl,fun _ _ => rfl,fun q hq => ?_⟩
    change (s.hash.set c.bucket n)[c.bucket]? = some q at hq
    rw [List.getElem?_set_self hi] at hq
    cases hq
    exact hl₂
  · -- after a predecessor: only its `next` changes
    have hB' : B c.bucket = l₀++f::(e::l₂) := by simp [hB]
    have hne := R.ne_of_split hB'
    obtain ⟨p,m,hp,hc,-,helem⟩ := R.elem_of_split hB'
    have hcell' := s.cell_setElem f.cell ⟨f.key.addr,f.val,n⟩
    refine ⟨s.setElem f.cell (some ⟨f.key.addr,f.val,n⟩),by simp [unlink,helem],rfl,
      fun _ _ => rfl,rfl,rfl,rfl,fun a ha => ?_,fun q hq => ?_⟩
    · rw [hcell',Function.update_of_ne (ha f (by simp))]
    · rw [show q = p from Option.some_inj.mp (hq.symm.trans hp),hcell']
      simp only [List.concat_eq_append,List.append_assoc,List.singleton_append,List.map_append,
        List.map_cons]
      refine hc.splice hl₂ (Entry.notMem_link fun x hx => ?_) (Entry.notMem_link fun x hx => ?_)
      · exact (hne x (List.mem_append_left _ hx)).2.1
      · exact (hne x (by simp [hx])).2.1

/-- Deleting a key that is present unlinks its element and frees its block. -/
theorem del_some {k : Key cfg} {st : Stored cfg} (hk : s.keys k.addr = some k.block)
    (hM : M.lookup (k.cls h) = some st) (hfree : st.key.block.owned) :
    ∃ s' B', del cfg s k.addr = .ok (st.val,s') ∧
      Represents h s' (M.erase (k.cls h)) B' := by
  obtain ⟨l₁,e,l₂,hB,hcls,rfl,hlookup⟩ := R.lookup_some hk hM
  obtain ⟨-,n,-,-,hl₂,helem⟩ := R.elem_of_split hB
  have heB : e ∈ B (k.cls h).bucket := hB ▸ List.mem_append_right _ List.mem_cons_self
  have hne := R.ne_of_split hB
  obtain ⟨s₁,hunlink,hheads,hhead,hfresh,hlength,hkeys,hcells,hchain⟩ := R.unlink_eq hB hl₂
  have hkey : s₁.keys e.key.addr = some e.key.block := by rw [hkeys]; exact R.block _ e heB
  have hmemB := mem_of_split hB
  have hcell' := s₁.cell_setElem_none e.cell
  let s₂ : Table := { s₁ with keys := Function.update s₁.keys e.key.addr none }
  have hfreeKey : s₁.freeKey e.key.addr = .ok s₂ := by
    simp [Table.freeKey,Table.block,hkey,hfree,s₂]
  refine ⟨{ s₂.setElem e.cell none with length := s₂.length-1 },
    Function.update B (k.cls h).bucket (l₁++l₂),?_,?_⟩
  · simp only [del,hlookup,hashKey_eq h hk,helem,hunlink,hfreeKey,ok_bind]
  refine R.modify (c := k.cls h) hheads hhead hfresh.ge ?_ ?_ ?_ ?_ ?_ ?_ ?_ ?_ ?_ ?_
  · intro j hj x hx
    have hx₁ : ∀ y ∈ l₁, x.cell ≠ y.cell := fun y hy =>
      (R.ne_of_bucket (hmemB y (List.mem_append_left _ hy)) hx hj).1
    change (s₁.setElem e.cell none).cell x.cell = _
    rw [hcell',Function.update_of_ne (R.ne_of_bucket heB hx hj).1,hcells _ hx₁]
  · intro j hj x hx
    change Function.update s₁.keys e.key.addr none x.key.addr = _
    rw [Function.update_of_ne (R.ne_of_bucket heB hx hj).2,hkeys]
  · intro x hx
    refine ⟨R.bucket _ x (hmemB x hx),?_,(R.cell_lt _ x (hmemB x hx)).trans_eq hfresh.symm⟩
    change Function.update s₁.keys e.key.addr none x.key.addr = _
    rw [Function.update_of_ne (hne x hx).2.2,hkeys]
    exact R.block _ x (hmemB x hx)
  · have hsize := R.size_le (k.cls h).bucket
    rw [hB,List.length_append,List.length_cons] at hsize
    change (l₁++l₂).length ≤ s₁.fresh
    rw [List.length_append,hfresh]
    omega
  · have hnodup := R.nodup (k.cls h).bucket
    rw [hB,List.map_append,List.map_cons,List.nodup_middle,List.nodup_cons] at hnodup
    rw [List.map_append]
    exact hnodup.2
  · intro q hq
    change Chain (s₁.setElem e.cell none).cell _ _
    rw [hcell']
    exact (hchain q hq).update_of_notMem (Entry.notMem_link fun x hx => (hne x hx).2.1)
  · exact fun c hcne => Finmap.lookup_erase_ne hcne
  · exact fun x hx => ⟨hmemB x,fun hm => mem_split_of_cls_ne hB hm fun hc => hx (hc.trans hcls)⟩
  · intro st
    rw [Finmap.lookup_erase]
    refine ⟨fun hs => (by cases hs),fun ⟨x,hx,hxc,_⟩ => ?_⟩
    exact absurd (hxc.trans hcls.symm) (hne x hx).1
  · have hkM := mem_keys_of_lookup hM
    have hpos := Finset.card_pos.mpr ⟨_,hkM⟩
    change s₁.length-1 = _
    rw [Finmap.keys_erase,Finset.card_erase_of_mem hkM,hlength,R.length]
    omega

/-- Without room in the `int` length a new key cannot be counted. -/
theorem put_full {k : Key cfg} (val : ℕ) (hk : s.keys k.addr = some k.block)
    (hM : M.lookup (k.cls h) = none) (hfull : M.keys.card = 2^31-1) :
    put cfg s k.addr val = .error .undefined := by
  obtain ⟨p,-,hhead,-⟩ := R.head_eq (k.cls h).bucket_lt
  have hlen : ¬s.length < 2^31-1 := by rw [R.length]; omega
  simp only [put,R.lookup_none hk hM,hashKey_eq h hk,hhead,ok_bind,if_neg hlen]

end Represents

/-! ### Runs -/

/-- Every call the caller may make refines the finite map. -/
theorem exec_refines (h : cfg.Lawful) :
    Refines exec (spec h) (Legal h) fun s M => ∃ B, Represents h s M B := by
  rintro op s M ⟨B,R⟩ ⟨hU,hO,hF⟩
  have R' := R.present hU
  have hk : (s.present op.key.addr op.key.block).keys op.key.addr = some op.key.block := by
    simp [Table.present]
  rcases op with ⟨k,val⟩ | k | k | k <;> simp only [Op.key] at R' hk <;>
    rcases hM : M.lookup (k.cls h) with _ | st
  · obtain ⟨s',B',hput,hR⟩ := R'.put_none val hk hM (hF hM)
    exact ⟨s',by simp [exec,Op.key,hput,spec,valueOf,hM],B',by simpa [spec,hM] using hR⟩
  · obtain ⟨s',B',hput,hR⟩ := R'.put_some val hk hM
    exact ⟨s',by simp [exec,Op.key,hput,spec,valueOf,hM],B',by simpa [spec,hM] using hR⟩
  · have hl := R'.lookup_none hk hM
    exact ⟨s.present k.addr k.block,by simp [exec,Op.key,get,hl,spec,valueOf,hM],B,R'⟩
  · obtain ⟨l₁,e,l₂,hB,hcls,rfl,hl⟩ := R'.lookup_some hk hM
    obtain ⟨n,hn⟩ := R'.cell_eq (hB ▸ List.mem_append_right _ List.mem_cons_self)
    have helem := Table.elem_of_cell hn
    exact ⟨s.present k.addr k.block,by simp [exec,Op.key,get,hl,helem,spec,valueOf,hM],B,R'⟩
  · have hl := R'.lookup_none hk hM
    have herase : M.erase (k.cls h) = M := Finmap.ext_lookup fun c => by
      by_cases hc : c = k.cls h
      · rw [hc,Finmap.lookup_erase,hM]
      · rw [Finmap.lookup_erase_ne hc]
    exact ⟨s.present k.addr k.block,by simp [exec,Op.key,del,hl,spec,valueOf,hM],B,by simpa [spec,herase] using R'⟩
  · obtain ⟨s',B',hdel,hR⟩ := R'.del_some hk hM (hO st hM)
    exact ⟨s',by simp [exec,Op.key,hdel,spec,valueOf,hM],B',hR⟩
  · have hl := R'.lookup_none hk hM
    exact ⟨s.present k.addr k.block,by simp [exec,Op.key,hl,spec,hM],B,R'⟩
  · obtain ⟨l₁,e,l₂,hB,hcls,rfl,hl⟩ := R'.lookup_some hk hM
    obtain ⟨n,hn⟩ := R'.cell_eq (hB ▸ List.mem_append_right _ List.mem_cons_self)
    have helem := Table.elem_of_cell hn
    exact ⟨s.present k.addr k.block,by simp [exec,Op.key,hl,helem,spec,hM],B,R'⟩

/-- On a fresh table every sequence of calls has the results of a finite map and
leaves a table that represents it. -/
theorem table_is_finite_map (h : cfg.Lawful) (ops : List (Op cfg))
    (hl : LegalRun (Legal h) (spec h) ops ∅) :
    ∃ s B, runs exec ops (new cfg) = .ok ((replay (spec h) ops ∅).1,s) ∧
      Represents h s (replay (spec h) ops ∅).2 B := by
  obtain ⟨s,hs,B,hB⟩ := (exec_refines h).runs ops (new cfg) ∅ ⟨_,.init⟩ hl
  exact ⟨s,B,hs,hB⟩

/-! ### Legal clients -/

section Client
variable {h : cfg.Lawful} {S : Set (Key cfg)} {M : Map h} {op : Op cfg}

/-- Every key the map keeps comes from `S`. -/
def Uses (S : Set (Key cfg)) (M : Map h) : Prop := ∀ c e, M.lookup c = some e → e.key ∈ S

theorem uses_empty : Uses S (∅ : Map h) := fun c e he => by simp at he

theorem Uses.spec (hM : Uses S M) (hop : op.key ∈ S) : Uses S (spec h op M).2 := by
  intro c e he
  rcases op with ⟨k,val⟩ | k | k | k
  · change (M.insert (k.cls h) _).lookup c = some e at he
    by_cases hc : c = k.cls h
    · subst hc
      rw [Finmap.lookup_insert] at he
      cases he
      rcases hk : M.lookup (k.cls h) with _ | st
      · exact hop
      · have hst : st.key ∈ S := hM _ st hk
        exact hst
    · rw [Finmap.lookup_insert_of_ne _ hc] at he
      exact hM c e he
  · exact hM c e he
  · change (M.erase (k.cls h)).lookup c = some e at he
    by_cases hc : c = k.cls h
    · rw [hc,Finmap.lookup_erase] at he
      cases he
    · rw [Finmap.lookup_erase_ne hc] at he
      exact hM c e he
  · exact hM c e he

theorem card_spec_le (op : Op cfg) (M : Map h) : (spec h op M).2.keys.card ≤ M.keys.card+1 := by
  rcases op with ⟨k,val⟩ | k | k | k
  · change (M.insert (k.cls h) _).keys.card ≤ _
    rw [keys_insert]
    exact Finset.card_insert_le _ _
  · exact Nat.le_succ _
  · change (M.erase (k.cls h)).keys.card ≤ _
    rw [Finmap.keys_erase]
    exact (Finset.card_erase_le).trans (Nat.le_succ _)
  · exact Nat.le_succ _

theorem Uses.unmodified (hM : Uses S M) (hS : S.InjOn Key.addr) (hop : op.key ∈ S) :
    Unmodified h op M := fun c e he ha => hS (hM c e he) hop ha

/-- Blocks kept at distinct addresses are never passed modified. -/
theorem legalRun_unmodified (hS : S.InjOn Key.addr) {ops : List (Op cfg)}
    (hops : ∀ op ∈ ops, op.key ∈ S) (hM : Uses S M) :
    LegalRun (Unmodified h) (spec h) ops M := by
  induction ops generalizing M with
  | nil => trivial
  | cons op ops ih =>
    have hop := hops op List.mem_cons_self
    exact ⟨hM.unmodified hS hop,ih (fun x hx => hops x (List.mem_cons_of_mem _ hx)) (hM.spec hop)⟩

/-- Entries stored under `malloc` copies may be deleted. -/
theorem legalRun_freesOwned (hown : ∀ k ∈ S, k.block.owned) {ops : List (Op cfg)}
    (hops : ∀ op ∈ ops, op.key ∈ S) (hM : Uses S M) :
    LegalRun (FreesOwned h) (spec h) ops M := by
  induction ops generalizing M with
  | nil => trivial
  | cons op ops ih =>
    have hop := hops op List.mem_cons_self
    refine ⟨?_,ih (fun x hx => hops x (List.mem_cons_of_mem _ hx)) (hM.spec hop)⟩
    rcases op with ⟨k,val⟩ | k | k | k
    · trivial
    · trivial
    · exact fun e he => hown _ (hM _ _ he)
    · trivial

/-- Short of `INT_MAX` calls the length is always counted. -/
theorem legalRun_fits {ops : List (Op cfg)} (hlen : M.keys.card+ops.length ≤ 2^31-1) :
    LegalRun (Fits h) (spec h) ops M := by
  induction ops generalizing M with
  | nil => trivial
  | cons op ops ih =>
    rw [List.length_cons] at hlen
    have hcard := card_spec_le op M
    refine ⟨?_,ih (by omega)⟩
    rcases op with ⟨k,val⟩ | k | k | k
    · exact fun _ => by omega
    · trivial
    · trivial
    · trivial

end Client

/-- Two buckets under the default hash, for C strings. -/
def strings : Config := ⟨2,0,none,none⟩

theorem strings_lawful : strings.Lawful := Config.lawful_default (by decide) rfl rfl

/-- The `malloc` copy of the string "a". -/
def copyA : Key strings := ⟨1,⟨[97,0],true⟩,by decide,by simp [Config.Valid,strings]⟩

def callsA (k : Key strings) : List (Op strings) := [.put k 5,.get k,.del k]

theorem key_callsA (k : Key strings) : ∀ op ∈ callsA k, op.key ∈ ({k} : Set (Key strings)) := by
  simp [callsA,Op.key]

/-- The three calls on the copy are legal. -/
theorem legalRun_copyA :
    LegalRun (Legal strings_lawful) (spec strings_lawful) (callsA copyA) ∅ := by
  have hown : ∀ k ∈ ({copyA} : Set (Key strings)), k.block.owned := by
    rintro k rfl
    rfl
  exact (legalRun_unmodified (Set.injOn_singleton _ _) (key_callsA copyA) uses_empty).and
    ((legalRun_freesOwned hown (key_callsA copyA) uses_empty).and
      (legalRun_fits (by simp [callsA])))

theorem table_is_finite_map_copyA :
    ∃ s B, runs exec (callsA copyA) (new strings) =
        .ok ((replay (spec strings_lawful) (callsA copyA) ∅).1,s) ∧
      Represents strings_lawful s (replay (spec strings_lawful) (callsA copyA) ∅).2 B :=
  table_is_finite_map strings_lawful (callsA copyA) legalRun_copyA

/-! ### What the caller has to promise -/

/-- The table behaves as a finite map for every caller that keeps to `legal`. -/
def MapUnder (legal : ∀ {cfg : Config} (h : cfg.Lawful), Op cfg → Map h → Prop) : Prop :=
  ∀ (cfg : Config) (h : cfg.Lawful) (ops : List (Op cfg)), LegalRun (legal h) (spec h) ops ∅ →
    ∃ s B, runs exec ops (new cfg) = .ok ((replay (spec h) ops ∅).1,s) ∧
      Represents h s (replay (spec h) ops ∅).2 B

/-- The literal "a", which `malloc` never returned. -/
def literalA : Key strings := ⟨1,⟨[97,0],false⟩,by decide,by simp [Config.Valid,strings]⟩

/-- Deleting an entry stored under a literal frees the literal. -/
theorem runs_literalA : runs exec (callsA literalA) (new strings) = .error .undefined := by
  rfl

theorem not_mapUnder_fits : ¬MapUnder fun h op M => Unmodified h op M ∧ Fits h op M := by
  intro hmap
  have hl := (legalRun_unmodified (h := strings_lawful) (Set.injOn_singleton _ _)
    (key_callsA literalA) uses_empty).and (legalRun_fits (by simp [callsA]))
  obtain ⟨s,B,hs,-⟩ := hmap strings strings_lawful (callsA literalA) hl
  rw [runs_literalA] at hs
  cases hs

/-- Four-byte keys in one bucket. -/
def words : Config := ⟨1,4,none,none⟩

theorem words_lawful : words.Lawful := Config.lawful_default (by decide) rfl rfl

/-- A `malloc` block that holds the number `i`. -/
def word (i : ℕ) : Key words :=
  ⟨i+1,⟨Bytes.be 4 i,true⟩,Nat.succ_ne_zero i,by simp [Config.Valid,words]⟩

theorem word_addr_injective : Function.Injective fun i => (word i).addr := fun i j hij => by
  simpa [word] using hij

theorem word_cls_injective {i j : ℕ} (hi : i < 2^32) (hj : j < 2^32)
    (h : (word i).cls words_lawful = (word j).cls words_lawful) : i = j := by
  have hb : Bytes.be 4 i = Bytes.be 4 j := by
    have heq := Key.cls_eq.mp h
    simp only [Config.Equal,words,word,ne_eq,OfNat.ofNat_ne_zero,not_false_eq_true,if_true] at heq
    rwa [List.take_of_length_le (by simp),List.take_of_length_le (by simp)] at heq
  rw [← Bytes.ofBe_be_of_lt (k := 4) (show i < 256^4 by omega),hb,
    Bytes.ofBe_be_of_lt (show j < 256^4 by omega)]

/-- Put the numbers below `n`. -/
def fill (n : ℕ) : List (Op words) := (List.range n).map fun i => .put (word i) 1

theorem fill_succ (n : ℕ) : fill (n+1) = fill n++[.put (word n) 1] := by
  simp [fill,List.range_succ]

theorem key_fill (n : ℕ) : ∀ op ∈ fill n, op.key ∈ {k | ∃ i < n, k = word i} := by
  intro op hop
  obtain ⟨i,hi,rfl⟩ := List.mem_map.mp hop
  exact ⟨i,List.mem_range.mp hi,rfl⟩

theorem injOn_words (n : ℕ) : Set.InjOn Key.addr {k | ∃ i < n, k = word i} := by
  rintro _ ⟨i,-,rfl⟩ _ ⟨j,-,rfl⟩ hij
  rw [word_addr_injective hij]

theorem owned_words (n : ℕ) : ∀ k ∈ {k | ∃ i < n, k = word i}, k.block.owned := by
  rintro _ ⟨i,-,rfl⟩
  rfl

/-- A number not put yet is a new key. -/
theorem lookup_word_none {M : Map words_lawful} {n : ℕ} (hn : n < 2^32)
    (hM : ∀ c e, M.lookup c = some e → ∃ i < n, c = (word i).cls words_lawful) :
    M.lookup ((word n).cls words_lawful) = none := by
  rcases hw : M.lookup ((word n).cls words_lawful) with _ | e
  · rfl
  · obtain ⟨i,hi,hc⟩ := hM _ e hw
    exact absurd (word_cls_injective hn (hi.trans hn) hc) hi.ne'

/-- Numbers below `2^32` are stored under as many keys. -/
theorem replay_fill {n : ℕ} (hn : n ≤ 2^32) {M : Map words_lawful}
    (hM : (replay (spec words_lawful) (fill n) ∅).2 = M) :
    (∀ c e, M.lookup c = some e → ∃ i < n, c = (word i).cls words_lawful) ∧ M.keys.card = n := by
  induction n generalizing M with
  | zero =>
    cases hM
    exact ⟨fun c e he => by simp [fill,replay] at he,by simp [fill,replay]⟩
  | succ n ih =>
    obtain ⟨hkeys,hcard⟩ := ih (by omega) rfl
    rw [fill_succ,replay_append] at hM
    generalize (replay (spec words_lawful) (fill n) ∅).2 = M₀ at hM hkeys hcard
    have hnone := lookup_word_none (by omega) hkeys
    cases hM
    refine ⟨fun c e he => ?_,?_⟩
    · change (M₀.insert ((word n).cls words_lawful) _).lookup c = some e at he
      by_cases hc : c = (word n).cls words_lawful
      · exact ⟨n,Nat.lt_succ_self n,hc⟩
      · rw [Finmap.lookup_insert_of_ne _ hc] at he
        obtain ⟨i,hi,hci⟩ := hkeys c e he
        exact ⟨i,hi.trans (Nat.lt_succ_self n),hci⟩
    · change (M₀.insert ((word n).cls words_lawful) _).keys.card = n+1
      rw [keys_insert,Finset.card_insert_of_notMem,hcard]
      rwa [Finmap.mem_keys,← Finmap.lookup_eq_none]

/-- One key more than `INT_MAX` overflows the length field. -/
theorem runs_fill {n : ℕ} (hn : n = 2^31-1) :
    runs exec (fill (n+1)) (new words) = .error .undefined := by
  have hlen : (∅ : Map words_lawful).keys.card+(fill n).length ≤ 2^31-1 := by
    simp [fill,hn]
  have hl := (legalRun_unmodified (injOn_words n) (key_fill n) uses_empty).and
    ((legalRun_freesOwned (owned_words n) (key_fill n) uses_empty).and (legalRun_fits hlen))
  obtain ⟨s,hs,B,R⟩ := (exec_refines words_lawful).runs (fill n) (new words) ∅ ⟨_,.init⟩ hl
  obtain ⟨hkeys,hcard⟩ := replay_fill (n := n) (by omega) rfl
  have hU := legalRun_unmodified (h := words_lawful) (injOn_words (n+1)) (key_fill (n+1)) uses_empty
  rw [fill_succ,legalRun_append] at hU
  have hput := (R.present hU.2.1).put_full 1 (k := word n) (by simp [Table.present,Op.key])
    (lookup_word_none (by omega) hkeys) (hcard.trans hn)
  have hexec : exec (.put (word n) 1) s = .error .undefined := by
    simp only [exec]
    rw [show (Op.put (word n) 1).key = word n from rfl] at hput ⊢
    rw [hput]
    rfl
  rw [fill_succ,runs_append,hs]
  simp [runs_cons,hexec]

theorem not_mapUnder_freesOwned :
    ¬MapUnder fun h op M => Unmodified h op M ∧ FreesOwned h op M := by
  intro hmap
  obtain ⟨n,hn⟩ : ∃ n, n = 2^31-1 := ⟨_,rfl⟩
  have hl := (legalRun_unmodified (h := words_lawful) (injOn_words (n+1)) (key_fill (n+1))
    uses_empty).and (legalRun_freesOwned (owned_words (n+1)) (key_fill (n+1)) uses_empty)
  obtain ⟨s,B,hs,-⟩ := hmap words words_lawful (fill (n+1)) hl
  rw [runs_fill hn] at hs
  cases hs

/-- Unmodified keys alone do not make the table a finite map: a deleted entry has to be
stored under a `malloc` block, and the number of keys has to fit the length field. -/
theorem not_mapUnder_unmodified :
    (¬MapUnder fun h op M => Unmodified h op M) ∧
      (¬MapUnder fun h op M => Unmodified h op M ∧ Fits h op M) ∧
      ¬MapUnder fun h op M => Unmodified h op M ∧ FreesOwned h op M :=
  ⟨fun hmap => not_mapUnder_fits fun cfg h ops hl => hmap cfg h ops (hl.mono fun _ _ => And.left),
    not_mapUnder_fits,not_mapUnder_freesOwned⟩

end AntHash
end RecycleBin
