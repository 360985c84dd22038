import RecycleBin.AntHash

/-! The hash table of `use_libnids/ant_hash.c` beside that of `mini_ant/src/ant_hash.c`.
Elements, buckets and key blocks are laid out alike; the two differ in what
`ant_hash_del` does to the length. -/
namespace RecycleBin
namespace NidsHash
open AntHash (Bytes Block Elem Table)

variable (m ksize : ℕ)

/-! ### The copy of `use_libnids` -/

/-- `ant_hash((void *)key, hash->ksize, hash->m)`: the stored function pointer is not used. -/
def hashKey (s : Table) (key : ℕ) : Except Fault ℕ := do
  let b ← s.block key
  AntHash.antHash b.bytes ksize m

def compare (a key : Bytes) : Except Fault ℤ :=
  if ksize ≠ 0 then AntHash.memcmp ksize a key else AntHash.strcmp a key

def matchKey (s : Table) (e : Elem) (key : ℕ) : Except Fault Bool :=
  if e.key ≠ 0 then do
    let a ← s.block e.key
    let b ← s.block key
    let c ← compare ksize a.bytes b.bytes
    .ok (c == 0)
  else .ok false

def lookupLoop (s : Table) (key : ℕ) : ℕ → Option ℕ → Option ℕ →
    Except Fault (Option ℕ × Option ℕ)
  | 0,_,_ => .error .exhausted
  | _+1,none,_ => .ok (none,none)
  | fuel+1,some p,pr => do
    let e ← s.elem p
    if ← matchKey ksize s e key then .ok (some p,pr)
    else lookupLoop s key fuel e.next (some p)

/-- `ant_lookup` -/
def lookup (s : Table) (key : ℕ) : Except Fault (Option ℕ × Option ℕ) := do
  let i ← hashKey m ksize s key
  let p ← s.head i
  lookupLoop ksize s key (s.fresh+1) p none

/-- `ant_hash_put` -/
def put (s : Table) (key val : ℕ) : Except Fault (ℕ × Table) := do
  let r ← lookup m ksize s key
  match r.1 with
  | none =>
    let i ← hashKey m ksize s key
    let next ← s.head i
    let p := s.fresh
    if s.length < 2^31-1 then
      .ok (0,{ (s.setElem p (some ⟨key,val,next⟩)).setHead i (some p) with
        fresh := p+1, length := s.length+1 })
    else .error .undefined
  | some p =>
    let e ← s.elem p
    .ok (e.val,s.setElem p (some { e with val := val }))

/-- `ant_hash_get` -/
def get (s : Table) (key : ℕ) : Except Fault ℕ := do
  let r ← lookup m ksize s key
  match r.1 with
  | none => .ok 0
  | some p =>
    let e ← s.elem p
    .ok e.val

/-- `ant_hash_del`: no statement touches `hash->length`. -/
def del (s : Table) (key : ℕ) : Except Fault (ℕ × Table) := do
  let r ← lookup m ksize s key
  match r.1 with
  | none => .ok (0,s)
  | some p =>
    let i ← hashKey m ksize s key
    let e ← s.elem p
    let s₁ ← AntHash.unlink s i e.next r.2
    let s₂ ← s₁.freeKey e.key
    .ok (e.val,s₂.setElem p none)

/-! ### Calls and traces -/

/-- A call with the caller's key block as it stands at the call. -/
inductive Call
  | put (key : ℕ) (b : Block) (val : ℕ)
  | get (key : ℕ) (b : Block)
  | del (key : ℕ) (b : Block)

/-- The three functions of a copy. -/
structure Copy where
  put : Table → ℕ → ℕ → Except Fault (ℕ × Table)
  get : Table → ℕ → Except Fault ℕ
  del : Table → ℕ → Except Fault (ℕ × Table)

namespace Copy

def call (copy : Copy) (s : Table) : Call → Except Fault (ℕ × Table)
  | .put key b val => copy.put (s.present key b) key val
  | .get key b => do
    let v ← copy.get (s.present key b) key
    .ok (v,s.present key b)
  | .del key b => copy.del (s.present key b) key

/-- The result and the length after every call, up to the first that is undefined. -/
def trace (copy : Copy) : List Call → Table → List (Except Fault (ℕ × ℤ))
  | [],_ => []
  | c::cs,s =>
    match copy.call s c with
    | .ok (v,t) => .ok (v,t.length) :: copy.trace cs t
    | .error e => [.error e]

end Copy

def nids : Copy where
  put := put m ksize
  get := get m ksize
  del := del m ksize

/-- `ant_hash_new(m, ksize, NULL, NULL)` of `mini_ant`. -/
def miniConfig : AntHash.Config :=
  ⟨m,ksize,none,none⟩

def mini : Copy where
  put := AntHash.put (miniConfig m ksize)
  get := AntHash.get (miniConfig m ksize)
  del := AntHash.del (miniConfig m ksize)

/-! ### Lookup, put and get are the same -/

theorem lookupLoop_eq (s : Table) (key fuel : ℕ) (p pr : Option ℕ) :
    lookupLoop ksize s key fuel p pr =
      AntHash.lookupLoop (miniConfig m ksize) s key fuel p pr := by
  induction fuel generalizing p pr with
  | zero => rfl
  | succ fuel ih =>
    cases p with
    | none => rfl
    | some p =>
      simp only [lookupLoop,AntHash.lookupLoop,ih]
      rfl

theorem lookup_eq (s : Table) (key : ℕ) :
    lookup m ksize s key = AntHash.lookup (miniConfig m ksize) s key := by
  simp only [lookup,AntHash.lookup,lookupLoop_eq m]
  rfl

theorem put_eq (s : Table) (key val : ℕ) :
    put m ksize s key val = AntHash.put (miniConfig m ksize) s key val := by
  simp only [put,AntHash.put,lookup_eq]
  rfl

theorem get_eq (s : Table) (key : ℕ) :
    get m ksize s key = AntHash.get (miniConfig m ksize) s key := by
  rw [get,lookup_eq]
  rfl

/-! ### A deletion -/

/-- The element `key` finds in the table, with a key block that `free` accepts. -/
structure Finds (s : Table) (key p : ℕ) (pr : Option ℕ) (e : Elem) : Prop where
  lookup : AntHash.lookup (miniConfig m ksize) s key = .ok (some p,pr)
  elem : s.elem p = .ok e
  owned : ∃ b, s.keys e.key = some b ∧ b.owned

/-- The predecessor `ant_lookup` reports was read on the way. -/
theorem lookupLoop_prev (cfg : AntHash.Config) {s : Table} {key fuel : ℕ} {p pr : Option ℕ}
    {a : ℕ} {pr' : Option ℕ} (h : AntHash.lookupLoop cfg s key fuel p pr = .ok (some a,pr')) :
    pr' = pr ∨ ∃ q f, pr' = some q ∧ s.elem q = .ok f := by
  induction fuel generalizing p pr with
  | zero => cases h
  | succ fuel ih =>
    cases p with
    | none => cases h
    | some p =>
      rw [AntHash.lookupLoop] at h
      cases he : s.elem p with
      | error x =>
        rw [he] at h
        cases h
      | ok e =>
        rw [he] at h
        cases hm : AntHash.matchKey cfg s e key with
        | error x =>
          simp only [bind,Except.bind,hm] at h
          cases h
        | ok found =>
          cases found with
          | true =>
            simp only [bind,Except.bind,hm,if_true] at h
            cases h
            exact Or.inl rfl
          | false =>
            simp only [bind,Except.bind,hm,Bool.false_eq_true,if_false] at h
            rcases ih h with heq | hread
            · exact Or.inr ⟨p,e,heq,he⟩
            · exact Or.inr hread

/-- A lookup that returns has read its bucket. -/
theorem lookup_eq_ok {cfg : AntHash.Config} {s : Table} {key : ℕ} {r : Option ℕ × Option ℕ}
    (h : AntHash.lookup cfg s key = .ok r) :
    ∃ i p, AntHash.hashKey cfg s key = .ok i ∧ s.head i = .ok p ∧
      AntHash.lookupLoop cfg s key (s.fresh+1) p none = .ok r := by
  rw [AntHash.lookup] at h
  cases hi : AntHash.hashKey cfg s key with
  | error x =>
    rw [hi] at h
    cases h
  | ok i =>
    rw [hi] at h
    cases hp : s.head i with
    | error x =>
      simp only [bind,Except.bind,hp] at h
      cases h
    | ok p =>
      simp only [bind,Except.bind,hp] at h
      exact ⟨i,p,rfl,hp,h⟩

/-- Unlinking writes one link, so the key blocks and the length stay. -/
theorem unlink_keeps {s t : Table} {i : ℕ} {next pr : Option ℕ}
    (h : AntHash.unlink s i next pr = .ok t) : t.keys = s.keys ∧ t.length = s.length := by
  cases pr with
  | none =>
    rw [AntHash.unlink] at h
    cases hp : s.head i with
    | error x =>
      rw [hp] at h
      cases h
    | ok p =>
      rw [hp] at h
      cases h
      exact ⟨rfl,rfl⟩
  | some q =>
    rw [AntHash.unlink] at h
    cases hf : s.elem q with
    | error x =>
      rw [hf] at h
      cases h
    | ok f =>
      rw [hf] at h
      cases h
      exact ⟨rfl,rfl⟩

theorem unlink_ok {s : Table} {i : ℕ} {head pr : Option ℕ} (next : Option ℕ)
    (hi : s.head i = .ok head) (hpr : pr = none ∨ ∃ q f, pr = some q ∧ s.elem q = .ok f) :
    ∃ t, AntHash.unlink s i next pr = .ok t := by
  rcases hpr with rfl | ⟨q,f,rfl,hf⟩
  · exact ⟨s.setHead i next,by simp [AntHash.unlink,hi]⟩
  · exact ⟨s.setElem q (some { f with next := next }),by simp [AntHash.unlink,hf]⟩

theorem freeKey_ok_iff {s : Table} {key : ℕ} :
    (∃ t, s.freeKey key = .ok t) ↔ ∃ b, s.keys key = some b ∧ b.owned := by
  cases hb : s.keys key with
  | none => simp [Table.freeKey,Table.block,hb]
  | some b => cases ho : b.owned <;> simp [Table.freeKey,Table.block,hb,ho]

/-- `mini_ant` deletes as `use_libnids` does and then counts the element off. -/
theorem miniDel_eq (s : Table) (key : ℕ) :
    AntHash.del (miniConfig m ksize) s key = (do
      let r ← AntHash.lookup (miniConfig m ksize) s key
      let d ← del m ksize s key
      .ok (d.1,if r.1.isSome then { d.2 with length := d.2.length-1 } else d.2)) := by
  rw [AntHash.del,del,lookup_eq]
  cases hr : AntHash.lookup (miniConfig m ksize) s key with
  | error x => rfl
  | ok r =>
    obtain ⟨p,pr⟩ := r
    cases p with
    | none => rfl
    | some p =>
      obtain ⟨i,q,hi,-,-⟩ := lookup_eq_ok hr
      have hi' : hashKey m ksize s key = .ok i := hi
      simp only [bind,Except.bind,hi,hi']
      cases he : s.elem p with
      | error x => rfl
      | ok e =>
        simp only
        cases hu : AntHash.unlink s i e.next pr with
        | error x => rfl
        | ok t =>
          simp only
          cases hf : t.freeKey e.key with
          | error x => rfl
          | ok u => rfl

/-- A deletion that finds an element returns exactly when its key block may be freed. -/
theorem del_ok_iff_finds {s : Table} {key p : ℕ} {pr : Option ℕ}
    (h : AntHash.lookup (miniConfig m ksize) s key = .ok (some p,pr)) :
    (∃ d, del m ksize s key = .ok d) ↔ ∃ e, Finds m ksize s key p pr e := by
  obtain ⟨i,q,hi,hq,hloop⟩ := lookup_eq_ok h
  have hi' : hashKey m ksize s key = .ok i := hi
  have hprev := lookupLoop_prev _ hloop
  rw [del,lookup_eq,h]
  simp only [bind,Except.bind,hi']
  cases he : s.elem p with
  | error x =>
    constructor
    · rintro ⟨d,hd⟩
      cases hd
    · rintro ⟨e,hfind⟩
      have helem := hfind.elem
      rw [he] at helem
      cases helem
  | ok e =>
    obtain ⟨t,hu⟩ := unlink_ok e.next hq hprev
    obtain ⟨hkeys,-⟩ := unlink_keeps hu
    have hfree : (∃ u, t.freeKey e.key = .ok u) ↔ ∃ b, s.keys e.key = some b ∧ b.owned := by
      rw [freeKey_ok_iff,hkeys]
    simp only [hu]
    constructor
    · rintro ⟨d,hd⟩
      cases hf : t.freeKey e.key with
      | error x =>
        rw [hf] at hd
        cases hd
      | ok u => exact ⟨e,h,he,hfree.mp ⟨u,hf⟩⟩
    · rintro ⟨e',hfind⟩
      have helem := hfind.elem
      rw [he] at helem
      cases helem
      obtain ⟨u,hf⟩ := hfree.mpr hfind.owned
      exact ⟨(e.val,u.setElem p none),by simp [hf]⟩

/-- What a deletion does in the two copies: the same, unless it finds an element. -/
theorem del_cases (s : Table) (key : ℕ) :
    ((∀ p pr e, ¬Finds m ksize s key p pr e) ∧
      del m ksize s key = AntHash.del (miniConfig m ksize) s key) ∨
    (∃ p pr e v t, Finds m ksize s key p pr e ∧ del m ksize s key = .ok (v,t) ∧
      AntHash.del (miniConfig m ksize) s key = .ok (v,{ t with length := t.length-1 })) := by
  rw [miniDel_eq]
  cases hr : AntHash.lookup (miniConfig m ksize) s key with
  | error x =>
    left
    constructor
    · intro p pr e hfind
      have h := hfind.lookup
      rw [hr] at h
      cases h
    · rw [del,lookup_eq,hr]
      rfl
  | ok r =>
    obtain ⟨p,pr⟩ := r
    cases p with
    | none =>
      left
      constructor
      · intro p pr e hfind
        have h := hfind.lookup
        rw [hr] at h
        cases h
      · rw [del,lookup_eq,hr]
        rfl
    | some p =>
      cases hd : del m ksize s key with
      | ok d =>
        right
        obtain ⟨e,hfind⟩ := (del_ok_iff_finds m ksize hr).mp ⟨d,hd⟩
        exact ⟨p,pr,e,d.1,d.2,hfind,rfl,rfl⟩
      | error x =>
        left
        constructor
        · intro p' pr' e hfind
          have h := hfind.lookup
          rw [hr] at h
          cases h
          obtain ⟨d,hd'⟩ := (del_ok_iff_finds m ksize hr).mpr ⟨e,hfind⟩
          rw [hd] at hd'
          cases hd'
        · rfl

/-! ### Traces -/

/-- The call deletes an element of the table. -/
def Removes (s : Table) : Call → Prop
  | .del key b => ∃ p pr e, Finds m ksize (s.present key b) key p pr e
  | .put _ _ _ | .get _ _ => False

/-- No call of the sequence deletes an element, up to the first call that is undefined. -/
def NothingRemoved : List Call → Table → Prop
  | [],_ => True
  | c::cs,s => ¬Removes m ksize s c ∧
      ∀ v t, (mini m ksize).call s c = .ok (v,t) → NothingRemoved cs t

theorem call_eq {s : Table} {c : Call} (h : ¬Removes m ksize s c) :
    (nids m ksize).call s c = (mini m ksize).call s c := by
  cases c with
  | put key b val => exact put_eq m ksize _ key val
  | get key b => simp only [Copy.call,nids,mini,get_eq]
  | del key b =>
    rcases del_cases m ksize (s.present key b) key with ⟨-,heq⟩ | ⟨p,pr,e,-,-,hfind,-⟩
    · exact heq
    · exact absurd ⟨p,pr,e,hfind⟩ h

/-- A removal is where the two lengths part. -/
theorem call_ne {s : Table} {c : Call} (h : Removes m ksize s c) :
    ∃ v t, (nids m ksize).call s c = .ok (v,t) ∧
      (mini m ksize).call s c = .ok (v,{ t with length := t.length-1 }) := by
  cases c with
  | put key b val => exact h.elim
  | get key b => exact h.elim
  | del key b =>
    obtain ⟨p,pr,e,hfind⟩ := h
    rcases del_cases m ksize (s.present key b) key with ⟨hnone,-⟩ | ⟨-,-,-,v,t,-,hn,hm⟩
    · exact absurd hfind (hnone p pr e)
    · exact ⟨v,t,hn,hm⟩

theorem trace_eq_iff (calls : List Call) (s : Table) :
    (nids m ksize).trace calls s = (mini m ksize).trace calls s ↔
      NothingRemoved m ksize calls s := by
  induction calls generalizing s with
  | nil => exact ⟨fun _ => trivial,fun _ => rfl⟩
  | cons c cs ih =>
    by_cases hrem : Removes m ksize s c
    · obtain ⟨v,t,hn,hm⟩ := call_ne m ksize hrem
      constructor
      · intro h
        simp only [Copy.trace,hn,hm,List.cons.injEq,Except.ok.injEq,Prod.mk.injEq] at h
        omega
      · intro h
        exact absurd hrem h.1
    · have heq := call_eq m ksize hrem
      cases hc : (mini m ksize).call s c with
      | error x =>
        simp only [Copy.trace,heq,hc,NothingRemoved,true_iff]
        refine ⟨hrem,?_⟩
        intro v t h
        cases h
      | ok r =>
        obtain ⟨v,t⟩ := r
        simp only [Copy.trace,heq,hc,List.cons.injEq,true_and,NothingRemoved,ih t]
        constructor
        · intro h
          refine ⟨hrem,?_⟩
          intro v' t' hr
          cases hr
          exact h
        · intro h
          exact h.2 v t rfl

/-- On a new table the two copies return the same results and hold the same length after
every call exactly when no call deletes an element. -/
theorem copies_agree_iff (calls : List Call) :
    (nids m ksize).trace calls (AntHash.new (miniConfig m ksize)) =
        (mini m ksize).trace calls (AntHash.new (miniConfig m ksize)) ↔
      NothingRemoved m ksize calls (AntHash.new (miniConfig m ksize)) :=
  trace_eq_iff m ksize calls _

/-- One key put and deleted: `mini_ant` is back at length 0, `use_libnids` stays at 1. -/
theorem copies_part :
    ¬∀ (m ksize : ℕ) (calls : List Call), 0 < m →
      (nids m ksize).trace calls (AntHash.new (miniConfig m ksize)) =
        (mini m ksize).trace calls (AntHash.new (miniConfig m ksize)) := by
  intro h
  have hrun := h 7 1 [.put 1 ⟨[65],true⟩ 9,.del 1 ⟨[65],true⟩] (by decide)
  revert hrun
  decide

end NidsHash
end RecycleBin
