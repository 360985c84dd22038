import RecycleBin.Refinement
import RecycleBin.Linked

/-! The chained hash table of `ant_hash.c`: keys are compared by `memcmp`, by a
user function or by `strcmp`, and the elements of a bucket are chained through the
heap. Element and key pointers are addresses; a NULL element is `none`, a NULL key
or value is `0`. -/
namespace RecycleBin
namespace AntHash

abbrev Bytes := List UInt8

/-- `memcmp`; reading past either block is undefined. -/
def memcmp : ℕ → Bytes → Bytes → Except Fault ℤ
  | 0, _, _ => .ok 0
  | n+1, a::as, b::bs => if a = b then memcmp n as bs else .ok (a.toNat-b.toNat)
  | _+1, _, _ => .error .undefined

/-- `strcmp`; both blocks must hold a terminator. -/
def strcmp : Bytes → Bytes → Except Fault ℤ
  | a::as, b::bs =>
    if a = b then (if a = 0 then .ok 0 else strcmp as bs) else .ok (a.toNat-b.toNat)
  | _, _ => .error .undefined

/-- The loop `while (size-- > 0)` of the default hash. -/
def hashBytes : ℕ → Bytes → UInt32 → Except Fault UInt32
  | 0, _, val => .ok val
  | n+1, b::bs, val => hashBytes n bs (b.toUInt32*31+val)
  | _+1, [], _ => .error .undefined

/-- The loop `while (*p)` of the default hash. -/
def hashString : Bytes → UInt32 → Except Fault UInt32
  | b::bs, val => if b = 0 then .ok val else hashString bs (b.toUInt32*31+val)
  | [], _ => .error .undefined

/-- The default hash function. -/
def antHash (s : Bytes) (size m : ℕ) : Except Fault ℕ := do
  let val ← if size ≠ 0 then hashBytes size s 0 else hashString s 0
  if m = 0 then .error .undefined else .ok (val.toNat%m)

/-- The arguments of `ant_hash_new`; `none` is a NULL function pointer. -/
structure Config where
  m : ℕ
  ksize : ℕ
  hashFunc : Option (Bytes → ℕ → ℕ → ℕ)
  cmp : Option (Bytes → Bytes → ℤ)

namespace Config
variable (cfg : Config)

/-- `hash->ant_hash(key, hash->ksize, hash->m)`. -/
def hash (key : Bytes) : Except Fault ℕ :=
  match cfg.hashFunc with
  | some f => .ok (f key cfg.ksize cfg.m)
  | none => antHash key cfg.ksize cfg.m

/-- The comparison of the three lookup loops: `memcmp`, `hash->cmp` or `strcmp`. -/
def compare (a key : Bytes) : Except Fault ℤ :=
  if cfg.ksize ≠ 0 then memcmp cfg.ksize a key else
    match cfg.cmp with
    | some cmp => .ok (cmp a key)
    | none => strcmp a key

end Config

/-- A block of memory a key pointer refers to; `owned` when it comes from `malloc`. -/
structure Block where
  bytes : Bytes
  owned : Bool
  deriving DecidableEq

/-- `ant_hash_elem_t`. -/
structure Elem where
  key : ℕ
  val : ℕ
  next : Option ℕ
  deriving DecidableEq

/-- `ant_hash_t` with the elements and key blocks it points to. `fresh` is the next
address `malloc` returns for an element. -/
structure Table where
  hash : List (Option ℕ)
  length : ℤ
  elems : ℕ → Option Elem
  fresh : ℕ
  keys : ℕ → Option Block

/-- `ant_hash_new` without an allocation failure. -/
def new (cfg : Config) : Table where
  hash := List.replicate cfg.m none
  length := 0
  elems := fun _ => none
  fresh := 0
  keys := fun _ => none

namespace Table

/-- The element at `p`; a stale pointer is undefined. -/
def elem (s : Table) (p : ℕ) : Except Fault Elem :=
  match s.elems p with
  | some e => .ok e
  | none => .error .undefined

/-- The block a key pointer refers to. -/
def block (s : Table) (key : ℕ) : Except Fault Block :=
  match s.keys key with
  | some b => .ok b
  | none => .error .undefined

/-- `*head`: the first element of bucket `i`. -/
def head (s : Table) (i : ℕ) : Except Fault (Option ℕ) :=
  match s.hash[i]? with
  | some p => .ok p
  | none => .error .undefined

/-- `*p = e`. -/
def setElem (s : Table) (p : ℕ) (e : Option Elem) : Table :=
  { s with elems := Function.update s.elems p e }

/-- `*head = p`. -/
def setHead (s : Table) (i : ℕ) (p : Option ℕ) : Table :=
  { s with hash := s.hash.set i p }

/-- The caller's key block, as it stands when the table is called. -/
def present (s : Table) (key : ℕ) (b : Block) : Table :=
  { s with keys := Function.update s.keys key (some b) }

/-- `free((void *)p->key)`: only a live `malloc` block may be freed. -/
def freeKey (s : Table) (key : ℕ) : Except Fault Table := do
  let b ← s.block key
  if b.owned then .ok { s with keys := Function.update s.keys key none }
  else .error .undefined

end Table

variable (cfg : Config)

/-- `hash->ant_hash((void *)key, …)` on the block behind the pointer. -/
def hashKey (s : Table) (key : ℕ) : Except Fault ℕ := do
  let b ← s.block key
  cfg.hash b.bytes

/-- The test `p->key && !cmp(p->key, key)`. -/
def matchKey (s : Table) (e : Elem) (key : ℕ) : Except Fault Bool :=
  if e.key ≠ 0 then do
    let a ← s.block e.key
    let b ← s.block key
    let c ← cfg.compare a.bytes b.bytes
    .ok (c == 0)
  else .ok false

/-- The loop `for (; p; p = p->next)`: the element found and its predecessor. -/
def lookupLoop (s : Table) (key : ℕ) : ℕ → Option ℕ → Option ℕ →
    Except Fault (Option ℕ × Option ℕ)
  | 0, _, _ => .error .exhausted
  | _+1, none, _ => .ok (none,none)
  | fuel+1, some p, pr => do
    let e ← s.elem p
    if ← matchKey cfg s e key then .ok (some p,pr)
    else lookupLoop s key fuel e.next (some p)

/-- `ant_lookup`, with `*prev` as its second result. A chain has at most `fresh` elements. -/
def lookup (s : Table) (key : ℕ) : Except Fault (Option ℕ × Option ℕ) := do
  let i ← hashKey cfg s key
  let p ← s.head i
  lookupLoop cfg s key (s.fresh+1) p none

/-- `ant_hash_put`; `length` is an `int`. -/
def put (s : Table) (key val : ℕ) : Except Fault (ℕ × Table) := do
  let r ← lookup cfg s key
  match r.1 with
  | none =>
    let i ← hashKey cfg s key
    let next ← s.head i
    let p := s.fresh
    if s.length < 2^31-1 then
      .ok (0,{ (s.setElem p (some ⟨key,val,next⟩)).setHead i (some p) with
        fresh := p+1, length := s.length+1 })
    else .error .undefined
  | some p =>
    let e ← s.elem p
    .ok (e.val,s.setElem p (some { e with val := val }))

/-- `ant_hash_get`. -/
def get (s : Table) (key : ℕ) : Except Fault ℕ := do
  let r ← lookup cfg s key
  match r.1 with
  | none => .ok 0
  | some p =>
    let e ← s.elem p
    .ok e.val

/-- The unlinking of `ant_hash_del`: through the bucket or through the predecessor. -/
def unlink (s : Table) (i : ℕ) (next : Option ℕ) : Option ℕ → Except Fault Table
  | none => do
    let _ ← s.head i
    .ok (s.setHead i next)
  | some q => do
    let f ← s.elem q
    .ok (s.setElem q (some { f with next := next }))

/-- `ant_hash_del`. -/
def del (s : Table) (key : ℕ) : Except Fault (ℕ × Table) := do
  let r ← lookup cfg s key
  match r.1 with
  | none => .ok (0,s)
  | some p =>
    let i ← hashKey cfg s key
    let e ← s.elem p
    let s₁ ← unlink s i e.next r.2
    let s₂ ← s₁.freeKey e.key
    .ok (e.val,{ s₂.setElem p none with length := s₂.length-1 })

/-! ### Key modes -/

/-- The C string a block starts with. -/
def cstr (a : Bytes) : Bytes := a.takeWhile (· ≠ 0)

namespace Config

/-- A key the table's functions can read: `ksize` bytes, or a terminated string where
`strcmp` or the default hash runs on it. -/
def Valid (key : Bytes) : Prop :=
  if cfg.ksize ≠ 0 then cfg.ksize ≤ key.length
  else cfg.cmp = none ∨ cfg.hashFunc = none → 0 ∈ key

/-- Key equality of the mode. -/
def Equal (a b : Bytes) : Prop :=
  if cfg.ksize ≠ 0 then a.take cfg.ksize = b.take cfg.ksize
  else match cfg.cmp with
    | some cmp => cmp a b = 0
    | none => cstr a = cstr b

/-- The bucket of a readable key. -/
def bucket (key : Bytes) : ℕ :=
  match cfg.hash key with
  | .ok i => i
  | .error _ => 0

instance (a b : Bytes) : Decidable (cfg.Equal a b) := by
  unfold Equal
  split
  · infer_instance
  · split <;> infer_instance

/-- What a table asks of its hash function and of its key equality. -/
structure Lawful : Prop where
  pos : 0 < cfg.m
  hash_lt : ∀ f, cfg.hashFunc = some f → ∀ a, cfg.Valid a → f a cfg.ksize cfg.m < cfg.m
  refl : ∀ a, cfg.Valid a → cfg.Equal a a
  symm : ∀ a b, cfg.Valid a → cfg.Valid b → cfg.Equal a b → cfg.Equal b a
  trans : ∀ a b c, cfg.Valid a → cfg.Valid b → cfg.Valid c →
    cfg.Equal a b → cfg.Equal b c → cfg.Equal a c
  bucket_eq : ∀ a b, cfg.Valid a → cfg.Valid b → cfg.Equal a b → cfg.bucket a = cfg.bucket b

end Config

theorem memcmp_eq {n : ℕ} {a b : Bytes} (ha : n ≤ a.length) (hb : n ≤ b.length) :
    ∃ c, memcmp n a b = .ok c ∧ (c = 0 ↔ a.take n = b.take n) := by
  induction n generalizing a b with
  | zero => exact ⟨0,rfl,by simp⟩
  | succ n ih =>
    rcases a with _ | ⟨x,a⟩
    · simp at ha
    rcases b with _ | ⟨y,b⟩
    · simp at hb
    by_cases hxy : x = y
    · obtain ⟨c,hc,hz⟩ := ih (Nat.le_of_succ_le_succ ha) (Nat.le_of_succ_le_succ hb)
      exact ⟨c,by simp [memcmp,hxy,hc],by simp [hxy,hz]⟩
    · refine ⟨x.toNat-y.toNat,by simp [memcmp,hxy],?_⟩
      have hn : x.toNat ≠ y.toNat := fun he => hxy (UInt8.toNat_inj.mp he)
      simp only [List.take_succ_cons,List.cons.injEq,hxy,false_and,iff_false]
      omega

theorem strcmp_eq {a b : Bytes} (ha : 0 ∈ a) (hb : 0 ∈ b) :
    ∃ c, strcmp a b = .ok c ∧ (c = 0 ↔ cstr a = cstr b) := by
  induction a generalizing b with
  | nil => simp at ha
  | cons x a ih =>
    rcases b with _ | ⟨y,b⟩
    · simp at hb
    by_cases hxy : x = y
    · subst hxy
      by_cases hx : x = 0
      · exact ⟨0,by simp [strcmp,hx],by simp [cstr,hx]⟩
      · obtain ⟨c,hc,hz⟩ := ih (by simpa [Ne.symm hx] using ha) (b := b)
          (by simpa [Ne.symm hx] using hb)
        refine ⟨c,by simp [strcmp,hx,hc],hz.trans ?_⟩
        simp [cstr,hx]
    · refine ⟨x.toNat-y.toNat,by simp [strcmp,hxy],?_⟩
      have hn : x.toNat ≠ y.toNat := fun he => hxy (UInt8.toNat_inj.mp he)
      have hc : cstr (x::a) ≠ cstr (y::b) := by
        by_cases hx : x = 0 <;> by_cases hy : y = 0 <;> simp_all [cstr]
      simp only [hc,iff_false]
      omega

theorem hashBytes_eq {n : ℕ} {a : Bytes} (ha : n ≤ a.length) (val : UInt32) :
    ∃ v, hashBytes n a val = .ok v ∧ hashBytes n (a.take n) val = .ok v := by
  induction n generalizing a val with
  | zero => exact ⟨val,rfl,rfl⟩
  | succ n ih =>
    rcases a with _ | ⟨x,a⟩
    · simp at ha
    obtain ⟨v,hv,ht⟩ := ih (Nat.le_of_succ_le_succ ha) (x.toUInt32*31+val)
    exact ⟨v,hv,ht⟩

theorem hashString_eq {a : Bytes} (ha : 0 ∈ a) (val : UInt32) :
    ∃ v, hashString a val = .ok v ∧ hashString (cstr a++[0]) val = .ok v := by
  induction a generalizing val with
  | nil => simp at ha
  | cons x a ih =>
    by_cases hx : x = 0
    · exact ⟨val,by simp [hashString,hx],by simp [hashString,cstr,hx]⟩
    · obtain ⟨v,hv,ht⟩ := ih (by simpa [Ne.symm hx] using ha) (x.toUInt32*31+val)
      refine ⟨v,by simp [hashString,hx,hv],?_⟩
      have hc : cstr (x::a) = x::cstr a := by simp [cstr,hx]
      simp [hc,hashString,hx,ht]

namespace Config
variable {cfg}

/-- On readable keys the comparison is defined and decides key equality. -/
theorem compare_eq {a b : Bytes} (ha : cfg.Valid a) (hb : cfg.Valid b) :
    ∃ c, cfg.compare a b = .ok c ∧ (c = 0 ↔ cfg.Equal a b) := by
  unfold Valid at ha hb
  unfold compare Equal
  by_cases hk : cfg.ksize ≠ 0
  · rw [if_pos hk] at ha hb
    simp only [if_pos hk]
    exact memcmp_eq ha hb
  · rw [if_neg hk] at ha hb
    simp only [if_neg hk]
    rcases hcmp : cfg.cmp with _ | cmp
    · exact strcmp_eq (ha (.inl hcmp)) (hb (.inl hcmp))
    · exact ⟨cmp a b,rfl,Iff.rfl⟩

/-- The default hash of a readable key, below `m`. -/
theorem antHash_eq {a : Bytes} (hm : 0 < cfg.m) (hf : cfg.hashFunc = none) (ha : cfg.Valid a) :
    ∃ v : UInt32, antHash a cfg.ksize cfg.m = .ok (v.toNat%cfg.m) ∧
      (if cfg.ksize ≠ 0 then hashBytes cfg.ksize (a.take cfg.ksize) 0
        else hashString (cstr a++[0]) 0) = .ok v := by
  unfold Valid at ha
  by_cases hk : cfg.ksize ≠ 0
  · rw [if_pos hk] at ha
    obtain ⟨v,hv,ht⟩ := hashBytes_eq ha 0
    exact ⟨v,by simp [antHash,hk,hv,hm.ne'],by simp [hk,ht]⟩
  · rw [if_neg hk] at ha
    obtain ⟨v,hv,ht⟩ := hashString_eq (ha (.inr hf)) 0
    exact ⟨v,by simp [antHash,hk,hv,hm.ne'],by simp [hk,ht]⟩

/-- Every readable key has a bucket below `m`. -/
theorem Lawful.hash_eq (h : cfg.Lawful) {a : Bytes} (ha : cfg.Valid a) :
    cfg.hash a = .ok (cfg.bucket a) ∧ cfg.bucket a < cfg.m := by
  unfold bucket hash
  rcases hf : cfg.hashFunc with _ | f
  · obtain ⟨v,hv,-⟩ := antHash_eq h.pos hf ha
    simp only [hv]
    exact ⟨trivial,Nat.mod_lt _ h.pos⟩
  · exact ⟨rfl,h.hash_lt f hf a ha⟩

/-- The default hash function suits the `ksize` mode and the string mode. -/
theorem lawful_default (hm : 0 < cfg.m) (hf : cfg.hashFunc = none) (hc : cfg.cmp = none) :
    cfg.Lawful where
  pos := hm
  hash_lt := fun f h => by rw [hf] at h; cases h
  refl := fun a _ => by unfold Equal; simp [hc]
  symm := fun a b _ _ h => by
    unfold Equal at h ⊢
    split_ifs at h ⊢ with hk
    · exact h.symm
    · simp only [hc] at h ⊢
      exact h.symm
  trans := fun a b c _ _ _ h₁ h₂ => by
    unfold Equal at h₁ h₂ ⊢
    split_ifs at h₁ h₂ ⊢ with hk
    · exact h₁.trans h₂
    · simp only [hc] at h₁ h₂ ⊢
      exact h₁.trans h₂
  bucket_eq := fun a b ha hb h => by
    obtain ⟨v,hv,hs⟩ := antHash_eq hm hf ha
    obtain ⟨w,hw,ht⟩ := antHash_eq hm hf hb
    have hvw : v = w := by
      unfold Equal at h
      split_ifs at h hs ht with hk
      · rw [h,ht] at hs
        cases hs
        rfl
      · simp only [hc] at h
        rw [h,ht] at hs
        cases hs
        rfl
    simp only [bucket,hash,hf,hv,hw,hvw]

end Config
end AntHash
end RecycleBin
