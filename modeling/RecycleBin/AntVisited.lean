import Mathlib.Data.List.TakeWhile
import RecycleBin.AntHashMap

/-! The set of URLs already scheduled: `filter_add` of `mini_ant.c` over the table of
`ant_context.c`. The table keeps the caller's pointer, so an entry stands for the text
its buffer holds when it is looked up. -/
namespace RecycleBin
namespace AntVisited
open AntHash Linked

/-- `isspace` of the C locale. -/
def isspace (b : UInt8) : Bool := b = 32 ∨ (9 ≤ b ∧ b ≤ 13)

def isdigit (b : UInt8) : Bool := 48 ≤ b ∧ b ≤ 57

def tolower (b : UInt8) : UInt8 := if 65 ≤ b ∧ b ≤ 90 then b+32 else b

/-- `!strncasecmp(url, word, strlen(word))`, for a lower-case word. -/
def startsWith (word url : Bytes) : Bool := (url.take word.length).map tolower = word

/-- "http://" and "https://". -/
def http : Bytes := [104,116,116,112,58,47,47]
def https : Bytes := [104,116,116,112,115,58,47,47]

def skipHead (url : Bytes) : ℕ :=
  if startsWith http url ∨ startsWith https url then (if url[4]? = some 115 then 8 else 7) else 0

/-! ### The address of a URL -/

/-- `strtoul` on a run of digits, saturating. -/
def digitsValue (ds : Bytes) : ℕ :=
  min (2^64-1) (ds.foldl (fun v d => 10*v+(d.toNat-48)) 0)

/-- One `%hhu` or `%hu` of `sscanf`: the value before it is cut to its type, and the rest. -/
def scanUnsigned (s : Bytes) : Option (ℕ × Bytes) :=
  let s := s.dropWhile isspace
  let negative := s.head? = some 45
  let s := if negative ∨ s.head? = some 43 then s.tail else s
  let ds := s.takeWhile isdigit
  if ds = [] then none
  else
    let v := digitsValue ds
    some (if negative ∧ v < 2^64-1 then (2^64-v)%2^64 else v,s.drop ds.length)

/-- `sscanf(url, "%hhu.%hhu.%hhu.%hhu:%hu", …)` with `n` conversions to go: the values of
those that succeed. -/
def scanAddress : ℕ → Bytes → List ℕ
  | 0, _ => []
  | n+1, s =>
    match scanUnsigned s with
    | none => []
    | some (v,s) =>
      match s with
      | c::s => if c = (if n = 1 then 58 else 46) then v::scanAddress n s else [v]
      | [] => [v]

/-- `down_t`: the address is a number, or the pointer the caller passed when it is 0. -/
structure Down where
  url : Bytes
  ip2 : ℕ
  byPointer : Bool
  port : UInt16
  deriving DecidableEq

/-- The port behind `:` in the host part, where there is one. -/
def hostPort (url : Bytes) : UInt16 :=
  match (url.drop (skipHead url)).dropWhile fun b => b ≠ 58 ∧ b ≠ 47 with
  | c::s => if c = 58 then ((scanUnsigned s).map fun r => UInt16.ofNat r.1).getD 0 else 0
  | [] => 0

/-- The item `down_add` puts into the queue. -/
def downAdd (ip : List ℕ) (port : UInt16) (url : Bytes) : Down :=
  let value := Bytes.ofLe (ip.map UInt8.ofNat)
  ⟨url,value,value = 0,if port = 0 then hostPort url else port⟩

/-- What is scheduled for a URL: an item with an address, or a name to resolve. -/
inductive Scheduled
  | downAdd (down : Down)
  | urlAdd (url : Bytes)
  deriving DecidableEq

def Scheduled.url : Scheduled → Bytes
  | .downAdd down => down.url
  | .urlAdd url => url

/-- The end of `filter_add`. -/
def schedule (url : Bytes) : Scheduled :=
  let vs := scanAddress 5 (url.drop (skipHead url))
  if vs.length = 4 then .downAdd (downAdd vs 0 url)
  else if vs.length = 5 then .downAdd (downAdd (vs.take 4) (.ofNat (vs.getD 4 0)) url)
  else .urlAdd url

@[simp] theorem schedule_url (url : Bytes) : (schedule url).url = url := by
  simp only [schedule]
  split_ifs <;> rfl

/-! ### The visited set -/

/-- `ant_hash_new(4096, 0, NULL, NULL)`. -/
def uniq : Config := ⟨4096,0,none,none⟩

theorem uniq_lawful : uniq.Lawful := Config.lawful_default (by decide) rfl rfl

def uniqExists (t : Table) (url : ℕ) : Except Fault ℕ := do
  let r ← lookup uniq t url
  .ok (if r.1.isSome then 1 else 0)

def uniqPut (t : Table) (url : ℕ) : Except Fault Table := do
  let r ← put uniq t url 0
  .ok r.2

/-- `filter_add(url, total)`: what it schedules, and the table. -/
def filterAdd (t : Table) (url : ℕ) : Except Fault (Option Scheduled × Table) := do
  let seen ← uniqExists t url
  if seen = 0 then
    let t' ← uniqPut t url
    let b ← t.block url
    .ok (some (schedule (cstr b.bytes)),t')
  else .ok (none,t)

/-- A call of `filter_add`: the pointer it gets, and the text each buffer holds at that
time. A buffer that is no longer in use may hold anything. -/
structure Feed where
  addr : ℕ
  mem : ℕ → Bytes
  addr_ne : addr ≠ 0

namespace Feed

/-- The string behind a pointer. -/
def text (f : Feed) (p : ℕ) : Bytes := cstr (f.mem p)

def url (f : Feed) : Bytes := f.text f.addr

def keys (f : Feed) (p : ℕ) : Option Block := some ⟨f.mem p++[0],false⟩

end Feed

def exec (f : Feed) (t : Table) : Except Fault (Option Scheduled × Table) :=
  filterAdd { t with keys := f.keys } f.addr

/-- The URLs a run scheduled. -/
def scheduled (rs : List (Option Scheduled)) : List Bytes := rs.filterMap fun r => r.map Scheduled.url

def urls (feeds : List Feed) : List Bytes := feeds.map Feed.url

/-- The run schedules each URL it is fed exactly once. -/
def ScheduledOnce (feeds : List Feed) : Prop :=
  ∃ rs t,runs exec feeds (new uniq) = .ok (rs,t) ∧ (scheduled rs).Nodup ∧
    ∀ u,u ∈ scheduled rs ↔ u ∈ urls feeds

/-- The bucket of a URL. -/
def bucket (u : Bytes) : ℕ := uniq.bucket (u++[0])

/-- Looking up `f` meets the pointer of `g` in its bucket, and reads the URL of `f` there. -/
def Sees (f g : Feed) : Prop := bucket g.url = bucket f.url ∧ f.text g.addr = f.url

instance (f g : Feed) : Decidable (Sees f g) := inferInstanceAs (Decidable (_ ∧ _))

/-- `kept` are the first feeds of the URLs so far. A URL that comes again is read through
one of their pointers, a new one through none; and the `int` length can count the new one. -/
def ConsistentFrom : List Feed → List Feed → Prop
  | _, [] => True
  | kept, f::fs =>
    if f.url ∈ urls kept then (∃ g ∈ kept,Sees f g) ∧ ConsistentFrom kept fs
    else (∀ g ∈ kept,¬Sees f g) ∧ kept.length < 2^31-1 ∧ ConsistentFrom (kept++[f]) fs

def Consistent (feeds : List Feed) : Prop := ConsistentFrom [] feeds

instance : (kept feeds : List Feed) → Decidable (ConsistentFrom kept feeds)
  | _, [] => isTrue trivial
  | kept, f::fs =>
    have := instDecidableConsistentFrom kept fs
    have := instDecidableConsistentFrom (kept++[f]) fs
    inferInstanceAs (Decidable (if f.url ∈ urls kept then _ else _))

/-! ### The table as a list of pointers -/

/-- The entries of bucket `i`, latest first. Entry `j` keeps the pointer of `kept[j]`. -/
def chainOf (kept : List Feed) (i : ℕ) : List (ℕ × (ℕ × ℕ)) :=
  ((kept.zipIdx.filter fun e => bucket e.1.url = i).reverse).map fun e => (e.2,(e.1.addr,0))

theorem chainOf_concat (kept : List Feed) (f : Feed) (i : ℕ) :
    chainOf (kept++[f]) i =
      if bucket f.url = i then (kept.length,(f.addr,0))::chainOf kept i else chainOf kept i := by
  have hzip : (kept++[f]).zipIdx = kept.zipIdx++[(f,kept.length)] := by simp [List.zipIdx_append]
  by_cases hi : bucket f.url = i
  · simp [chainOf,hzip,hi]
  · simp [chainOf,hzip,hi]

theorem mem_chainOf {kept : List Feed} {i : ℕ} {e : ℕ × (ℕ × ℕ)} (he : e ∈ chainOf kept i) :
    ∃ g ∈ kept,bucket g.url = i ∧ e.2.1 = g.addr ∧ e.1 < kept.length := by
  obtain ⟨x,hx,rfl⟩ := List.mem_map.mp he
  rw [List.mem_reverse,List.mem_filter] at hx
  have hget := List.mem_zipIdx' hx.1
  exact ⟨x.1,by rw [hget.2]; exact List.getElem_mem _,of_decide_eq_true hx.2,rfl,hget.1⟩

theorem exists_mem_chainOf {kept : List Feed} {g : Feed} (hg : g ∈ kept) :
    ∃ j,(j,(g.addr,0)) ∈ chainOf kept (bucket g.url) := by
  obtain ⟨j,hj,rfl⟩ := List.getElem_of_mem hg
  refine ⟨j,List.mem_map.mpr ⟨(kept[j],j),?_,rfl⟩⟩
  rw [List.mem_reverse,List.mem_filter]
  exact ⟨List.mem_zipIdx_iff_getElem?.mpr (List.getElem?_eq_getElem hj),decide_eq_true rfl⟩

/-- The table keeps the pointers of `kept`, each in the bucket its URL had. -/
structure Keeps (t : Table) (kept : List Feed) : Prop where
  heads : t.hash.length = uniq.m
  fresh : t.fresh = kept.length
  length : t.length = kept.length
  chain : ∀ i p,t.hash[i]? = some p → Chain t.cell (chainOf kept i) p

theorem keeps_new : Keeps (new uniq) [] where
  heads := by simp [new]
  fresh := rfl
  length := rfl
  chain i p hp := by
    simp only [new,List.getElem?_replicate,Option.ite_none_right_eq_some,Option.some.injEq] at hp
    exact hp.2.symm

section Lookup
variable {t : Table} {kept : List Feed} {f : Feed}

theorem cstr_append_zero (a : Bytes) : cstr (a++[0]) = cstr a := by
  induction a with
  | nil => rfl
  | cons b a ih =>
    by_cases hb : b = 0
    · simp [cstr,hb]
    · simpa [cstr,hb] using ih

theorem valid_append_zero (a : Bytes) : uniq.Valid (a++[0]) := by
  intro _
  simp

/-- The bucket depends on the text up to its terminator. -/
theorem hash_eq (a : Bytes) : uniq.hash (a++[0]) = .ok (bucket (cstr a)) := by
  have hequal : uniq.Equal (a++[0]) (cstr a++[0]) := by
    change cstr (a++[0]) = cstr (cstr a++[0])
    rw [cstr_append_zero,cstr_append_zero]
    exact List.takeWhile_idem.symm
  rw [(uniq_lawful.hash_eq (valid_append_zero a)).1,
    uniq_lawful.bucket_eq _ _ (valid_append_zero a) (valid_append_zero _) hequal]
  rfl

theorem bucket_lt (u : Bytes) : bucket u < uniq.m :=
  (uniq_lawful.hash_eq (valid_append_zero u)).2

/-- The comparison of one lookup step, on the text behind the stored pointer. -/
theorem matchKey_text (hk : t.keys = f.keys) {q : ℕ} (hq : q ≠ 0) (n : Option ℕ) :
    matchKey uniq t ⟨q,0,n⟩ f.addr = .ok (decide (f.text q = f.url)) := by
  obtain ⟨c,hc,hz⟩ := Config.compare_eq (valid_append_zero (f.mem q)) (valid_append_zero (f.mem f.addr))
  have hd : (c == 0) = decide (f.text q = f.url) := by
    rw [Bool.eq_iff_iff,beq_iff_eq,decide_eq_true_iff,hz]
    change cstr _ = cstr _ ↔ cstr _ = cstr _
    rw [cstr_append_zero,cstr_append_zero]
  simp [matchKey,Table.block,hk,Feed.keys,hq,hc,hd]

/-- A lookup finds an element exactly if some pointer of the chain reads as the URL. -/
theorem lookupLoop_text (hk : t.keys = f.keys) {l : List (ℕ × (ℕ × ℕ))} {p : Option ℕ}
    (hc : Chain t.cell l p) (hl : ∀ e ∈ l,e.2.1 ≠ 0 ∧ e.2.2 = 0) {fuel : ℕ} (hf : l.length < fuel)
    (pr : Option ℕ) :
    ∃ r,lookupLoop uniq t f.addr fuel p pr = .ok r ∧
      (r.1.isSome ↔ ∃ e ∈ l,f.text e.2.1 = f.url) := by
  induction l generalizing p pr fuel with
  | nil =>
    obtain ⟨fuel,rfl⟩ := Nat.exists_eq_add_of_lt hf
    exact ⟨(none,none),by rw [chain_nil.mp hc]; rfl,by simp⟩
  | cons e l ih =>
    obtain ⟨rfl,n,hcell,hrest⟩ := chain_cons.mp hc
    obtain ⟨fuel,rfl⟩ : ∃ k,fuel = k+1 := ⟨fuel-1,by simp only [List.length_cons] at hf; omega⟩
    have helem : t.elem e.1 = .ok ⟨e.2.1,0,n⟩ := by
      rw [Table.elem_of_cell hcell,(hl e List.mem_cons_self).2]
    have hm := matchKey_text hk (hl e List.mem_cons_self).1 n
    by_cases he : f.text e.2.1 = f.url
    · refine ⟨(some e.1,pr),?_,?_⟩
      · simp [lookupLoop,helem,hm,he]
      · simp [he]
    · obtain ⟨r,hr,hiff⟩ := ih hrest (fun x hx => hl x (List.mem_cons_of_mem _ hx))
        (by simpa using hf) (some e.1)
      refine ⟨r,?_,?_⟩
      · simp [lookupLoop,helem,hm,he,hr]
      · simp [hiff,he]

theorem Keeps.head_eq (h : Keeps t kept) (u : Bytes) :
    ∃ p,t.head (bucket u) = .ok p ∧ Chain t.cell (chainOf kept (bucket u)) p := by
  have hlt : bucket u < t.hash.length := by
    rw [h.heads]
    exact bucket_lt u
  have hp : t.hash[bucket u]? = some t.hash[bucket u] := List.getElem?_eq_getElem hlt
  exact ⟨_,by simp [Table.head,hp],h.chain _ _ hp⟩

theorem hashKey_text (hk : t.keys = f.keys) : hashKey uniq t f.addr = .ok (bucket f.url) := by
  have hhash := hash_eq (f.mem f.addr)
  simp only [hashKey,Table.block,hk,Feed.keys,ok_bind,hhash]
  rfl

/-- `ant_lookup` finds an element exactly if the URL is read through a kept pointer. -/
theorem Keeps.lookup_eq (h : Keeps t kept) (hk : t.keys = f.keys) :
    ∃ r,lookup uniq t f.addr = .ok r ∧ (r.1.isSome ↔ ∃ g ∈ kept,Sees f g) := by
  obtain ⟨p,hp,hchain⟩ := h.head_eq f.url
  have hmem : ∀ e ∈ chainOf kept (bucket f.url),e.2.1 ≠ 0 ∧ e.2.2 = 0 := by
    intro e he
    obtain ⟨g,_,_,ha,_⟩ := mem_chainOf he
    obtain ⟨x,_,rfl⟩ := List.mem_map.mp he
    exact ⟨ha ▸ g.addr_ne,rfl⟩
  have hlen : (chainOf kept (bucket f.url)).length < t.fresh+1 := by
    have hfilter := List.length_filter_le (fun e => bucket e.1.url = bucket f.url) kept.zipIdx
    simp only [chainOf,List.length_map,List.length_reverse,h.fresh]
    simp only [List.length_zipIdx] at hfilter
    omega
  obtain ⟨r,hr,hiff⟩ := lookupLoop_text hk hchain hmem hlen none
  refine ⟨r,by simp only [lookup,hashKey_text hk,hp,ok_bind,hr],hiff.trans ?_⟩
  constructor
  · rintro ⟨e,he,htext⟩
    obtain ⟨g,hg,hb,ha,_⟩ := mem_chainOf he
    exact ⟨g,hg,hb,ha ▸ htext⟩
  · rintro ⟨g,hg,hb,htext⟩
    obtain ⟨j,hj⟩ := exists_mem_chainOf hg
    exact ⟨_,hb ▸ hj,htext⟩

/-- `ant_hash_put` of a URL no kept pointer reads as: its pointer is kept as well. -/
theorem Keeps.put_eq (h : Keeps t kept) (hk : t.keys = f.keys) (hn : ∀ g ∈ kept,¬Sees f g)
    (hlen : kept.length < 2^31-1) :
    ∃ t',put uniq t f.addr 0 = .ok (0,t') ∧ Keeps t' (kept++[f]) := by
  obtain ⟨r,hr,hiff⟩ := h.lookup_eq hk
  obtain ⟨p,hp,hchain⟩ := h.head_eq f.url
  have hnone : r.1 = none := by
    rw [← Option.not_isSome_iff_eq_none,hiff]
    rintro ⟨g,hg,hs⟩
    exact hn g hg hs
  have hlt : t.length < 2^31-1 := by
    rw [h.length]
    omega
  have hb : bucket f.url < t.hash.length := by
    rw [h.heads]
    exact bucket_lt f.url
  have hcells : ∀ i,t.fresh ∉ (chainOf kept i).map Prod.fst := by
    intro i hi
    obtain ⟨e,he,hef⟩ := List.mem_map.mp hi
    obtain ⟨_,_,_,_,hcell⟩ := mem_chainOf he
    rw [h.fresh] at hef
    omega
  refine ⟨{ (t.setElem t.fresh (some ⟨f.addr,0,p⟩)).setHead (bucket f.url) (some t.fresh) with
      fresh := t.fresh+1,length := t.length+1 },?_,?_⟩
  · simp only [put,hr,hnone,hashKey_text hk,hp,ok_bind,if_pos hlt]
  · constructor
    · simpa [Table.setHead,Table.setElem] using h.heads
    · simp [h.fresh]
    · simp [h.length]
    · intro i q hq
      change (t.hash.set (bucket f.url) (some t.fresh))[i]? = some q at hq
      change Chain (t.setElem t.fresh _).cell _ _
      rw [Table.cell_setElem,chainOf_concat]
      split_ifs with hi
      · subst hi
        rw [List.getElem?_set_self hb] at hq
        cases hq
        rw [← h.fresh]
        exact hchain.push (hcells _)
      · rw [List.getElem?_set_ne hi] at hq
        exact (h.chain i q hq).update_of_notMem (hcells i)

/-- Without room in the `int` length. -/
theorem Keeps.put_full (h : Keeps t kept) (hk : t.keys = f.keys) (hn : ∀ g ∈ kept,¬Sees f g)
    (hlen : ¬kept.length < 2^31-1) : put uniq t f.addr 0 = .error .undefined := by
  obtain ⟨r,hr,hiff⟩ := h.lookup_eq hk
  obtain ⟨p,hp,_⟩ := h.head_eq f.url
  have hnone : r.1 = none := by
    rw [← Option.not_isSome_iff_eq_none,hiff]
    rintro ⟨g,hg,hs⟩
    exact hn g hg hs
  have hfull : ¬t.length < 2^31-1 := by
    rw [h.length]
    omega
  simp only [put,hr,hnone,hashKey_text hk,hp,ok_bind,if_neg hfull]

/-- One call of `filter_add`: a URL that is read through a kept pointer is passed over,
another one is scheduled and its pointer kept, while the length can count it. -/
theorem Keeps.exec_sees (h : Keeps t kept) (hs : ∃ g ∈ kept,Sees f g) :
    ∃ t',exec f t = .ok (none,t') ∧ Keeps t' kept := by
  have hmem : Keeps { t with keys := f.keys } kept := ⟨h.heads,h.fresh,h.length,h.chain⟩
  obtain ⟨r,hr,hiff⟩ := hmem.lookup_eq (f := f) rfl
  refine ⟨_,?_,hmem⟩
  simp [exec,filterAdd,uniqExists,hr,hiff.mpr hs]

theorem Keeps.exec_new (h : Keeps t kept) (hn : ∀ g ∈ kept,¬Sees f g) :
    (kept.length < 2^31-1 →
        ∃ t',exec f t = .ok (some (schedule f.url),t') ∧ Keeps t' (kept++[f])) ∧
      (¬kept.length < 2^31-1 → exec f t = .error .undefined) := by
  have hmem : Keeps { t with keys := f.keys } kept := ⟨h.heads,h.fresh,h.length,h.chain⟩
  obtain ⟨r,hr,hiff⟩ := hmem.lookup_eq (f := f) rfl
  have hnone : r.1 = none := by
    rw [← Option.not_isSome_iff_eq_none,hiff]
    rintro ⟨g,hg,hs⟩
    exact hn g hg hs
  constructor
  · intro hlen
    obtain ⟨t',hput,hkeeps⟩ := hmem.put_eq (f := f) rfl hn hlen
    refine ⟨t',?_,hkeeps⟩
    have hurl : cstr (f.mem f.addr++[0]) = f.url := cstr_append_zero _
    simp [exec,filterAdd,uniqExists,uniqPut,hr,hnone,hput,Table.block,Feed.keys,hurl]
  · intro hlen
    simp [exec,filterAdd,uniqExists,uniqPut,hr,hnone,hmem.put_full (f := f) rfl hn hlen]

end Lookup

/-! ### Runs -/

/-- After the URLs of `kept`, the run on `feeds` schedules what is new exactly once. -/
def ScheduledFrom (kept : List Feed) (t : Table) (feeds : List Feed) : Prop :=
  ∃ rs t',runs exec feeds t = .ok (rs,t') ∧ (urls kept++scheduled rs).Nodup ∧
    ∀ u,u ∈ urls kept++scheduled rs ↔ u ∈ urls kept++urls feeds

theorem scheduledFrom_nil {kept : List Feed} (hd : (urls kept).Nodup) (t : Table) :
    ScheduledFrom kept t [] :=
  ⟨[],t,rfl,by simpa [scheduled] using hd,by simp [scheduled,urls]⟩

section Step
variable {t t' : Table} {kept feeds : List Feed} {f : Feed}

/-- After a call that passed its URL over, the run is right if the URL is an old one and
the rest of the run is right. -/
theorem scheduledFrom_cons_none (he : exec f t = .ok (none,t')) (hf : f.url ∈ urls kept) :
    ScheduledFrom kept t (f::feeds) ↔ ScheduledFrom kept t' feeds := by
  have hmem : ∀ u,u ∈ urls kept++urls (f::feeds) ↔ u ∈ urls kept++urls feeds := by
    intro u
    simp only [urls,List.map_cons,List.mem_append,List.mem_cons]
    constructor
    · rintro (h | rfl | h)
      · exact .inl h
      · exact .inl hf
      · exact .inr h
    · rintro (h | h)
      · exact .inl h
      · exact .inr (.inr h)
  constructor
  · rintro ⟨rs,t₂,hrun,hd,hu⟩
    obtain ⟨r,t₁,rs',h₁,h₂,rfl⟩ := runs_cons_eq_ok.mp hrun
    rw [he] at h₁
    cases h₁
    exact ⟨rs',t₂,h₂,hd,fun u => (hu u).trans (hmem u)⟩
  · rintro ⟨rs,t₂,hrun,hd,hu⟩
    exact ⟨none::rs,t₂,runs_cons_eq_ok.mpr ⟨_,_,_,he,hrun,rfl⟩,hd,fun u => (hu u).trans (hmem u).symm⟩

/-- After a call that scheduled its URL, the URL counts among the old ones. -/
theorem scheduledFrom_cons_some (he : exec f t = .ok (some (schedule f.url),t')) :
    ScheduledFrom kept t (f::feeds) ↔ ScheduledFrom (kept++[f]) t' feeds := by
  have hlist : ∀ rs,urls kept++scheduled (some (schedule f.url)::rs) =
      urls (kept++[f])++scheduled rs := by
    intro rs
    simp [urls,scheduled]
  have hfeeds : urls kept++urls (f::feeds) = urls (kept++[f])++urls feeds := by simp [urls]
  constructor
  · rintro ⟨rs,t₂,hrun,hd,hu⟩
    obtain ⟨r,t₁,rs',h₁,h₂,rfl⟩ := runs_cons_eq_ok.mp hrun
    rw [he] at h₁
    cases h₁
    rw [hlist] at hd
    rw [hfeeds] at hu
    exact ⟨rs',t₂,h₂,hd,fun u => hlist rs' ▸ hu u⟩
  · rintro ⟨rs,t₂,hrun,hd,hu⟩
    refine ⟨some (schedule f.url)::rs,t₂,runs_cons_eq_ok.mpr ⟨_,_,_,he,hrun,rfl⟩,?_,?_⟩
    · rw [hlist]
      exact hd
    · rw [hfeeds,hlist]
      exact hu

theorem not_scheduledFrom_cons (he : exec f t = .error .undefined) :
    ¬ScheduledFrom kept t (f::feeds) := by
  rintro ⟨rs,t₂,hrun,_⟩
  obtain ⟨_,_,_,h₁,_⟩ := runs_cons_eq_ok.mp hrun
  rw [he] at h₁
  cases h₁

end Step

theorem prefixes_cons {α : Type*} {P : List α → Prop} {a : α} {l : List α} (h : P []) :
    (∀ pre,pre <+: a::l → P pre) ↔ ∀ pre,pre <+: l → P (a::pre) := by
  constructor
  · intro hp pre hpre
    exact hp _ (List.cons_prefix_cons.mpr ⟨rfl,hpre⟩)
  · intro hp pre hpre
    cases pre with
    | nil => exact h
    | cons b pre =>
      obtain ⟨rfl,hl⟩ := List.cons_prefix_cons.mp hpre
      exact hp pre hl

theorem urls_concat (kept : List Feed) (f : Feed) : urls (kept++[f]) = urls kept++[f.url] := by
  simp [urls]

theorem nodup_urls_concat {kept : List Feed} {f : Feed} (hd : (urls kept).Nodup)
    (hf : f.url ∉ urls kept) : (urls (kept++[f])).Nodup := by
  rw [urls_concat]
  apply hd.append (List.nodup_singleton _)
  intro u hu hu'
  rw [List.mem_singleton.mp hu'] at hu
  exact hf hu

/-- The run is right at every point exactly if each URL is read right when it is fed. -/
theorem scheduledFrom_iff (feeds : List Feed) {kept : List Feed} {t : Table} (h : Keeps t kept)
    (hd : (urls kept).Nodup) :
    (∀ pre,pre <+: feeds → ScheduledFrom kept t pre) ↔ ConsistentFrom kept feeds := by
  induction feeds generalizing kept t with
  | nil =>
    simp only [List.prefix_nil,forall_eq,ConsistentFrom,iff_true]
    exact scheduledFrom_nil hd t
  | cons f feeds ih =>
    rw [prefixes_cons (scheduledFrom_nil hd t)]
    have hfirst : (∀ pre,pre <+: feeds → ScheduledFrom kept t (f::pre)) → ScheduledFrom kept t [f] :=
      fun hp => hp [] List.nil_prefix
    by_cases hs : ∃ g ∈ kept,Sees f g
    · obtain ⟨t',he,ht'⟩ := h.exec_sees hs
      by_cases hf : f.url ∈ urls kept
      · simp only [ConsistentFrom,if_pos hf,hs,true_and,scheduledFrom_cons_none he hf]
        exact ih ht' hd
      · -- the new URL is passed over and missing from the schedule
        simp only [ConsistentFrom,if_neg hf]
        refine iff_of_false (fun hp => ?_) fun hc => ?_
        · obtain ⟨rs,t₂,hrun,_,hu⟩ := hfirst hp
          obtain ⟨r,t₁,rs',h₁,h₂,rfl⟩ := runs_cons_eq_ok.mp hrun
          rw [he] at h₁
          cases h₁
          cases h₂
          have hmem := (hu f.url).mpr (by simp [urls])
          exact hf (by simpa [scheduled] using hmem)
        · obtain ⟨g,hg,hsee⟩ := hs
          exact hc.1 g hg hsee
    · have hn : ∀ g ∈ kept,¬Sees f g := fun g hg hsee => hs ⟨g,hg,hsee⟩
      have hnew := h.exec_new hn
      by_cases hlen : kept.length < 2^31-1
      · obtain ⟨t',he,ht'⟩ := hnew.1 hlen
        by_cases hf : f.url ∈ urls kept
        · -- the old URL is scheduled again
          simp only [ConsistentFrom,if_pos hf]
          refine iff_of_false (fun hp => ?_) fun hc => hs hc.1
          obtain ⟨rs,t₂,hrun,hdup,_⟩ := (scheduledFrom_cons_some he).mp (hfirst hp)
          have hkept : (urls kept++[f.url]).Nodup := by
            simpa [urls] using (List.nodup_append.mp hdup).1
          exact (List.nodup_append.mp hkept).2.2 _ hf _ (List.mem_singleton_self _) rfl
        · have hd' : (urls (kept++[f])).Nodup := nodup_urls_concat hd hf
          simp only [ConsistentFrom,if_neg hf,hlen,true_and,scheduledFrom_cons_some he]
          rw [ih ht' hd']
          exact ⟨fun hc => ⟨hn,hc⟩,fun hc => hc.2⟩
      · have he := hnew.2 hlen
        refine iff_of_false (fun hp => not_scheduledFrom_cons he (hfirst hp)) fun hc => ?_
        by_cases hf : f.url ∈ urls kept
        · simp only [ConsistentFrom,if_pos hf] at hc
          exact hs hc.1
        · simp only [ConsistentFrom,if_neg hf] at hc
          exact hlen hc.2.1

/-- The visited set of `filter_add`, for any feeds and whatever the buffers hold: at every
point of the run each URL fed so far is scheduled exactly once, if and only if the pointers
kept read right whenever a URL is fed. -/
theorem scheduledOnce_iff (feeds : List Feed) :
    (∀ pre,pre <+: feeds → ScheduledOnce pre) ↔ Consistent feeds :=
  scheduledFrom_iff feeds keeps_new List.nodup_nil

/-! ### The URLs of a file -/

/-- `fgets` with room for `n` bytes: a line with its newline, or a full buffer. -/
def fgets : ℕ → Bytes → Bytes × Bytes
  | 0, s => ([],s)
  | _+1, [] => ([],[])
  | n+1, b::s =>
    if b = 10 then ([b],s)
    else
      let r := fgets n s
      (b::r.1,r.2)

/-- The lines the loop of `file_extract_url` sees; each is at least one byte. -/
def fileLines : ℕ → Bytes → List Bytes
  | 0, _ => []
  | fuel+1, s =>
    if s = [] then []
    else
      let r := fgets 1023 s
      r.1::fileLines fuel r.2

/-- The string a line is cut to; a line of white space is skipped. -/
def lineUrl (line : Bytes) : Option Bytes :=
  if (cstr line).all isspace then none else some ((cstr line).takeWhile fun b => !isspace b)

/-- `file_extract_url`: the URLs of a file in the order they are fed. -/
def fileExtractUrl (file : Bytes) : List Bytes := (fileLines file.length file).filterMap lineUrl

/-- Each of them is fed from the one line buffer. -/
def fileFeeds (line : ℕ) (hl : line ≠ 0) (mem : ℕ → Bytes) (file : Bytes) : List Feed :=
  (fileExtractUrl file).map fun u => ⟨line,Function.update mem line u,hl⟩

/-- The feeds come from one buffer. -/
def OneBuffer (line : ℕ) (feeds : List Feed) : Prop := ∀ f ∈ feeds,f.addr = line

/-- Different URLs hash to different buckets. -/
def Separate (us : List Bytes) : Prop := ∀ u ∈ us,∀ v ∈ us,bucket u = bucket v → u = v

theorem Separate.length_le {us : List Bytes} (h : Separate us) (hd : us.Nodup) :
    us.length ≤ 4096 := by
  have hbuckets : (us.map bucket).Nodup := hd.map_on h
  have hsub : us.map bucket ⊆ List.range 4096 := by
    intro i hi
    obtain ⟨u,_,rfl⟩ := List.mem_map.mp hi
    exact List.mem_range.mpr (bucket_lt u)
  have hle := (hbuckets.subperm hsub).length_le
  simpa using hle

theorem sees_iff_bucket {line : ℕ} {f g : Feed} (hf : f.addr = line) (hg : g.addr = line) :
    Sees f g ↔ bucket g.url = bucket f.url := by
  have htext : f.text g.addr = f.url := by rw [hg,← hf]; rfl
  simp [Sees,htext]

theorem Separate.mono {us vs : List Bytes} (h : Separate vs) (hsub : us ⊆ vs) : Separate us :=
  fun u hu v hv => h u (hsub hu) v (hsub hv)

theorem OneBuffer.concat {line : ℕ} {kept : List Feed} {f : Feed} (hk : OneBuffer line kept)
    (hf : f.addr = line) : OneBuffer line (kept++[f]) := by
  intro g hg
  rcases List.mem_append.mp hg with hg | hg
  · exact hk g hg
  · rw [List.mem_singleton.mp hg]
    exact hf

theorem Separate.concat {us : List Bytes} {v : Bytes} (h : Separate us)
    (hv : ∀ u ∈ us,bucket u ≠ bucket v) : Separate (us++[v]) := by
  intro u hu w hw hb
  rw [List.mem_append,List.mem_singleton] at hu hw
  rcases hu with hu | rfl <;> rcases hw with hw | rfl
  · exact h u hu w hw hb
  · exact absurd hb (hv u hu)
  · exact absurd hb.symm (hv w hw)
  · rfl

/-- From one buffer a pointer reads as whatever URL is looked up, so that the bucket alone
decides. -/
theorem consistentFrom_iff_separate {line : ℕ} (feeds : List Feed) {kept : List Feed}
    (hf : OneBuffer line feeds) (hk : OneBuffer line kept) (hd : (urls kept).Nodup)
    (hs : Separate (urls kept)) :
    ConsistentFrom kept feeds ↔ Separate (urls kept++urls feeds) := by
  induction feeds generalizing kept with
  | nil => simpa [ConsistentFrom,urls] using hs
  | cons f feeds ih =>
    have haddr : f.addr = line := hf f (by simp)
    have hrest : OneBuffer line feeds := fun g hg => hf g (by simp [hg])
    by_cases hmem : f.url ∈ urls kept
    · obtain ⟨g,hg,hgu⟩ := List.mem_map.mp hmem
      have hsee : ∃ g ∈ kept,Sees f g :=
        ⟨g,hg,(sees_iff_bucket haddr (hk g hg)).mpr (by rw [hgu])⟩
      simp only [ConsistentFrom,if_pos hmem,hsee,true_and]
      rw [ih hrest hk hd hs]
      constructor
      · intro h
        apply h.mono
        intro u hu
        simp only [urls,List.map_cons,List.mem_append,List.mem_cons] at hu ⊢
        rcases hu with hu | rfl | hu
        · exact .inl hu
        · exact .inl hmem
        · exact .inr hu
      · intro h
        apply h.mono
        intro u hu
        simp only [urls,List.map_cons,List.mem_append,List.mem_cons] at hu ⊢
        tauto
    · have hone : OneBuffer line (kept++[f]) := hk.concat haddr
      have hurls := urls_concat kept f
      have hd' : (urls (kept++[f])).Nodup := nodup_urls_concat hd hmem
      have happ : urls kept++urls (f::feeds) = urls (kept++[f])++urls feeds := by simp [urls]
      simp only [ConsistentFrom,if_neg hmem]
      rw [happ]
      constructor
      · rintro ⟨hn,_,hc⟩
        have hne : ∀ u ∈ urls kept,bucket u ≠ bucket f.url := by
          intro u hu hb
          obtain ⟨g,hg,rfl⟩ := List.mem_map.mp hu
          exact hn g hg ((sees_iff_bucket haddr (hk g hg)).mpr hb)
        exact (ih hrest hone hd' (hurls ▸ hs.concat hne)).mp hc
      · intro h
        have hsep : Separate (urls (kept++[f])) := h.mono (List.subset_append_left _ _)
        refine ⟨fun g hg hsee => hmem ?_,?_,(ih hrest hone hd' hsep).mpr h⟩
        · have hb := (sees_iff_bucket haddr (hk g hg)).mp hsee
          have hgu : g.url ∈ urls kept := List.mem_map_of_mem hg
          have heq := hsep g.url (by simp [hurls,hgu]) f.url (by simp [hurls]) hb
          exact heq ▸ hgu
        · have hle := hs.length_le hd
          simp only [urls,List.length_map] at hle
          omega

theorem cstr_lineUrl {line u : Bytes} (h : lineUrl line = some u) : cstr u = u := by
  unfold lineUrl at h
  split_ifs at h
  cases h
  apply List.takeWhile_eq_self_iff.mpr
  intro b hb
  have hline : b ∈ cstr line := List.takeWhile_subset _ hb
  exact List.mem_takeWhile_imp (p := fun b => decide (b ≠ 0)) hline

theorem urls_fileFeeds (line : ℕ) (hl : line ≠ 0) (mem : ℕ → Bytes) (file : Bytes) :
    urls (fileFeeds line hl mem file) = fileExtractUrl file := by
  have hmap : ∀ u ∈ fileExtractUrl file,
      (Feed.url ∘ fun u => ⟨line,Function.update mem line u,hl⟩) u = id u := by
    intro u hu
    obtain ⟨l,_,hlu⟩ := List.mem_filterMap.mp hu
    simpa [Feed.url,Feed.text] using cstr_lineUrl hlu
  rw [urls,fileFeeds,List.map_map,List.map_congr_left hmap,List.map_id]

/-- Reading one file into an empty table: every URL is scheduled exactly once if and only if
no two different URLs of the file share a bucket. -/
theorem fileExtractUrl_scheduledOnce_iff (line : ℕ) (hl : line ≠ 0) (mem : ℕ → Bytes)
    (file : Bytes) :
    (∀ pre,pre <+: fileFeeds line hl mem file → ScheduledOnce pre) ↔
      Separate (fileExtractUrl file) := by
  have hone : OneBuffer line (fileFeeds line hl mem file) := by
    intro f hf
    obtain ⟨u,_,rfl⟩ := List.mem_map.mp hf
    rfl
  have hiff := scheduledFrom_iff (fileFeeds line hl mem file) keeps_new List.nodup_nil
  have hnil : OneBuffer line [] := by simp [OneBuffer]
  have hsep := consistentFrom_iff_separate _ hone hnil List.nodup_nil
    (by simp [Separate,urls])
  rw [urls_fileFeeds] at hsep
  exact hiff.trans hsep

/-- "ab" and "ba", a line each. -/
def anagrams : Bytes := [97,98,10,98,97,10]

theorem not_scheduledOnce_anagrams :
    ¬∀ feeds : List Feed,∀ pre,pre <+: feeds → ScheduledOnce pre := by
  intro h
  have hc := (scheduledFrom_iff (fileFeeds 1 one_ne_zero (fun _ => []) anagrams) keeps_new
    List.nodup_nil).mp (h _)
  exact absurd hc (by decide)

end AntVisited
end RecycleBin
