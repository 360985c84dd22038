import RecycleBin.AntQueue
import RecycleBin.Transition

/-! The hand-off of URLs between the crawler, which runs `url_add`, and the DNS
thread, which runs `process_cache_dns`. Both look at `val->flags` and `val->down`
under different mutexes. A section under one mutex that touches shared data once is
one step; every other access to shared data is a step of its own. -/
namespace RecycleBin
namespace UrlHandoff
open AntQueue

variable {D U : Type}

/-- The fields of `struct cache_val` the two threads share. -/
structure CacheVal where
  flags : ℕ
  down : Option ℕ
  deriving DecidableEq

/-- What `down_add` queues: the URL and the domain whose address it waits for. -/
structure Down (D U : Type) where
  domain : D
  url : U
  deriving DecidableEq

/-- `url_to_domain` and `url_modify`; `none` where the latter fails. -/
structure Urls (D U : Type) where
  toDomain : U → D
  modify : U → Option U

/-- What `url_add(url2)` queues. -/
def Urls.item (P : Urls D U) (url2 : U) : Down D U := ⟨P.toDomain url2,(P.modify url2).getD url2⟩

/-- Where the crawler stands in `url_add`. -/
inductive Crawler (D U : Type)
  | idle
  | missing (x : Down D U)
  | queueing (x : Down D U)
  | found (x : Down D U)
  | resolved (x : Down D U)
  | unresolved (x : Down D U)
  | holding (x : Down D U) (down : Option ℕ)
  deriving DecidableEq

/-- Where the DNS thread stands in `process_cache_dns`. -/
inductive Resolver (D : Type)
  | idle
  | looked (host : D) (flags : ℕ)
  | flagged (host : D)
  | locked (host : D)
  | joined (host : D)
  | freed (host : D)
  | nulled (host : D)
  | leaving (host : D)
  deriving DecidableEq

/-- `ANT_CACHE_DNS` is held from the lookup to the end. -/
def Resolver.holdsCache : Resolver D → Bool
  | .idle => false
  | _ => true

/-- `ANT_DOWN` is held around the join. -/
def Resolver.holdsDown : Resolver D → Bool
  | .locked _ | .joined _ | .freed _ | .nulled _ => true
  | _ => false

/-- The shared data, the two threads, the items of the calls that have returned and
the fault that stopped the program. -/
structure State (D U : Type) where
  mem : Mem (Down D U)
  total : ℕ
  cache : D → Option CacheVal
  queueDns : List D
  crawler : Crawler D U
  resolver : Resolver D
  returned : List (Down D U)
  fault : Option Fault

namespace State

def init : State D U where
  mem := (queueNew Mem.empty).2
  total := (queueNew (Mem.empty : Mem (Down D U))).1
  cache := fun _ => none
  queueDns := []
  crawler := .idle
  resolver := .idle
  returned := []
  fault := none

/-- Continue after a queue operation, or stop at its fault. -/
def after (s : State D U) (r : Except Fault (Mem (Down D U))) (k : Mem (Down D U) → State D U) :
    State D U :=
  match r with
  | .ok m => k m
  | .error e => { s with fault := some e }

/-- `ant_lookup(total->cache_dns, domain, NULL)`, outside every mutex. -/
def lookup (s : State D U) (x : Down D U) : State D U :=
  { s with crawler := if (s.cache x.domain).isSome then .found x else .missing x }

variable [DecidableEq D]

/-- A new `cache_val` with its own queue is put under `ANT_CACHE_DNS`. -/
def create (s : State D U) (x : Down D U) : State D U :=
  let (q,m) := queueNew s.mem
  s.after (queuePut x (some q) m) fun m' =>
    { s with
      mem := m'
      cache := Function.update s.cache x.domain (some ⟨0,some q⟩)
      crawler := .queueing x }

/-- `queue_put(strdup(domain), total->queue_dns)` and the return. -/
def enqueue (s : State D U) (x : Down D U) : State D U :=
  { s with
    queueDns := s.queueDns++[x.domain]
    crawler := .idle
    returned := s.returned++[x] }

/-- The test `val->flags == 1`, outside every mutex. -/
def test (s : State D U) (x : Down D U) (v : CacheVal) : State D U :=
  { s with crawler := if v.flags = 1 then .resolved x else .unresolved x }

/-- `down_add(…, total->down)` under `ANT_DOWN`, and the return. -/
def pushTotal (s : State D U) (x : Down D U) : State D U :=
  s.after (queuePut x (some s.total) s.mem) fun m =>
    { s with mem := m, crawler := .idle, returned := s.returned++[x] }

/-- Under `ANT_ITEM_DOWN`, which the DNS thread never takes, `val->down` is read. -/
def read (s : State D U) (x : Down D U) (v : CacheVal) : State D U :=
  { s with crawler := .holding x v.down }

/-- `down_add(…, val->down)` on the pointer read, and the return. -/
def push (s : State D U) (x : Down D U) (down : Option ℕ) : State D U :=
  s.after (queuePut x down s.mem) fun m =>
    { s with mem := m, crawler := .idle, returned := s.returned++[x] }

/-- `ANT_CACHE_DNS` is taken and the host is looked up; without a value it is released. -/
def receive (s : State D U) (host : D) (flags : ℕ) : State D U :=
  { s with resolver := if (s.cache host).isSome then .looked host flags else .idle }

/-- The two tests; past them `val->flags = 1`. -/
def check (s : State D U) (host : D) (flags : ℕ) (v : CacheVal) : State D U :=
  if v.flags = 1 ∨ flags ≠ 0x8180 then { s with resolver := .idle }
  else { s with
    cache := Function.update s.cache host (some { v with flags := 1 })
    resolver := .flagged host }

/-- `queue_join_init(total->down, val->down)`. -/
def join (s : State D U) (host : D) (v : CacheVal) : State D U :=
  s.after (queueJoinInit (some s.total) v.down s.mem) fun m =>
    { s with mem := m, resolver := .joined host }

/-- `queue_free(val->down)`. -/
def free (s : State D U) (host : D) (v : CacheVal) : State D U :=
  s.after (queueFree v.down s.mem) fun m => { s with mem := m, resolver := .freed host }

/-- `val->down = NULL`. -/
def null (s : State D U) (host : D) (v : CacheVal) : State D U :=
  { s with
    cache := Function.update s.cache host (some { v with down := none })
    resolver := .nulled host }

end State

variable [DecidableEq D]

/-- One step of either thread. A thread that needs a mutex the other holds waits. -/
inductive Step (P : Urls D U) : State D U → State D U → Prop
  | call (s : State D U) (url2 : U) : s.fault = none → s.crawler = .idle →
      Step P s (s.lookup (P.item url2))
  | create (s : State D U) (x : Down D U) : s.fault = none → s.crawler = .missing x →
      s.resolver.holdsCache = false → Step P s (s.create x)
  | enqueue (s : State D U) (x : Down D U) : s.fault = none → s.crawler = .queueing x →
      Step P s (s.enqueue x)
  | test (s : State D U) (x : Down D U) (v : CacheVal) : s.fault = none → s.crawler = .found x →
      s.cache x.domain = some v → Step P s (s.test x v)
  | pushTotal (s : State D U) (x : Down D U) : s.fault = none → s.crawler = .resolved x →
      s.resolver.holdsDown = false → Step P s (s.pushTotal x)
  | read (s : State D U) (x : Down D U) (v : CacheVal) : s.fault = none →
      s.crawler = .unresolved x → s.cache x.domain = some v → Step P s (s.read x v)
  | push (s : State D U) (x : Down D U) (down : Option ℕ) : s.fault = none →
      s.crawler = .holding x down → Step P s (s.push x down)
  | receive (s : State D U) (host : D) (flags : ℕ) : s.fault = none → s.resolver = .idle →
      Step P s (s.receive host flags)
  | check (s : State D U) (host : D) (flags : ℕ) (v : CacheVal) : s.fault = none →
      s.resolver = .looked host flags → s.cache host = some v → Step P s (s.check host flags v)
  | lock (s : State D U) (host : D) : s.fault = none → s.resolver = .flagged host →
      Step P s { s with resolver := .locked host }
  | join (s : State D U) (host : D) (v : CacheVal) : s.fault = none →
      s.resolver = .locked host → s.cache host = some v → Step P s (s.join host v)
  | free (s : State D U) (host : D) (v : CacheVal) : s.fault = none →
      s.resolver = .joined host → s.cache host = some v → Step P s (s.free host v)
  | null (s : State D U) (host : D) (v : CacheVal) : s.fault = none →
      s.resolver = .freed host → s.cache host = some v → Step P s (s.null host v)
  | unlockDown (s : State D U) (host : D) : s.fault = none → s.resolver = .nulled host →
      Step P s { s with resolver := .leaving host }
  | unlockCache (s : State D U) (host : D) : s.fault = none → s.resolver = .leaving host →
      Step P s { s with resolver := .idle }

/-- The items the calls so far have handed over: of every call that has returned, and
of the one that only has its domain left to queue. -/
def State.published (s : State D U) : List (Down D U) :=
  match s.crawler with
  | .queueing x => s.returned++[x]
  | _ => s.returned

/-- The items of a list that belong to a domain. -/
def ofDomain (d : D) (l : List (Down D U)) : List (Down D U) := l.filter fun x => x.domain = d

/-- The DNS thread has set the flag of the domain and joined its queue. -/
def State.Resolved (s : State D U) (d : D) : Prop :=
  (∃ v, s.cache d = some v ∧ v.flags = 1) ∧ s.resolver ≠ .flagged d ∧ s.resolver ≠ .locked d

/-- No step has used a queue that is freed or NULL, and every item of a resolved domain
is in `total->down` exactly once. -/
def State.Sound (s : State D U) : Prop :=
  s.fault = none ∧ ∃ q l, s.mem.queues s.total = some q ∧ IsQueue s.mem q l ∧
    ∀ d, s.Resolved d → (ofDomain d (l.map Prod.snd)).Perm (ofDomain d s.published)

/-- The crawler has seen `flags ≠ 1` for the domain and has not pushed yet. -/
def Crawler.pushing : Crawler D U → D → Prop
  | .unresolved x, d | .holding x _, d => x.domain = d
  | _, _ => False

/-- The join of a domain is not taken while the crawler is about to push to its queue. -/
def JoinsClear (s t : State D U) : Prop :=
  ∀ d, s.resolver = .locked d → t.resolver = .joined d → ¬s.crawler.pushing d

/-! ### The invariant -/

@[simp] theorem ofDomain_append (d : D) (l₁ l₂ : List (Down D U)) :
    ofDomain d (l₁++l₂) = ofDomain d l₁++ofDomain d l₂ := List.filter_append ..

theorem ofDomain_self {d : D} {l : List (Down D U)} (h : ∀ x ∈ l, x.domain = d) :
    ofDomain d l = l := List.filter_eq_self.mpr fun x hx => by simp [h x hx]

theorem ofDomain_other {d d' : D} {l : List (Down D U)} (h : ∀ x ∈ l, x.domain = d) (hd : d ≠ d') :
    ofDomain d' l = [] := List.filter_eq_nil_iff.mpr fun x hx => by simp [h x hx,hd]

/-- The queue a domain waits in. -/
def State.own (s : State D U) (d : D) : Option ℕ := (s.cache d).bind CacheVal.down

/-- The queues as lists of items at their addresses. -/
abbrev Queues (D U : Type) := ℕ → Option (List (ℕ × Down D U))

/-- The items in a domain's own queue, none if it is freed or NULL. -/
def inQueue (f : Queues D U) (own : Option ℕ) : List (Down D U) :=
  own.elim [] fun q => ((f q).getD []).map Prod.snd

/-- The DNS thread is between setting the domain's flag and clearing its pointer. -/
def Resolver.serving : Resolver D → D → Prop
  | .flagged host, d | .locked host, d | .joined host, d | .freed host, d => host = d
  | _, _ => False

/-- The domain's queue may still be pushed to. -/
def State.Open (s : State D U) (f : Queues D U) (d : D) (q : ℕ) : Prop :=
  s.own d = some q ∧ (∃ l, f q = some l) ∧ s.resolver ≠ .joined d

/-- What the crawler relies on. -/
def State.CrawlerOk (s : State D U) (f : Queues D U) : Prop :=
  match s.crawler with
  | .missing x => s.cache x.domain = none
  | .unresolved x => ∃ q, s.Open f x.domain q
  | .holding x down => ∃ q, down = some q ∧ s.Open f x.domain q
  | _ => True

/-- Every item handed over lies in `total->down` or in the queue of its own domain, and
a domain's queue is live until the DNS thread joins it. -/
structure Inv (s : State D U) (f : Queues D U) (lt : List (ℕ × Down D U)) : Prop where
  fault : s.fault = none
  reps : Reps s.mem f
  total : f s.total = some lt
  own_lt : ∀ d q, s.own d = some q → q ≠ s.total ∧ q < s.mem.fresh
  own_inj : ∀ d d' q, s.own d = some q → s.own d' = some q → d = d'
  domain : ∀ d q l, s.own d = some q → f q = some l → ∀ x ∈ l, x.2.domain = d
  account : ∀ d, (ofDomain d (lt.map Prod.snd)++inQueue f (s.own d)).Perm (ofDomain d s.published)
  waiting : ∀ d v, s.cache d = some v → ¬s.resolver.serving d →
    if v.flags = 1 then v.down = none else ∃ q l, v.down = some q ∧ f q = some l
  flagged : ∀ d, s.resolver.serving d → ∃ v q, s.cache d = some v ∧ v.flags = 1 ∧ v.down = some q
  before : ∀ d, s.resolver = .flagged d ∨ s.resolver = .locked d →
    ∃ q l, s.own d = some q ∧ f q = some l
  joined : ∀ d, s.resolver = .joined d → ∃ q, s.own d = some q ∧ f q = some []
  freed : ∀ d, s.resolver = .freed d → ∃ q, s.own d = some q ∧ f q = none
  crawler : s.CrawlerOk f

omit [DecidableEq D] in
/-- What the crawler relies on survives a step of the other thread that keeps every
queue it may push to. -/
theorem State.CrawlerOk.mono {s t : State D U} {f f' : Queues D U} (hok : s.CrawlerOk f)
    (hc : t.crawler = s.crawler) (hmiss : ∀ d, s.cache d = none → t.cache d = none)
    (hopen : ∀ d q, s.crawler.pushing d → s.Open f d q → t.Open f' d q) : t.CrawlerOk f' := by
  unfold CrawlerOk at hok ⊢
  rw [hc]
  rcases hs : s.crawler with _ | x | x | x | x | x | ⟨x,down⟩ <;> simp only [hs] at hok hopen ⊢
  · exact hmiss _ hok
  · obtain ⟨q,ho⟩ := hok
    exact ⟨q,hopen _ q rfl ho⟩
  · obtain ⟨q,hd,ho⟩ := hok
    exact ⟨q,hd,hopen _ q rfl ho⟩

namespace Inv
variable {s : State D U} {f : Queues D U} {lt : List (ℕ × Down D U)}

theorem init : Inv (State.init : State D U) (Function.update (fun _ => none) 0 (some [])) [] where
  fault := rfl
  reps := Reps.empty.queueNew
  total := rfl
  own_lt := fun d q h => by cases h
  own_inj := fun d d' q h => by cases h
  domain := fun d q l h => by cases h
  account := fun d => List.Perm.refl _
  waiting := fun d v h => by cases h
  flagged := fun d h => h.elim
  before := fun d h => by rcases h with h | h <;> cases h
  joined := fun d h => by cases h
  freed := fun d h => by cases h
  crawler := trivial

omit [DecidableEq D] in
theorem inQueue_congr {f' : Queues D U} {own : Option ℕ} (hf : ∀ q, own = some q → f' q = f q) :
    inQueue f' own = inQueue f own := by
  cases own with
  | none => rfl
  | some q => rw [inQueue,inQueue,Option.elim_some,Option.elim_some,hf q rfl]

variable (h : Inv s f lt)
include h

/-- A domain the resolver is not serving keeps what `waiting` says of it as long as its queue
stays live. -/
theorem waiting_mono {f' : Queues D U} {d : D} {v : CacheVal} (hv : s.cache d = some v)
    (hd : ¬s.resolver.serving d)
    (hf : ∀ q l, s.own d = some q → f q = some l → ∃ l', f' q = some l') :
    if v.flags = 1 then v.down = none else ∃ q l, v.down = some q ∧ f' q = some l := by
  have hw := h.waiting d v hv hd
  by_cases hflag : v.flags = 1
  · rwa [if_pos hflag] at hw ⊢
  · rw [if_neg hflag] at hw ⊢
    obtain ⟨q,l,hq,hl⟩ := hw
    have ho : s.own d = some q := by rw [State.own,hv]; exact hq
    obtain ⟨l',hl'⟩ := hf q l ho hl
    exact ⟨q,l',hq,hl'⟩

/-- Every resolved domain has its items in `total->down`. -/
theorem sound : s.Sound := by
  obtain ⟨-,q,hq,hl⟩ := h.reps.live _ _ h.total
  refine ⟨h.fault,q,lt,hq,hl,fun d ⟨⟨v,hv,hflag⟩,hnf,hnl⟩ => ?_⟩
  have hin : inQueue f (s.own d) = [] := by
    by_cases hs : s.resolver.serving d
    · rcases hr : s.resolver with _ | ⟨host,fl⟩ | host | host | host | host | host | host <;>
        simp only [hr,Resolver.serving] at hs hnf hnl
      · exact absurd rfl (hs ▸ hnf)
      · exact absurd rfl (hs ▸ hnl)
      · obtain ⟨q',ho,hf⟩ := h.joined d (hs ▸ hr)
        simp [inQueue,ho,hf]
      · obtain ⟨q',ho,hf⟩ := h.freed d (hs ▸ hr)
        simp [inQueue,ho,hf]
    · have hw := h.waiting d v hv hs
      rw [if_pos hflag] at hw
      simp [inQueue,State.own,hv,hw]
  have hacc := h.account d
  rwa [hin,List.append_nil] at hacc

/-- A step of the crawler that hands nothing over. -/
theorem setCrawler (c : Crawler D U) (ret : List (Down D U)) (dns : List D)
    (hp : ({ s with crawler := c, returned := ret, queueDns := dns } : State D U).published =
      s.published)
    (hc : ({ s with crawler := c, returned := ret, queueDns := dns } : State D U).CrawlerOk f) :
    Inv { s with crawler := c, returned := ret, queueDns := dns } f lt :=
  { h with
    account := fun d => by rw [hp]; exact h.account d
    crawler := hc }

theorem lookup {x : Down D U} (hi : s.crawler = .idle) : Inv (s.lookup x) f lt := by
  refine h.setCrawler _ s.returned s.queueDns ?_ ?_
  · rcases hx : s.cache x.domain with _ | v <;> simp [State.published,hi]
  · rcases hx : s.cache x.domain with _ | v
    · exact hx
    · trivial

theorem enqueue {x : Down D U} (hc : s.crawler = .queueing x) : Inv (s.enqueue x) f lt :=
  h.setCrawler .idle (s.returned++[x]) (s.queueDns++[x.domain])
    (by simp [State.published,hc]) trivial

/-- A flag other than 1 means that the queue has not been joined. -/
theorem test {x : Down D U} {v : CacheVal} (hc : s.crawler = .found x)
    (hv : s.cache x.domain = some v) : Inv (s.test x v) f lt := by
  refine h.setCrawler _ s.returned s.queueDns ?_ ?_
  · by_cases hflag : v.flags = 1 <;> simp [State.published,hc,hflag]
  · by_cases hflag : v.flags = 1
    · rw [if_pos hflag]
      trivial
    · rw [if_neg hflag]
      have hs : ¬s.resolver.serving x.domain := fun hs => by
        obtain ⟨v',q,hv',hflag',-⟩ := h.flagged _ hs
        rw [hv] at hv'
        cases hv'
        exact hflag hflag'
      have hw := h.waiting _ v hv hs
      rw [if_neg hflag] at hw
      obtain ⟨q,l,hq,hl⟩ := hw
      have hown : s.own x.domain = some q := by simp [State.own,hv,hq]
      exact ⟨q,hown,⟨l,hl⟩,fun hj => hs (by rw [hj]; rfl)⟩

theorem read {x : Down D U} {v : CacheVal} (hc : s.crawler = .unresolved x)
    (hv : s.cache x.domain = some v) : Inv (s.read x v) f lt := by
  refine h.setCrawler _ s.returned s.queueDns (by simp [State.published,hc]) ?_
  have hok := h.crawler
  rw [State.CrawlerOk,hc] at hok
  obtain ⟨q,hown,hl,hj⟩ := hok
  have hown' := hown
  rw [State.own,hv] at hown'
  exact ⟨q,hown',hown,hl,hj⟩

/-- A step of the DNS thread away from the join. -/
theorem setResolver (r : Resolver D) (hs : ∀ d, ¬s.resolver.serving d)
    (hr : ∀ d, ¬r.serving d) : Inv { s with resolver := r } f lt :=
  { h with
    waiting := fun d v hv _ => h.waiting d v hv (hs d)
    flagged := fun d hd => absurd hd (hr d)
    before := fun d hd => by
      rcases hd with hd | hd <;> cases (show r = _ from hd) <;> exact absurd rfl (hr d)
    joined := fun d hd => by
      cases (show r = _ from hd)
      exact absurd rfl (hr d)
    freed := fun d hd => by
      cases (show r = _ from hd)
      exact absurd rfl (hr d)
    crawler := h.crawler.mono rfl (fun _ hm => hm) fun d q _ ho => ⟨ho.1,ho.2.1,fun hd => by
      cases (show r = _ from hd)
      exact hr d rfl⟩ }

theorem lock {host : D} (hf : s.resolver = .flagged host) :
    Inv { s with resolver := .locked host } f lt :=
  { h with
    waiting := fun d v hv hd => h.waiting d v hv (by rwa [hf])
    flagged := fun d hd => h.flagged d (by rwa [hf])
    before := fun d hd => by
      rcases hd with hd | hd <;> cases hd
      exact h.before host (.inl hf)
    joined := fun d hd => by cases hd
    freed := fun d hd => by cases hd
    crawler := h.crawler.mono rfl (fun _ hm => hm) fun d q _ ho => ⟨ho.1,ho.2.1,fun hd => by cases hd⟩ }

theorem receive {host : D} {flags : ℕ} (hi : s.resolver = .idle) :
    Inv (s.receive host flags) f lt := by
  refine h.setResolver _ (fun d => by rw [hi]; exact id) fun d => ?_
  rcases hx : s.cache host with _ | v <;> exact id

/-- A push: every other queue stays, and the queue pushed to is not being joined. -/
theorem setMem {m : Mem (Down D U)} {f' : Queues D U} {lt' : List (ℕ × Down D U)} {x : Down D U}
    (hc : s.published = s.returned) (hR : Reps m f') (hfresh : s.mem.fresh ≤ m.fresh)
    (htotal : f' s.total = some lt')
    (hown : ∀ d q, s.own d = some q → f' q = f q ∨
      s.resolver ≠ .joined d ∧ ∃ l l', f q = some l ∧ f' q = some l')
    (hdomain : ∀ d q l, s.own d = some q → f' q = some l → ∀ x ∈ l, x.2.domain = d)
    (haccount : ∀ d, (ofDomain d (lt'.map Prod.snd)++inQueue f' (s.own d)).Perm
      (ofDomain d (lt.map Prod.snd)++inQueue f (s.own d)++ofDomain d [x])) :
    Inv { s with mem := m, crawler := .idle, returned := s.returned++[x] } f' lt' := by
  have hlive : ∀ d q l, s.own d = some q → f q = some l → ∃ l', f' q = some l' := by
    intro d q l ho hl
    rcases hown d q ho with he | ⟨-,l₁,l',-,hl'⟩
    · exact ⟨l,by rw [he,hl]⟩
    · exact ⟨l',hl'⟩
  exact { h with
    reps := hR
    total := htotal
    own_lt := fun d q ho => ⟨(h.own_lt d q ho).1,(h.own_lt d q ho).2.trans_le hfresh⟩
    domain := hdomain
    account := fun d => by
      refine (haccount d).trans ?_
      rw [show State.published _ = s.returned++[x] from rfl,ofDomain_append,← hc]
      exact (h.account d).append_right _
    waiting := fun d v hv hn => h.waiting_mono hv hn (hlive d)
    before := fun d hd => by
      obtain ⟨q,l,ho,hl⟩ := h.before d hd
      obtain ⟨l',hl'⟩ := hlive d q l ho hl
      exact ⟨q,l',ho,hl'⟩
    joined := fun d hd => by
      obtain ⟨q,ho,hl⟩ := h.joined d hd
      exact ⟨q,ho,((hown d q ho).resolve_right fun hj => hj.1 hd).trans hl⟩
    freed := fun d hd => by
      obtain ⟨q,ho,hl⟩ := h.freed d hd
      rcases hown d q ho with he | ⟨-,l,-,hl',-⟩
      · exact ⟨q,ho,he.trans hl⟩
      · rw [hl] at hl'
        cases hl'
    crawler := trivial }

/-- Pushing to `total->down`. -/
theorem pushTotal {x : Down D U} (hc : s.crawler = .resolved x) :
    ∃ f' lt', Inv (s.pushTotal x) f' lt' := by
  obtain ⟨m,hm,hfresh,hR⟩ := h.reps.queuePut h.total x
  have hs : s.pushTotal x =
      { s with mem := m, crawler := .idle, returned := s.returned++[x] } := by
    simp [State.pushTotal,hm,State.after]
  have hf : ∀ d q, s.own d = some q →
      Function.update f s.total (some (lt++[(s.mem.fresh,x)])) q = f q := fun d q ho =>
    Function.update_of_ne (h.own_lt d q ho).1 _ _
  rw [hs]
  refine ⟨_,lt++[(s.mem.fresh,x)],h.setMem (by simp [State.published,hc]) hR (by omega)
    (Function.update_self _ _ _) (fun d q ho => .inl (hf d q ho))
    (fun d q l ho hl => h.domain d q l ho (by rw [← hf d q ho,hl])) fun d => ?_⟩
  have hin : inQueue (Function.update f s.total (some (lt++[(s.mem.fresh,x)]))) (s.own d) =
      inQueue f (s.own d) := by
    rcases ho : s.own d with _ | q
    · rfl
    · simp only [inQueue,Option.elim,hf d q ho]
  rw [hin,List.map_append,ofDomain_append,List.append_assoc,List.append_assoc]
  exact List.Perm.append_left _ List.perm_append_comm

/-- Pushing to the domain's own queue, while it may still be pushed to. -/
theorem push {x : Down D U} {down : Option ℕ} (hc : s.crawler = .holding x down) :
    ∃ f' lt', Inv (s.push x down) f' lt' := by
  have hok := h.crawler
  rw [State.CrawlerOk,hc] at hok
  obtain ⟨q,rfl,hown,⟨l,hl⟩,hj⟩ := hok
  obtain ⟨m,hm,hfresh,hR⟩ := h.reps.queuePut hl x
  have hs : s.push x (some q) =
      { s with mem := m, crawler := .idle, returned := s.returned++[x] } := by
    simp [State.push,hm,State.after]
  have hf : ∀ d q', s.own d = some q' → d ≠ x.domain →
      Function.update f q (some (l++[(s.mem.fresh,x)])) q' = f q' := fun d q' ho hd =>
    Function.update_of_ne (fun he => hd (h.own_inj d x.domain q (by rw [ho,he]) hown)) _ _
  rw [hs]
  refine ⟨_,lt,h.setMem (by simp [State.published,hc]) hR (by omega) ?_ (fun d q' ho => ?_)
    (fun d q' l' ho hl' => ?_) fun d => ?_⟩
  · rw [Function.update_of_ne (h.own_lt _ q hown).1.symm]
    exact h.total
  · rcases eq_or_ne d x.domain with rfl | hd
    · rw [hown] at ho
      cases ho
      exact .inr ⟨hj,l,_,hl,Function.update_self _ _ _⟩
    · exact .inl (hf d q' ho hd)
  · rcases eq_or_ne d x.domain with rfl | hd
    · rw [hown] at ho
      cases ho
      rw [Function.update_self] at hl'
      cases hl'
      intro y hy
      rcases List.mem_append.mp hy with hy | hy
      · exact h.domain _ q l hown hl y hy
      · rw [List.mem_singleton.mp hy]
    · exact h.domain d q' l' ho (by rw [← hf d q' ho hd,hl'])
  · rcases eq_or_ne d x.domain with rfl | hd
    · have hx : ofDomain x.domain [x] = [x] := ofDomain_self (by simp)
      simp [inQueue,hown,hl,hx]
    · have hx : ofDomain d [x] = [] := ofDomain_other (d := x.domain) (by simp) hd.symm
      rcases ho : s.own d with _ | q'
      · simp [inQueue,hx]
      · simp [inQueue,hf d q' ho hd,hx]

section New
variable {t : State D U} {x : Down D U} {q : ℕ} {f' : Queues D U} {i : ℕ}

/-- A queue no domain waited in is given to one domain. -/
theorem own_inj_new (hself : t.own x.domain = some q) (hown : ∀ d ≠ x.domain, t.own d = s.own d)
    (hnew : ∀ d, s.own d ≠ some q) {d d' : D} {q' : ℕ} (ho : t.own d = some q')
    (ho' : t.own d' = some q') : d = d' := by
  have hne : ∀ d ≠ x.domain, t.own d ≠ some q := fun d hd he =>
    hnew d ((hown d hd).symm.trans he)
  rcases eq_or_ne d x.domain with rfl | hd <;> rcases eq_or_ne d' x.domain with rfl | hd'
  · rfl
  · cases hself.symm.trans ho
    exact absurd ho' (hne d' hd')
  · cases hself.symm.trans ho'
    exact absurd ho (hne d hd)
  · exact h.own_inj d d' q' ((hown d hd).symm.trans ho) ((hown d' hd').symm.trans ho')

/-- The item published is the only one in it. -/
theorem account_new (hp : t.published = s.published++[x]) (hself : t.own x.domain = some q)
    (hown : ∀ d ≠ x.domain, t.own d = s.own d) (hnone : s.own x.domain = none)
    (hq : f' q = some [(i,x)]) (hf : ∀ d q', s.own d = some q' → f' q' = f q') (d : D) :
    (ofDomain d (lt.map Prod.snd)++inQueue f' (t.own d)).Perm (ofDomain d t.published) := by
  have hacc := h.account d
  rw [hp,ofDomain_append]
  rcases eq_or_ne d x.domain with rfl | hd
  · rw [hnone] at hacc
    simp only [inQueue,Option.elim_none,List.append_nil] at hacc
    rw [hself,ofDomain_self (l := [x]) (by simp)]
    simp only [inQueue,Option.elim_some,hq,Option.getD_some,List.map_cons,List.map_nil]
    exact hacc.append_right _
  · rw [ofDomain_other (d := x.domain) (l := [x]) (by simp) hd.symm,List.append_nil,hown d hd]
    rcases ho : s.own d with _ | q'
    · rwa [ho] at hacc
    · rw [ho] at hacc
      simpa only [inQueue,Option.elim_some,hf d q' ho] using hacc

end New

/-- A first URL: the domain gets a value with a queue of its own. -/
theorem create {x : Down D U} (hc : s.crawler = .missing x) :
    ∃ f' lt', Inv (s.create x) f' lt' := by
  have hnone : s.cache x.domain = none := by
    have hok := h.crawler
    rwa [State.CrawlerOk,hc] at hok
  obtain ⟨m,hm,hfresh,hR⟩ := h.reps.queueNew.queuePut (Function.update_self _ _ _) x
  rw [Function.update_idem,List.nil_append] at hR
  let q := s.mem.fresh
  let f' : Queues D U := Function.update f q (some [((queueNew s.mem).2.fresh,x)])
  let t : State D U := { s with
    mem := m, cache := Function.update s.cache x.domain (some ⟨0,some q⟩), crawler := .queueing x }
  have hs : s.create x = t := by
    change s.after (queuePut x (some s.mem.fresh) (queueNew s.mem).2) _ = t
    rw [hm]
    rfl
  have hq : (queueNew s.mem).2.fresh = q+1 := rfl
  have hfm : s.mem.fresh < m.fresh := by omega
  have hcache : ∀ d ≠ x.domain, t.cache d = s.cache d := fun d hd => Function.update_of_ne hd _ _
  have hown : ∀ d ≠ x.domain, t.own d = s.own d := fun d hd => by
    simp only [State.own,hcache d hd]
  have hself : t.own x.domain = some q := by simp [t,State.own]
  have hf : ∀ d q', s.own d = some q' → f' q' = f q' := fun d q' ho =>
    Function.update_of_ne (h.own_lt d q' ho).2.ne _ _
  have hx : ∀ d v, s.cache d = some v → d ≠ x.domain := by
    rintro _ v hv rfl
    rw [hnone] at hv
    cases hv
  have hxo : ∀ d q', s.own d = some q' → d ≠ x.domain := by
    rintro _ q' ho rfl
    rw [State.own,hnone] at ho
    cases ho
  rw [hs]
  refine ⟨f',lt,{
    fault := h.fault
    reps := hR
    total := ?_
    own_lt := fun d q' ho => ?_
    own_inj := fun d d' q' ho ho' => ?_
    domain := fun d q' l ho hl => ?_
    account := fun d => ?_
    waiting := fun d v hv hd => ?_
    flagged := fun d hd => ?_
    before := fun d hd => ?_
    joined := fun d hd => ?_
    freed := fun d hd => ?_
    crawler := trivial }⟩
  · rw [← h.total]
    exact Function.update_of_ne (h.reps.live _ _ h.total).1.ne _ _
  · rcases eq_or_ne d x.domain with rfl | hd
    · cases hself.symm.trans ho
      exact ⟨(h.reps.live _ _ h.total).1.ne',hfm⟩
    · have hlt := h.own_lt d q' ((hown d hd).symm.trans ho)
      exact ⟨hlt.1,hlt.2.trans hfm⟩
  · exact h.own_inj_new hself hown (fun d ho => (h.own_lt d q ho).2.false) ho ho'
  · rcases eq_or_ne d x.domain with rfl | hd
    · cases hself.symm.trans ho
      cases (Function.update_self q _ f).symm.trans hl
      simp
    · have ho' := (hown d hd).symm.trans ho
      exact h.domain d q' l ho' ((hf d q' ho').symm.trans hl)
  · have hp : t.published = s.published++[x] := by
      rw [show s.published = s.returned by simp [State.published,hc]]
      rfl
    have hown' : s.own x.domain = none := by rw [State.own,hnone]; rfl
    exact h.account_new hp hself hown hown' (Function.update_self _ _ _) hf d
  · rcases eq_or_ne d x.domain with rfl | hdx
    · cases (Function.update_self x.domain _ s.cache).symm.trans hv
      exact ⟨q,_,rfl,Function.update_self _ _ _⟩
    · exact h.waiting_mono ((hcache d hdx).symm.trans hv) hd fun q' l ho hl =>
        ⟨l,(hf d q' ho).trans hl⟩
  · obtain ⟨v,q',hv,hfl⟩ := h.flagged d hd
    exact ⟨v,q',(hcache d (hx d v hv)).trans hv,hfl⟩
  · obtain ⟨q',l,ho,hl⟩ := h.before d hd
    exact ⟨q',l,(hown d (hxo d q' ho)).trans ho,(hf d q' ho).trans hl⟩
  · obtain ⟨q',ho,hl⟩ := h.joined d hd
    exact ⟨q',(hown d (hxo d q' ho)).trans ho,(hf d q' ho).trans hl⟩
  · obtain ⟨q',ho,hl⟩ := h.freed d hd
    exact ⟨q',(hown d (hxo d q' ho)).trans ho,(hf d q' ho).trans hl⟩

/-- The flag of the looked up domain is set. -/
theorem check {host : D} {flags : ℕ} {v : CacheVal} (hr : s.resolver = .looked host flags)
    (hv : s.cache host = some v) : Inv (s.check host flags v) f lt := by
  unfold State.check
  split_ifs with hdone
  · exact h.setResolver _ (fun d => by rw [hr]; exact id) fun d => id
  have hflag : v.flags ≠ 1 := fun he => hdone (.inl he)
  have hns : ∀ d, ¬s.resolver.serving d := fun d => by rw [hr]; exact id
  have hw := h.waiting host v hv (hns host)
  rw [if_neg hflag] at hw
  obtain ⟨q,l,hq,hl⟩ := hw
  let t : State D U := { s with
    cache := Function.update s.cache host (some { v with flags := 1 }), resolver := .flagged host }
  have hcache : ∀ d ≠ host, t.cache d = s.cache d := fun d hd => Function.update_of_ne hd _ _
  have ho : ∀ d, t.own d = s.own d := fun d => by
    by_cases hd : d = host
    · simp [t,State.own,hd,hv]
    · simp only [State.own,hcache d hd]
  show Inv t f lt
  exact {
    fault := h.fault
    reps := h.reps
    total := h.total
    own_lt := fun d q hd => h.own_lt d q (ho d ▸ hd)
    own_inj := fun d d' q hd hd' => h.own_inj d d' q (ho d ▸ hd) (ho d' ▸ hd')
    domain := fun d q l hd => h.domain d q l (ho d ▸ hd)
    account := fun d => by
      rw [ho d]
      exact h.account d
    waiting := fun d v' hv' hd => by
      have hdh : d ≠ host := fun he => hd he.symm
      exact h.waiting d v' ((hcache d hdh).symm.trans hv') (hns d)
    flagged := fun d hd => by
      cases (show host = d from hd)
      exact ⟨_,q,Function.update_self _ _ _,rfl,hq⟩
    before := fun d hd => by
      rcases hd with hd | hd <;> cases hd
      exact ⟨q,l,by rw [ho,State.own,hv]; exact hq,hl⟩
    joined := fun d hd => by cases hd
    freed := fun d hd => by cases hd
    crawler := by
      refine h.crawler.mono rfl (fun d hd => ?_) fun d q hpush hopen => ?_
      · have hdh : d ≠ host := by
          rintro rfl
          rw [hv] at hd
          cases hd
        exact (hcache d hdh).trans hd
      · exact ⟨(ho d).trans hopen.1,hopen.2.1,fun hd => by cases hd⟩ }

/-- A step of the DNS thread on the queue of the domain that it serves: no other queue changes,
and what was in this one is in `total->down`. -/
theorem serve {m : Mem (Down D U)} {f' : Queues D U} {lt' : List (ℕ × Down D U)} {r : Resolver D}
    {host : D} {q : ℕ} (ho : s.own host = some q) (hserving : s.resolver.serving = (host = ·))
    (hr : r = .joined host ∧ f' q = some [] ∨ r = .freed host ∧ f' q = none) (hR : Reps m f')
    (hfresh : m.fresh = s.mem.fresh) (htotal : f' s.total = some lt')
    (hf : ∀ d q', s.own d = some q' → d ≠ host → f' q' = f q')
    (haccount : (ofDomain host (lt'.map Prod.snd)).Perm
      (ofDomain host (lt.map Prod.snd)++inQueue f (some q)))
    (hlt : ∀ d ≠ host, ofDomain d (lt'.map Prod.snd) = ofDomain d (lt.map Prod.snd))
    (hclear : ∀ d q', s.crawler.pushing d → s.Open f d q' → d ≠ host) :
    Inv { s with mem := m, resolver := r } f' lt' := by
  have hserv : r.serving = (host = ·) := by rcases hr with ⟨rfl,-⟩ | ⟨rfl,-⟩ <;> rfl
  have hempty : inQueue f' (some q) = [] := by
    rcases hr with ⟨-,hq⟩ | ⟨-,hq⟩ <;> simp [inQueue,hq]
  exact { h with
    reps := hR
    total := htotal
    own_lt := fun d q' ho' => ⟨(h.own_lt d q' ho').1,(h.own_lt d q' ho').2.trans_eq hfresh.symm⟩
    domain := fun d q' l' ho' hl' => by
      rcases eq_or_ne d host with rfl | hd
      · cases ho.symm.trans ho'
        rcases hr with ⟨-,hq⟩ | ⟨-,hq⟩ <;> cases hq.symm.trans hl'
        simp
      · exact h.domain d q' l' ho' ((hf d q' ho' hd).symm.trans hl')
    account := fun d => by
      refine List.Perm.trans ?_ (h.account d)
      rw [show State.own { s with mem := m, resolver := r } d = s.own d from rfl]
      rcases eq_or_ne d host with rfl | hd
      · rw [ho,hempty,List.append_nil]
        exact haccount
      · rw [hlt d hd,inQueue_congr fun q' ho' => hf d q' ho' hd]
    waiting := fun d v hv hn => by
      have hnot : ¬host = d := by rwa [hserv] at hn
      refine h.waiting_mono hv (by rwa [hserving]) fun q' l' ho' hl' => ?_
      exact ⟨l',(hf d q' ho' fun he => hnot he.symm).trans hl'⟩
    flagged := fun d hd => h.flagged d (by rw [hserving]; rwa [hserv] at hd)
    before := fun d hd => by rcases hr with ⟨rfl,-⟩ | ⟨rfl,-⟩ <;> rcases hd with hd | hd <;> cases hd
    joined := fun d hd => by
      rcases hr with ⟨rfl,hq⟩ | ⟨rfl,-⟩ <;> cases hd
      exact ⟨q,ho,hq⟩
    freed := fun d hd => by
      rcases hr with ⟨rfl,-⟩ | ⟨rfl,hq⟩ <;> cases hd
      exact ⟨q,ho,hq⟩
    crawler := by
      refine h.crawler.mono rfl (fun _ hd => hd) fun d q' hpush hopen => ?_
      have hd := hclear d q' hpush hopen
      obtain ⟨l',hl'⟩ := hopen.2.1
      refine ⟨hopen.1,⟨l',(hf d q' hopen.1 hd).trans hl'⟩,?_⟩
      rcases hr with ⟨rfl,-⟩ | ⟨rfl,-⟩ <;> rintro ⟨⟩
      exact hd rfl }

/-- The join moves the domain's items to `total->down`. -/
theorem join {host : D} {v : CacheVal} (hr : s.resolver = .locked host)
    (hv : s.cache host = some v) (hclear : JoinsClear s (s.join host v)) :
    ∃ f' lt', Inv (s.join host v) f' lt' := by
  obtain ⟨q,l,ho,hl⟩ := h.before host (.inr hr)
  have hdown : v.down = some q := by rwa [State.own,hv] at ho
  have hqt := (h.own_lt host q ho).1
  obtain ⟨m,hm,hfresh,hR⟩ := h.reps.queueJoinInit h.total hl hqt.symm
  let f' : Queues D U :=
    Function.update (Function.update f q (some [])) s.total (some (lt++l))
  have hs : s.join host v = { s with mem := m, resolver := .joined host } := by
    simp [State.join,hdown,hm,State.after]
  have hlh : ∀ x ∈ l.map Prod.snd, x.domain = host := by
    intro x hx
    obtain ⟨y,hy,rfl⟩ := List.mem_map.mp hx
    exact h.domain host q l ho hl y hy
  rw [hs]
  refine ⟨f',lt++l,h.serve ho (by rw [hr]; rfl) (.inl ⟨rfl,by simp [f',hqt]⟩) hR hfresh
    (Function.update_self _ _ _) (fun d q' ho' hd => ?_) ?_ (fun d hd => ?_)
    fun d q' hpush _ => ?_⟩
  · have hq' : q' ≠ q := by
      rintro rfl
      exact hd (h.own_inj d host q' ho' ho)
    simp [f',(h.own_lt d q' ho').1,hq']
  · simp [inQueue,hl,ofDomain_self hlh]
  · rw [List.map_append,ofDomain_append,ofDomain_other hlh hd.symm,List.append_nil]
  · rintro rfl
    exact hclear d hr (by rw [hs]) hpush

/-- The emptied queue is freed. -/
theorem free {host : D} {v : CacheVal} (hr : s.resolver = .joined host)
    (hv : s.cache host = some v) : ∃ f' lt', Inv (s.free host v) f' lt' := by
  obtain ⟨q,ho,hl⟩ := h.joined host hr
  have hdown : v.down = some q := by rwa [State.own,hv] at ho
  obtain ⟨m,hm,hfresh,hR⟩ := h.reps.queueFree hl
  have hs : s.free host v = { s with mem := m, resolver := .freed host } := by
    simp [State.free,hdown,hm,State.after]
  rw [hs]
  refine ⟨Function.update f q none,lt,h.serve ho (by rw [hr]; rfl)
    (.inr ⟨rfl,Function.update_self _ _ _⟩) hR hfresh ?_ (fun d q' ho' hd => ?_) ?_
    (fun d _ => rfl) fun d q' _ hopen => ?_⟩
  · exact (Function.update_of_ne (h.own_lt host q ho).1.symm _ _).trans h.total
  · refine Function.update_of_ne ?_ _ _
    rintro rfl
    exact hd (h.own_inj d host q' ho' ho)
  · simp [inQueue,hl]
  · rintro rfl
    exact hopen.2.2 hr

/-- The dangling pointer is cleared. -/
theorem null {host : D} {v : CacheVal} (hr : s.resolver = .freed host)
    (hv : s.cache host = some v) : Inv (s.null host v) f lt := by
  obtain ⟨q,ho,hl⟩ := h.freed host hr
  obtain ⟨v',q',hv',hflag,-⟩ := h.flagged host (by rw [hr]; rfl)
  cases hv.symm.trans hv'
  let t : State D U := { s with
    cache := Function.update s.cache host (some { v with down := none }), resolver := .nulled host }
  have hcache : ∀ d ≠ host, t.cache d = s.cache d := fun d hd => Function.update_of_ne hd _ _
  have hown : ∀ d ≠ host, t.own d = s.own d := fun d hd => by simp only [State.own,hcache d hd]
  have hself : t.own host = none := by simp [t,State.own]
  have hne : ∀ d q', t.own d = some q' → d ≠ host := by
    rintro _ q' ho' rfl
    cases hself.symm.trans ho'
  have hof : ∀ d q', t.own d = some q' → s.own d = some q' := fun d q' ho' =>
    (hown d (hne d q' ho')).symm.trans ho'
  show Inv t f lt
  exact {
    fault := h.fault
    reps := h.reps
    total := h.total
    own_lt := fun d q' ho' => h.own_lt d q' (hof d q' ho')
    own_inj := fun d d' q' ho' ho'' => h.own_inj d d' q' (hof d q' ho') (hof d' q' ho'')
    domain := fun d q' l' ho' => h.domain d q' l' (hof d q' ho')
    account := fun d => by
      refine List.Perm.trans ?_ (h.account d)
      rcases eq_or_ne d host with rfl | hd
      · simp [inQueue,hself,ho,hl]
      · rw [hown d hd]
    waiting := fun d v' hv' _ => by
      rcases eq_or_ne d host with rfl | hd
      · cases (Function.update_self d _ s.cache).symm.trans hv'
        rw [if_pos hflag]
      · refine h.waiting d v' ((hcache d hd).symm.trans hv') ?_
        rw [hr]
        exact hd.symm
    flagged := fun d hd => hd.elim
    before := fun d hd => by rcases hd with hd | hd <;> cases hd
    joined := fun d hd => by cases hd
    freed := fun d hd => by cases hd
    crawler := by
      refine h.crawler.mono rfl (fun d hd => ?_) fun d q' hpush hopen => ?_
      · have hdh : d ≠ host := by
          rintro rfl
          cases hv.symm.trans hd
        exact (hcache d hdh).trans hd
      · have hdh : d ≠ host := by
          rintro rfl
          cases ho.symm.trans hopen.1
          obtain ⟨l',hl'⟩ := hopen.2.1
          cases hl.symm.trans hl'
        exact ⟨(hown d hdh).trans hopen.1,hopen.2.1,fun he => by cases he⟩ }

/-- Every step of either thread keeps the invariant, a join if it is clear. -/
theorem step {P : Urls D U} {t : State D U} (hst : Step P s t) (hclear : JoinsClear s t) :
    ∃ f' lt', Inv t f' lt' := by
  cases hst with
  | call url2 _ hc => exact ⟨f,lt,h.lookup hc⟩
  | create x _ hc _ => exact h.create hc
  | enqueue x _ hc => exact ⟨f,lt,h.enqueue hc⟩
  | test x v _ hc hv => exact ⟨f,lt,h.test hc hv⟩
  | pushTotal x _ hc _ => exact h.pushTotal hc
  | read x v _ hc hv => exact ⟨f,lt,h.read hc hv⟩
  | push x down _ hc => exact h.push hc
  | receive host flags _ hr => exact ⟨f,lt,h.receive hr⟩
  | check host flags v _ hr hv => exact ⟨f,lt,h.check hr hv⟩
  | lock host _ hr => exact ⟨f,lt,h.lock hr⟩
  | join host v _ hr hv => exact h.join hr hv hclear
  | free host v _ hr hv => exact h.free hr hv
  | null host v _ hr hv => exact ⟨f,lt,h.null hr hv⟩
  | unlockDown host _ hr =>
    exact ⟨f,lt,h.setResolver _ (fun d => by rw [hr]; exact id) fun d => id⟩
  | unlockCache host _ hr =>
    exact ⟨f,lt,h.setResolver _ (fun d => by rw [hr]; exact id) fun d => id⟩

/-- Past a join that is not clear some run uses the freed queue. -/
theorem fault_of_join {P : Urls D U} {host : D} (hr : s.resolver = .locked host)
    (hpush : s.crawler.pushing host) : ∃ t, Reach s (Step P) t ∧ t.fault = some .undefined := by
  obtain ⟨v,q,hv,-,hq⟩ := h.flagged host (by rw [hr]; rfl)
  have ho : s.own host = some q := by rw [State.own,hv]; exact hq
  obtain ⟨q',l,ho',hl⟩ := h.before host (.inr hr)
  cases ho.symm.trans ho'
  have hqt := (h.own_lt host q ho).1
  obtain ⟨m₁,hm₁,-,R₁⟩ := h.reps.queueJoinInit h.total hl hqt.symm
  obtain ⟨m₂,hm₂,-,R₂⟩ := R₁.queueFree (a := q) (l := []) (by simp [hqt])
  have hdead : ∀ x, queuePut x (some q) m₂ = .error .undefined := R₂.queuePut_dead (by simp)
  have hj : s.join host v = { s with mem := m₁, resolver := .joined host } := by
    simp [State.join,hq,hm₁,State.after]
  have hf : (s.join host v).free host v = { s with mem := m₂, resolver := .freed host } := by
    rw [hj]
    simp [State.free,hq,hm₂,State.after]
  have h₁ : Reach s (Step P) (s.join host v) := .next .start (.join s host v h.fault hr hv)
  have h₂ : Reach s (Step P) { s with mem := m₂, resolver := .freed host } := by
    rw [← hf]
    exact h₁.next (.free _ host v (by rw [hj]; exact h.fault) (by rw [hj]) (by rw [hj]; exact hv))
  have hok := h.crawler
  unfold State.CrawlerOk at hok
  rcases hc : s.crawler with _ | x | x | x | x | x | ⟨x,down⟩ <;>
    simp only [hc,Crawler.pushing] at hpush hok
  · -- the pointer is read after the queue was freed
    have h₃ := h₂.next (.read _ x v h.fault hc (hpush ▸ hv))
    refine ⟨_,h₃.next (.push _ x v.down h.fault rfl),?_⟩
    simp [State.push,State.read,State.after,hq,hdead x]
  · -- the pointer was read before the join
    obtain ⟨q',rfl,hown,-,-⟩ := hok
    rw [hpush] at hown
    cases ho.symm.trans hown
    refine ⟨_,h₂.next (.push _ x (some q) h.fault hc),?_⟩
    simp [State.push,State.after,hdead x]

end Inv

/-- In every interleaving whose joins are clear, no step uses a freed or NULL queue and
every URL of a resolved domain is in `total->down` exactly once. -/
theorem sound_of_joinsClear (P : Urls D U) {s : State D U}
    (h : Reach State.init (Guarded JoinsClear (Step P)) s) : s.Sound := by
  have hinv : ∃ f lt, Inv s f lt :=
    h.invariant (I := fun s => ∃ f lt, Inv s f lt) ⟨_,_,Inv.init⟩
      fun s t ⟨f,lt,hi⟩ hst => hi.step hst.1 hst.2
  obtain ⟨f,lt,hi⟩ := hinv
  exact hi.sound

/-- URLs that are their own domain. -/
def plain : Urls ℕ ℕ := ⟨id,some⟩

/-- The URL 7 is added, its domain is resolved, and 7 is added again. -/
theorem sound_resolved : ∃ s : State ℕ ℕ,
    Reach State.init (Guarded JoinsClear (Step plain)) s ∧ s.Resolved 7 ∧ s.Sound := by
  let x : Down ℕ ℕ := ⟨7,7⟩
  have h₁ : Reach (State.init : State ℕ ℕ) (Guarded JoinsClear (Step plain))
      (State.init.lookup x) := .next .start ⟨.call _ 7 rfl rfl,fun d hd => by cases hd⟩
  have h₂ := h₁.next ⟨.create _ x rfl rfl rfl,fun d hd => by cases hd⟩
  have h₃ := h₂.next ⟨.enqueue _ x rfl rfl,fun d hd => by cases hd⟩
  have h₄ := h₃.next ⟨.receive _ 7 0x8180 rfl rfl,fun d hd => by cases hd⟩
  have h₅ := h₄.next ⟨.check _ 7 0x8180 ⟨0,some 1⟩ rfl rfl rfl,fun d hd => by cases hd⟩
  have h₆ := h₅.next ⟨.lock _ 7 rfl rfl,fun d hd => by cases hd⟩
  have h₇ := h₆.next ⟨.join _ 7 ⟨1,some 1⟩ rfl rfl rfl,fun d _ _ hp => hp⟩
  have h₈ := h₇.next ⟨.free _ 7 ⟨1,some 1⟩ rfl rfl rfl,fun d hd => by cases hd⟩
  have h₉ := h₈.next ⟨.null _ 7 ⟨1,some 1⟩ rfl rfl rfl,fun d hd => by cases hd⟩
  have h₁₀ := h₉.next ⟨.unlockDown _ 7 rfl rfl,fun d hd => by cases hd⟩
  have h₁₁ := h₁₀.next ⟨.call _ 7 rfl rfl,fun d hd => by cases hd⟩
  have h₁₂ := h₁₁.next ⟨.test _ x ⟨1,none⟩ rfl rfl rfl,fun d hd => by cases hd⟩
  have h₁₃ := h₁₂.next ⟨.pushTotal _ x rfl rfl rfl,fun d hd => by cases hd⟩
  exact ⟨_,h₁₃,⟨⟨⟨1,none⟩,rfl,rfl⟩,fun hr => (by cases hr),fun hr => (by cases hr)⟩,
    sound_of_joinsClear plain h₁₃⟩

/-- The second URL of a domain is tested before the flag is set and pushed after the
queue is freed. -/
theorem not_sound_pushed_late :
    ¬∀ s : State ℕ ℕ, Reach State.init (Step plain) s → s.Sound := by
  intro hall
  let x : Down ℕ ℕ := ⟨7,7⟩
  have h₁ : Reach (State.init : State ℕ ℕ) (Step plain) (State.init.lookup x) :=
    .next .start (.call _ 7 rfl rfl)
  have h₂ := h₁.next (.create _ x rfl rfl rfl)
  have h₃ := h₂.next (.enqueue _ x rfl rfl)
  have h₄ := h₃.next (.call _ 7 rfl rfl)
  have h₅ := h₄.next (.test _ x ⟨0,some 1⟩ rfl rfl rfl)
  have h₆ := h₅.next (.receive _ 7 0x8180 rfl rfl)
  have h₇ := h₆.next (.check _ 7 0x8180 ⟨0,some 1⟩ rfl rfl rfl)
  have h₈ := h₇.next (.lock _ 7 rfl rfl)
  have h₉ := h₈.next (.join _ 7 ⟨1,some 1⟩ rfl rfl rfl)
  have h₁₀ := h₉.next (.free _ 7 ⟨1,some 1⟩ rfl rfl rfl)
  have h₁₁ := h₁₀.next (.null _ 7 ⟨1,some 1⟩ rfl rfl rfl)
  have h₁₂ := h₁₁.next (.read _ x ⟨1,none⟩ rfl rfl rfl)
  have h₁₃ := h₁₂.next (.push _ x none rfl rfl)
  cases (hall _ h₁₃).1


end UrlHandoff
end RecycleBin
