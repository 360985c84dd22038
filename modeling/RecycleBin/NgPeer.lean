import RecycleBin.Refinement

/-! The round-robin balancer of the stream module. The peers of an upstream are shared
by the sessions, each session keeps its own bitmap of the peers it has tried. Pointers
to peers and to groups of peers are positions, integers are unbounded. -/
namespace RecycleBin.NgPeer

def OK : ℤ := 0
def ERROR : ℤ := -1
def BUSY : ℤ := -3
def PEER_FAILED : ℕ := 4

structure UpstreamRRPeer where
  name : String := ""
  currentWeight : ℤ := 0
  effectiveWeight : ℤ := 0
  weight : ℤ := 0
  conns : ℤ := 0
  maxConns : ℤ := 0
  fails : ℤ := 0
  accessed : ℤ := 0
  checked : ℤ := 0
  maxFails : ℤ := 0
  failTimeout : ℤ := 0
  down : Bool := false
  deriving DecidableEq,Repr

/-- A group of peers. Of the groups in `next` only the first is ever used, so a group
and its backups are a list of groups. -/
structure UpstreamRRPeers where
  number : ℕ
  single : Bool
  name : String := ""
  peer : List UpstreamRRPeer
  deriving DecidableEq,Repr

abbrev Word := BitVec 64

/-- What a session knows: the group it chooses from as a depth in the list of groups, the
peer it has got as a group and a position in it, and the peers it has tried. -/
structure UpstreamRRPeerData where
  peers : ℕ := 0
  current : Option (ℕ × ℕ) := none
  tried : List Word := []
  data : Word := 0
  deriving DecidableEq,Repr

structure PeerConnection where
  name : String := ""
  tries : ℕ := 0
  deriving DecidableEq,Repr

/-- Element `i` of a slice. -/
def index {α : Type} (xs : List α) (i : ℕ) : Except Fault α :=
  match xs[i]? with
  | some x => .ok x
  | none => .error .panic

/-- An integer quotient, rounded towards zero. -/
def div (a b : ℤ) : Except Fault ℤ := if b = 0 then .error .panic else .ok (a.tdiv b)

/-- The clock is never read. -/
def now : ℤ := 0

/-- The bit of a peer in its word of the bitmap: the shift and the remainder have the same
precedence, so the remainder is taken last. -/
def mask (i : ℕ) : Word := (1#64 <<< i) % 64#64

/-- What the loop of `upstreamGetPeer` carries along: the total of the effective weights, and
position and current weight of the best peer so far. -/
structure Pick where
  total : ℤ := 0
  best : Option (ℕ × ℤ) := none
  deriving DecidableEq,Repr

/-- The tests that let peer `i` be chosen. -/
def passes (tried : List Word) (i : ℕ) (peer : UpstreamRRPeer) : Except Fault Bool := do
  let word ← index tried (i/(8*8))
  let m := mask i
  if word &&& m = m then .ok false
  else if peer.down then .ok false
  else if peer.maxFails > 0 ∧ peer.fails ≥ peer.maxFails ∧ now-peer.checked ≤ peer.failTimeout then
    .ok false
  else if peer.maxConns > 0 ∧ peer.conns ≥ peer.maxConns then .ok false
  else .ok true

/-- The weights of a peer that takes part in this choice. -/
def UpstreamRRPeer.raise (peer : UpstreamRRPeer) : UpstreamRRPeer :=
  { peer with
    currentWeight := peer.currentWeight+peer.effectiveWeight
    effectiveWeight :=
      if peer.effectiveWeight < peer.weight then peer.effectiveWeight+1 else peer.effectiveWeight }

/-- Peer `i` becomes the best if there is none or if its current weight, now raised, is larger. -/
def Pick.visit (s : Pick) (i : ℕ) (peer : UpstreamRRPeer) : Pick where
  total := s.total+peer.effectiveWeight
  best :=
    match s.best with
    | none => some (i,peer.raise.currentWeight)
    | some (p,w) =>
      if peer.raise.currentWeight > w then some (i,peer.raise.currentWeight) else some (p,w)

/-- The loop over the peers from number `i` on. -/
def scan (tried : List Word) : ℕ → List UpstreamRRPeer → Pick →
    Except Fault (List UpstreamRRPeer × Pick)
  | _, [], s => .ok ([],s)
  | i, peer::rest, s => do
    let b ← passes tried i peer
    let r ← scan tried (i+1) rest (if b then s.visit i peer else s)
    .ok ((if b then peer.raise else peer)::r.1,r.2)

/-- The weight the chosen peer gives back. -/
def UpstreamRRPeer.settle (total : ℤ) (best : UpstreamRRPeer) : UpstreamRRPeer :=
  { best with
    currentWeight := best.currentWeight-total
    checked := if now-best.checked > best.failTimeout then now else best.checked }

def upstreamGetPeer (rrp : UpstreamRRPeerData) (peers : List UpstreamRRPeer) :
    Except Fault (Option ℕ × UpstreamRRPeerData × List UpstreamRRPeer) := do
  let r ← scan rrp.tried 0 peers { }
  match r.2.best with
  | none => .ok (none,rrp,r.1)
  | some (p,_) =>
    let n := p/(8*8)
    let word ← index rrp.tried n
    .ok (some p,{ rrp with current := some (rrp.peers,p), tried := rrp.tried.set n (word ||| mask p) },
      r.1.modify p (.settle r.2.total))

/-- `for i = 0; i < n; i++ { rrp.tried[i] = 0 }` -/
def clearTried (n : ℕ) (tried : List Word) : Except Fault (List Word) :=
  if n ≤ tried.length then .ok (List.replicate n 0++tried.drop n) else .error .panic

/-- The choice in one group: the peer of a single group is taken unless it is down or full. -/
def choose (rrp : UpstreamRRPeerData) (peers : UpstreamRRPeers) :
    Except Fault (Option ℕ × UpstreamRRPeerData × List UpstreamRRPeer) := do
  if peers.single then
    let peer ← index peers.peer 0
    if peer.down then .ok (none,rrp,peers.peer)
    else if peer.maxConns > 0 ∧ peer.conns ≥ peer.maxConns then .ok (none,rrp,peers.peer)
    else .ok (some 0,{ rrp with current := some (rrp.peers,0) },peers.peer)
  else upstreamGetPeer rrp peers.peer

def UpstreamRRPeer.connect (peer : UpstreamRRPeer) : UpstreamRRPeer :=
  { peer with conns := peer.conns+1 }

/-- `upstreamGetRoundRobinPeer` on a session that stands at the first of these groups. -/
def getFrom (pc : PeerConnection) (rrp : UpstreamRRPeerData) : List UpstreamRRPeers →
    Except Fault (ℤ × PeerConnection × UpstreamRRPeerData × List UpstreamRRPeers)
  | [] => .error .panic
  | peers::next => do
    let (peer,rrp,ps) ← choose rrp peers
    match peer with
    | some p =>
      let best ← index ps p
      .ok (OK,{ pc with name := best.name },rrp,{ peers with peer := ps.modify p .connect }::next)
    | none =>
      match next with
      | [] => .ok (BUSY,{ pc with name := peers.name },rrp,[{ peers with peer := ps }])
      | backup::_ =>
        let tried ← clearTried (backup.number+(8*8-1)/(8*8)) rrp.tried
        let (rc,pc,rrp,next) ← getFrom pc { rrp with peers := rrp.peers+1, tried := tried } next
        if rc ≠ BUSY then .ok (rc,pc,rrp,{ peers with peer := ps }::next)
        else .ok (BUSY,{ pc with name := peers.name },rrp,{ peers with peer := ps }::next)

/-- What `interface{}` holds: nothing, a pointer to the data of a session (`none` is the nil
pointer), or a copy of it. -/
inductive Data
  | nil
  | pointer (rrp : Option UpstreamRRPeerData)
  | value (rrp : UpstreamRRPeerData)
  deriving DecidableEq,Repr

/-- The function asserts a pointer and leaves its changes in what it points to. -/
def upstreamGetRoundRobinPeer (pc : PeerConnection) (data : Data) (us : List UpstreamRRPeers) :
    Except Fault (ℤ × PeerConnection × Data × List UpstreamRRPeers) := do
  match data with
  | .pointer (some rrp) =>
    let depth := rrp.peers
    let (rc,pc,rrp,groups) ← getFrom pc rrp (us.drop depth)
    .ok (rc,pc,.pointer (some rrp),us.take depth++groups)
  | _ => .error .panic

/-- The share of the weight that one failure costs. -/
def UpstreamRRPeer.share (peer : UpstreamRRPeer) : Except Fault ℤ :=
  if peer.maxFails > 0 then div peer.weight peer.maxFails else .ok 0

/-- The effective weight is not lowered below zero. -/
def UpstreamRRPeer.lower (peer : UpstreamRRPeer) (share : ℤ) : UpstreamRRPeer :=
  { peer with
    fails := peer.fails+1
    accessed := now
    checked := now
    effectiveWeight := if peer.effectiveWeight-share < 0 then 0 else peer.effectiveWeight-share }

def UpstreamRRPeer.fail (peer : UpstreamRRPeer) : Except Fault UpstreamRRPeer := do
  let share ← peer.share
  .ok (peer.lower share)

/-- A check that was passed makes the peer live again. -/
def UpstreamRRPeer.pass (peer : UpstreamRRPeer) : UpstreamRRPeer :=
  if peer.accessed < peer.checked then { peer with fails := 0 } else peer

def UpstreamRRPeer.disconnect (peer : UpstreamRRPeer) : UpstreamRRPeer :=
  { peer with conns := peer.conns-1 }

/-- What the end of a session does to its peer. -/
def UpstreamRRPeer.free (peer : UpstreamRRPeer) (single : Bool) (state : ℕ) :
    Except Fault UpstreamRRPeer := do
  if single then .ok peer.disconnect
  else
    let peer ← if state &&& PEER_FAILED = PEER_FAILED then peer.fail else .ok peer.pass
    .ok peer.disconnect

/-- Replace element `i` of a slice. -/
def update {α : Type} (xs : List α) (i : ℕ) (f : α → Except Fault α) : Except Fault (List α) := do
  let x ← index xs i
  let y ← f x
  .ok (xs.set i y)

/-- The function asserts the data itself, not a pointer to it. -/
def upstreamFreeRoundRobinPeer (pc : PeerConnection) (data : Data) (state : ℕ)
    (us : List UpstreamRRPeers) : Except Fault (PeerConnection × List UpstreamRRPeers) := do
  match data with
  | .value rrp =>
    let peers ← index us rrp.peers
    match rrp.current with
    | none => .error .panic
    | some (g,p) =>
      let us ← update us g fun group => do
        let ps ← update group.peer p (·.free peers.single state)
        .ok { group with peer := ps }
      .ok ({ pc with tries := if peers.single then 0 else pc.tries-1 },us)
  | _ => .error .panic

/-- The data of the session is set up for the groups of the upstream. It stays a pointer. -/
def upstreamInitRoundRobinPeer (data : Data) (us : List UpstreamRRPeers) :
    Except Fault (ℤ × Data) := do
  match data with
  | .pointer none => .ok (ERROR,data)
  | .pointer (some rrp) =>
    let peers ← index us 0
    let n := match us[1]? with
      | some backup => if backup.number > peers.number then backup.number else peers.number
      | none => peers.number
    if n ≤ 8*8 then
      let tried ← update rrp.tried 0 fun _ => .ok rrp.data
      .ok (OK,.pointer (some { peers := 0, current := none, tried := tried, data := 0 }))
    else
      let tried := List.replicate ((n+(8*8-1))/(8*8)) 0
      .ok (OK,.pointer (some { rrp with peers := 0, current := none, tried := tried }))
  | _ => .error .panic

/-! The loop, with the tests of every peer known. -/

/-- Peer `i` passes the tests iff `f i`. -/
def Filtered (tried : List Word) (peers : List UpstreamRRPeer) (f : ℕ → Bool) : Prop :=
  ∀ i peer, peers[i]? = some peer → passes tried i peer = .ok (f i)

/-- The peers that pass are raised. -/
def raised (f : ℕ → Bool) (i : ℕ) (peers : List UpstreamRRPeer) : List UpstreamRRPeer :=
  peers.mapIdx fun j peer => if f (i+j) then peer.raise else peer

def Pick.among (f : ℕ → Bool) : ℕ → List UpstreamRRPeer → Pick → Pick
  | _, [], s => s
  | i, peer::rest, s => among f (i+1) rest (if f i then s.visit i peer else s)

@[simp] theorem index_eq_ok {α : Type} {xs : List α} {i : ℕ} {x : α} :
    index xs i = .ok x ↔ xs[i]? = some x := by
  cases h : xs[i]? <;> simp [index,h]

theorem scan_eq {tried : List Word} {f : ℕ → Bool} {peers : List UpstreamRRPeer} {i : ℕ}
    (h : ∀ j peer, peers[j]? = some peer → passes tried (i+j) peer = .ok (f (i+j))) (s : Pick) :
    scan tried i peers s = .ok (raised f i peers,Pick.among f i peers s) := by
  induction peers generalizing i s with
  | nil => rfl
  | cons peer rest ih =>
    have h0 : passes tried i peer = .ok (f i) := h 0 peer rfl
    have ht := ih (i := i+1) (by
      intro j q hj
      have := h (j+1) q (by simpa using hj)
      rwa [show i+(j+1) = i+1+j by omega] at this) (if f i then s.visit i peer else s)
    simp only [scan,h0,ok_bind,ht,Pick.among]
    simp [raised,List.mapIdx_cons,Nat.add_assoc,Nat.add_comm 1]

/-- The current and the effective weight of peer `i`. -/
def current (peers : List UpstreamRRPeer) (i : ℕ) : ℤ := (peers[i]?.map (·.currentWeight)).getD 0
def effective (peers : List UpstreamRRPeer) (i : ℕ) : ℤ :=
  (peers[i]?.map (·.effectiveWeight)).getD 0

/-- What the loop has found when it has seen these peers. -/
structure Pick.Finds (f : ℕ → Bool) (peers : List UpstreamRRPeer) (s : Pick) : Prop where
  total : s.total = ∑ i ∈ Finset.range peers.length, if f i then effective peers i else 0
  none : s.best = none → ∀ i < peers.length, f i = false
  some : ∀ p w, s.best = some (p,w) → p < peers.length ∧ f p = true ∧
    w = current peers p+effective peers p ∧
    ∀ i < peers.length, f i = true → current peers i+effective peers i ≤ w

theorem Pick.among_append (f : ℕ → Bool) (i : ℕ) (ps qs : List UpstreamRRPeer) (s : Pick) :
    Pick.among f i (ps++qs) s = Pick.among f (i+ps.length) qs (Pick.among f i ps s) := by
  induction ps generalizing i s with
  | nil => rfl
  | cons p ps ih => simp [Pick.among,ih,Nat.add_assoc,Nat.add_comm 1]

theorem current_append {ps : List UpstreamRRPeer} {i : ℕ} (h : i < ps.length)
    (qs : List UpstreamRRPeer) : current (ps++qs) i = current ps i := by
  simp [current,List.getElem?_append_left h]

theorem effective_append {ps : List UpstreamRRPeer} {i : ℕ} (h : i < ps.length)
    (qs : List UpstreamRRPeer) : effective (ps++qs) i = effective ps i := by
  simp [effective,List.getElem?_append_left h]

theorem Pick.Finds.sum_append {f : ℕ → Bool} {ps : List UpstreamRRPeer} {s : Pick}
    (h : s.Finds f ps) (p : UpstreamRRPeer) :
    ∑ i ∈ Finset.range ps.length, (if f i then effective (ps++[p]) i else 0) = s.total := by
  rw [h.total]
  apply Finset.sum_congr rfl
  intro i hi
  rw [effective_append (Finset.mem_range.mp hi)]

theorem weights_append {ps : List UpstreamRRPeer} {i : ℕ} (h : i < ps.length)
    (qs : List UpstreamRRPeer) : current (ps++qs) i+effective (ps++qs) i =
      current ps i+effective ps i := by
  rw [current_append h,effective_append h]

/-- A peer that fails the tests is passed over. -/
theorem Pick.Finds.skip {f : ℕ → Bool} {ps : List UpstreamRRPeer} {s : Pick} (h : s.Finds f ps)
    (hf : f ps.length = false) (p : UpstreamRRPeer) : s.Finds f (ps++[p]) where
  total := by simp [Finset.sum_range_succ,h.sum_append p,hf]
  none := by
    intro hn i hi
    simp only [List.length_append,List.length_singleton] at hi
    by_cases he : i = ps.length
    · exact he ▸ hf
    · exact h.none hn i (by omega)
  some := by
    intro q w hq
    have ⟨h1,h2,h3,h4⟩ := h.some q w hq
    refine ⟨by simp; omega,h2,by rw [weights_append h1,h3],?_⟩
    intro i hi hfi
    simp only [List.length_append,List.length_singleton] at hi
    have hne : i ≠ ps.length := by
      intro he
      simp [he,hf] at hfi
    rw [weights_append (by omega)]
    exact h4 i (by omega) hfi

/-- A peer that passes the tests becomes the best if nothing so far is as good. -/
theorem Pick.Finds.visit {f : ℕ → Bool} {ps : List UpstreamRRPeer} {s : Pick} (h : s.Finds f ps)
    (hf : f ps.length = true) (p : UpstreamRRPeer) :
    (s.visit ps.length p).Finds f (ps++[p]) := by
  have hp : current (ps++[p]) ps.length+effective (ps++[p]) ps.length =
      p.raise.currentWeight := by
    simp [current,effective,UpstreamRRPeer.raise]
  have hlen : (ps++[p]).length = ps.length+1 := by simp
  have htotal : (s.visit ps.length p).total =
      ∑ i ∈ Finset.range (ps++[p]).length, if f i then effective (ps++[p]) i else 0 := by
    rw [hlen,Finset.sum_range_succ,h.sum_append p]
    simp [hf,Pick.visit,effective]
  -- the new peer is the best of all
  have hnew : (∀ i < ps.length, f i = true →
      current ps i+effective ps i ≤ p.raise.currentWeight) →
      ∀ i < (ps++[p]).length, f i = true →
        current (ps++[p]) i+effective (ps++[p]) i ≤ p.raise.currentWeight := by
    intro hle i hi hfi
    by_cases he : i = ps.length
    · rw [he,hp]
    · have hi' : i < ps.length := by omega
      rw [weights_append hi']
      exact hle i hi' hfi
  cases hb : s.best with
  | none =>
    refine ⟨htotal,by simp [Pick.visit,hb],?_⟩
    intro q w hq
    simp only [Pick.visit,hb,Option.some.injEq,Prod.mk.injEq] at hq
    rw [← hq.1,← hq.2]
    refine ⟨by simp,hf,hp.symm,hnew ?_⟩
    intro i hi hfi
    have := h.none hb i hi
    simp [hfi] at this
  | some b =>
    obtain ⟨q,w⟩ := b
    have ⟨h1,h2,h3,h4⟩ := h.some q w hb
    by_cases hgt : p.raise.currentWeight > w
    · refine ⟨htotal,by simp [Pick.visit,hb,hgt],?_⟩
      intro q' w' hq
      simp only [Pick.visit,hb,hgt,if_true,Option.some.injEq,Prod.mk.injEq] at hq
      rw [← hq.1,← hq.2]
      refine ⟨by simp,hf,hp.symm,hnew ?_⟩
      intro i hi hfi
      exact (h4 i hi hfi).trans hgt.le
    · refine ⟨htotal,by simp [Pick.visit,hb,hgt],?_⟩
      intro q' w' hq
      simp only [Pick.visit,hb,hgt,if_false,Option.some.injEq,Prod.mk.injEq] at hq
      rw [← hq.1,← hq.2]
      refine ⟨by omega,h2,by rw [weights_append h1,h3],?_⟩
      intro i hi hfi
      by_cases he : i = ps.length
      · rw [he,hp]
        exact not_lt.mp hgt
      · have hi' : i < ps.length := by omega
        rw [weights_append hi']
        exact h4 i hi' hfi

/-- The loop finds the best of the peers that pass. -/
theorem Pick.finds (f : ℕ → Bool) (peers : List UpstreamRRPeer) :
    (Pick.among f 0 peers { }).Finds f peers := by
  induction peers using List.reverseRecOn with
  | nil => exact ⟨rfl,by simp,by simp [Pick.among]⟩
  | append_singleton ps p ih =>
    cases hf : f ps.length with
    | false =>
      have h := ih.skip hf p
      simpa [Pick.among_append,Pick.among,hf] using h
    | true =>
      have h := ih.visit hf p
      simpa [Pick.among_append,Pick.among,hf] using h

/-- Tests that all return are those of some `f`. -/
theorem filtered_of_ok {tried : List Word} {peers : List UpstreamRRPeer}
    (h : ∀ i peer, peers[i]? = some peer → ∃ b, passes tried i peer = .ok b) :
    ∃ f, Filtered tried peers f := by
  refine ⟨fun i => peers[i]?.elim false fun peer => (passes tried i peer).toOption.getD false,?_⟩
  intro i peer hi
  have ⟨b,hb⟩ := h i peer hi
  simp only [hi,Option.elim_some,hb]
  rfl

/-- Peer `p` passes the tests and none that passes has a larger current weight. -/
structure Chosen (f : ℕ → Bool) (peers : List UpstreamRRPeer) (p : ℕ) : Prop where
  lt : p < peers.length
  pass : f p = true
  best : ∀ i < peers.length, f i = true →
    current peers i+effective peers i ≤ current peers p+effective peers p

/-- The effective weights of the peers that pass. -/
def total (f : ℕ → Bool) (peers : List UpstreamRRPeer) : ℤ :=
  ∑ i ∈ Finset.range peers.length, if f i then effective peers i else 0

/-- The peers after a call that chooses `p`. -/
def advance (f : ℕ → Bool) (peers : List UpstreamRRPeer) (p : ℕ) : List UpstreamRRPeer :=
  (raised f 0 peers).modify p (.settle (total f peers))

@[simp] theorem raised_length (f : ℕ → Bool) (i : ℕ) (peers : List UpstreamRRPeer) :
    (raised f i peers).length = peers.length := by
  simp [raised]

@[simp] theorem advance_length (f : ℕ → Bool) (peers : List UpstreamRRPeer) (p : ℕ) :
    (advance f peers p).length = peers.length := by
  simp [advance]

theorem getElem?_advance (f : ℕ → Bool) (peers : List UpstreamRRPeer) (p i : ℕ) :
    (advance f peers p)[i]? = peers[i]?.map fun peer =>
      if p = i then .settle (total f peers) (if f i then peer.raise else peer)
      else if f i then peer.raise else peer := by
  rw [advance,List.getElem?_modify]
  cases h : peers[i]? with
  | none => simp [raised,h]
  | some peer => by_cases hp : p = i <;> simp [raised,h,hp]

theorem word_of_filtered {tried : List Word} {peers : List UpstreamRRPeer} {f : ℕ → Bool}
    (h : Filtered tried peers f) {i : ℕ} (hi : i < peers.length) :
    ∃ word, tried[i/(8*8)]? = some word := by
  have hp := h i peers[i] (by simp [hi])
  rw [passes,bind_eq_ok] at hp
  have ⟨word,hword,_⟩ := hp
  exact ⟨word,index_eq_ok.mp hword⟩

/-- If no peer passes the tests, none is returned and nothing changes. -/
theorem upstreamGetPeer_none {rrp : UpstreamRRPeerData} {peers : List UpstreamRRPeer}
    {f : ℕ → Bool} (h : Filtered rrp.tried peers f) (hf : ∀ i < peers.length, f i = false) :
    upstreamGetPeer rrp peers = .ok (none,rrp,peers) := by
  have hs := scan_eq (i := 0) (by simpa [Filtered] using h) { }
  have hr : raised f 0 peers = peers := by
    apply List.ext_getElem?
    intro i
    cases hi : peers[i]? with
    | none => simp [raised,hi]
    | some peer => simp [raised,hi,hf i (List.getElem?_eq_some_iff.mp hi).1]
  cases hb : (Pick.among f 0 peers { }).best with
  | none => simp [upstreamGetPeer,hs,hb,hr]
  | some b =>
    have ⟨h1,h2,_⟩ := (Pick.finds f peers).some b.1 b.2 hb
    simp [hf b.1 h1] at h2

/-- If some peer passes the tests, the best of them is returned and marked as tried. -/
theorem upstreamGetPeer_some {rrp : UpstreamRRPeerData} {peers : List UpstreamRRPeer}
    {f : ℕ → Bool} (h : Filtered rrp.tried peers f) {i : ℕ} (hi : i < peers.length)
    (hf : f i = true) :
    ∃ p word, Chosen f peers p ∧ rrp.tried[p/(8*8)]? = some word ∧
      upstreamGetPeer rrp peers = .ok (some p,
        { rrp with
          current := some (rrp.peers,p)
          tried := rrp.tried.set (p/(8*8)) (word ||| mask p) },
        advance f peers p) := by
  have hs := scan_eq (i := 0) (by simpa [Filtered] using h) { }
  have hfinds := Pick.finds f peers
  cases hb : (Pick.among f 0 peers { }).best with
  | none =>
    have := hfinds.none hb i hi
    simp [hf] at this
  | some b =>
    obtain ⟨p,w⟩ := b
    have ⟨h1,h2,h3,h4⟩ := hfinds.some p w hb
    have ⟨word,hword⟩ := word_of_filtered h h1
    refine ⟨p,word,⟨h1,h2,h3 ▸ h4⟩,hword,?_⟩
    have hidx : index rrp.tried (p/(8*8)) = .ok word := index_eq_ok.mpr hword
    simp only [upstreamGetPeer,hs,ok_bind,hb,hidx,hfinds.total,advance,total]

end RecycleBin.NgPeer
