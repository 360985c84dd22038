import RecycleBin.NgPeer

/-! Failing over from peer to peer. The bit of a peer in the bitmap is a bit only for
the first six peers; for all others it is zero, and a peer without a bit counts as tried. -/
namespace RecycleBin.NgPeer

/-- The peer is not marked as down and has reached no limit. -/
structure UpstreamRRPeer.Up (peer : UpstreamRRPeer) : Prop where
  down : peer.down = false
  fails : ¬(peer.maxFails > 0 ∧ peer.fails ≥ peer.maxFails)
  conns : ¬(peer.maxConns > 0 ∧ peer.conns ≥ peer.maxConns)

/-- Peer `i` is not marked in the bitmap. -/
def untried (tried : List Word) (i : ℕ) : Bool :=
  match tried[i/(8*8)]? with
  | some word => word &&& mask i != mask i
  | none => false

/-- Successive calls with the data of one session. -/
def getPeers : ℕ → UpstreamRRPeerData → List UpstreamRRPeer →
    Except Fault (List (Option ℕ) × UpstreamRRPeerData × List UpstreamRRPeer)
  | 0, rrp, peers => .ok ([],rrp,peers)
  | n+1, rrp, peers => do
    let (best,rrp,peers) ← upstreamGetPeer rrp peers
    let (bests,rrp,peers) ← getPeers n rrp peers
    .ok (best::bests,rrp,peers)

/-- As many calls as there are peers return each peer once, and the next call returns none. -/
def CoversAll (rrp : UpstreamRRPeerData) (peers : List UpstreamRRPeer) : Prop :=
  ∃ bests rrp' peers', getPeers peers.length rrp peers = .ok (bests,rrp',peers') ∧
    (∀ i < peers.length, bests.count (some i) = 1) ∧
    ∃ r, upstreamGetPeer rrp' peers' = .ok (none,r)

/-- All peers are up and none has been tried. -/
structure Fresh (rrp : UpstreamRRPeerData) (peers : List UpstreamRRPeer) : Prop where
  up : ∀ peer ∈ peers, peer.Up
  words : (peers.length+63)/64 ≤ rrp.tried.length
  zero : ∀ word ∈ rrp.tried, word = 0

theorem mask_of_lt {i : ℕ} (h : i < 6) : mask i = BitVec.twoPow 64 i := by
  interval_cases i <;> rfl

theorem mask_of_le {i : ℕ} (h : 6 ≤ i) : mask i = 0 := by
  apply BitVec.eq_of_toNat_eq
  have h64 : 64 ∣ 1 <<< i := by
    rw [Nat.shiftLeft_eq,one_mul]
    exact pow_dvd_pow 2 h
  have hmod : (1 <<< i) % 2^64 % 64 = 0 := by
    rw [Nat.mod_mod_of_dvd _ (by norm_num)]
    exact Nat.mod_eq_zero_of_dvd h64
  simpa [mask,BitVec.toNat_umod,BitVec.toNat_shiftLeft] using hmod

theorem and_mask_eq {i : ℕ} (h : i < 6) (word : Word) :
    word &&& mask i = mask i ↔ word.getLsbD i = true := by
  rw [mask_of_lt h]
  constructor
  · intro he
    have := congrArg (·.getLsbD i) he
    simpa [show i < 64 by omega] using this
  · intro hi
    apply BitVec.eq_of_getLsbD_eq
    intro j hj
    by_cases hij : i = j
    · subst hij
      simp [hi]
    · simp [hij]

/-- Marking a peer with a bit marks no other. -/
theorem or_mask {i p : ℕ} (hi : i < 6) (hp : p < 6) (word : Word) :
    (word ||| mask p) &&& mask i = mask i ↔ i = p ∨ word &&& mask i = mask i := by
  rw [and_mask_eq hi,and_mask_eq hi,mask_of_lt hp]
  by_cases h : i = p
  · simp [h,show p < 64 by omega]
  · simp [h,Ne.symm h]

theorem untried_of_le {i : ℕ} (h : 6 ≤ i) (tried : List Word) : untried tried i = false := by
  cases ht : tried[i/(8*8)]? <;> simp [untried,ht,mask_of_le h]

theorem untried_set {tried : List Word} {i p : ℕ} {word : Word} (hi : i < 6) (hp : p < 6)
    (hw : tried[p/(8*8)]? = some word) :
    untried (tried.set (p/(8*8)) (word ||| mask p)) i = (untried tried i && i != p) := by
  have h0 : p/(8*8) = 0 := by omega
  have h1 : i/(8*8) = 0 := by omega
  rw [h0] at hw ⊢
  have hlen : 0 < tried.length := (List.getElem?_eq_some_iff.mp hw).1
  have hset : (tried.set 0 (word ||| mask p))[0]? = some (word ||| mask p) :=
    List.getElem?_set_self hlen
  have hor := or_mask hi hp word
  rw [Bool.eq_iff_iff]
  simp only [untried,h1,hset,hw,bne_iff_ne,ne_eq,Bool.and_eq_true,hor]
  tauto

/-- A mark takes its peer off those left to try. -/
theorem card_untried_set {tried : List Word} {n p : ℕ} {word : Word} (h6 : n ≤ 6) (hp : p < n)
    (hw : tried[p/(8*8)]? = some word) (ht : untried tried p = true) :
    ((Finset.range n).filter (untried (tried.set (p/(8*8)) (word ||| mask p)) ·)).card+1 =
      ((Finset.range n).filter (untried tried ·)).card := by
  have hmem : p ∈ (Finset.range n).filter (untried tried ·) := by simp [hp,ht]
  have herase : (Finset.range n).filter (untried (tried.set (p/(8*8)) (word ||| mask p)) ·) =
      ((Finset.range n).filter (untried tried ·)).erase p := by
    ext j
    simp only [Finset.mem_filter,Finset.mem_range,Finset.mem_erase]
    by_cases hj : j < n
    · rw [untried_set (by omega) (by omega) hw]
      simp only [Bool.and_eq_true,bne_iff_ne]
      tauto
    · simp [hj]
  rw [herase,Finset.card_erase_add_one hmem]

theorem untried_of_card {tried : List Word} {n i : ℕ}
    (h : ((Finset.range n).filter (untried tried ·)).card = 0) (hi : i < n) :
    untried tried i = false := by
  have hempty := Finset.card_eq_zero.mp h
  by_contra hf
  have hmem : i ∈ (Finset.range n).filter (untried tried ·) := by simpa [hi] using hf
  simp [hempty] at hmem

section
variable {rrp : UpstreamRRPeerData} {peers : List UpstreamRRPeer}

theorem passes_up {tried : List Word} {i : ℕ} {peer : UpstreamRRPeer} (hup : peer.Up)
    (hi : i/(8*8) < tried.length) : passes tried i peer = .ok (untried tried i) := by
  have hidx : index tried (i/(8*8)) = .ok tried[i/(8*8)] := by simp [hi]
  have hw : tried[i/(8*8)]? = some tried[i/(8*8)] := by simp [hi]
  have hf : ¬(peer.maxFails > 0 ∧ peer.fails ≥ peer.maxFails ∧ now-peer.checked ≤ peer.failTimeout) :=
    fun h => hup.fails ⟨h.1,h.2.1⟩
  simp only [passes,hidx,ok_bind,hup.down,hf,hup.conns,untried,hw]
  by_cases h : tried[i/(8*8)] &&& mask i = mask i <;> simp [h]

/-- Among peers that are up only the bitmap decides. -/
theorem filtered_up (hup : ∀ peer ∈ peers, peer.Up) (hw : (peers.length+63)/64 ≤ rrp.tried.length) :
    Filtered rrp.tried peers (untried rrp.tried) := by
  intro i peer hi
  have hlt : i < peers.length := (List.getElem?_eq_some_iff.mp hi).1
  exact passes_up (hup peer (List.mem_of_getElem? hi)) (by omega)

/-- A call keeps the peers up. -/
theorem up_advance (hup : ∀ peer ∈ peers, peer.Up) (f : ℕ → Bool) (p : ℕ) :
    ∀ peer ∈ advance f peers p, peer.Up := by
  intro q hq
  have ⟨i,hi⟩ := List.mem_iff_getElem?.mp hq
  rw [getElem?_advance,Option.map_eq_some_iff] at hi
  have ⟨peer,hpeer,he⟩ := hi
  have ⟨h1,h2,h3⟩ := hup peer (List.mem_of_getElem? hpeer)
  rw [← he]
  split_ifs <;> exact ⟨h1,h2,h3⟩

/-- Calls that have as many peers left to try return them one by one. -/
theorem getPeers_untried (n : ℕ) (hup : ∀ peer ∈ peers, peer.Up)
    (hw : (peers.length+63)/64 ≤ rrp.tried.length) (h6 : peers.length ≤ 6)
    (hn : ((Finset.range peers.length).filter (untried rrp.tried ·)).card = n) :
    ∃ bests rrp' peers', getPeers n rrp peers = .ok (bests,rrp',peers') ∧
      (∀ i < peers.length, bests.count (some i) = if untried rrp.tried i then 1 else 0) ∧
      ∃ r, upstreamGetPeer rrp' peers' = .ok (none,r) := by
  induction n generalizing rrp peers with
  | zero =>
    have hnone : ∀ i < peers.length, untried rrp.tried i = false := fun i hi => untried_of_card hn hi
    refine ⟨[],rrp,peers,rfl,?_,_,upstreamGetPeer_none (filtered_up hup hw) hnone⟩
    intro i hi
    simp [hnone i hi]
  | succ n ih =>
    have hpos : 0 < ((Finset.range peers.length).filter (untried rrp.tried ·)).card := by omega
    have ⟨i,hi⟩ := Finset.card_pos.mp hpos
    simp only [Finset.mem_filter,Finset.mem_range] at hi
    have ⟨p,word,hc,hword,hget⟩ := upstreamGetPeer_some (filtered_up hup hw) hi.1 hi.2
    have hset : ∀ j < peers.length, untried (rrp.tried.set (p/(8*8)) (word ||| mask p)) j =
        (untried rrp.tried j && j != p) := by
      intro j hj
      have := hc.lt
      exact untried_set (by omega) (by omega) hword
    set rrp' : UpstreamRRPeerData := { rrp with
      current := some (rrp.peers,p)
      tried := rrp.tried.set (p/(8*8)) (word ||| mask p) } with hrrp
    -- the peer returned is the only one that is no longer untried
    have hcard : ((Finset.range (advance (untried rrp.tried) peers p).length).filter
        (untried rrp'.tried ·)).card = n := by
      rw [advance_length]
      exact Nat.succ.inj ((card_untried_set h6 hc.lt hword hc.pass).trans hn)
    have ⟨bests,r,ps,hrun,hcount,hlast⟩ := ih (up_advance hup _ p)
      (by simpa [hrrp] using hw) (by simpa using h6) hcard
    refine ⟨some p::bests,r,ps,?_,?_,hlast⟩
    · simp only [getPeers,hget,ok_bind,hrun]
    · intro j hj
      have hj' := hcount j (by simpa using hj)
      rw [List.count_cons,hj',hset j hj]
      by_cases he : p = j
      · subst he
        simp [hc.pass]
      · simp [he,Ne.symm he]

/-- A peer without a bit is never returned. -/
theorem getPeers_high (n : ℕ) (hup : ∀ peer ∈ peers, peer.Up)
    (hw : (peers.length+63)/64 ≤ rrp.tried.length) {bests : List (Option ℕ)}
    {r : UpstreamRRPeerData × List UpstreamRRPeer} (h : getPeers n rrp peers = .ok (bests,r)) {i : ℕ}
    (hi : 6 ≤ i) : some i ∉ bests := by
  induction n generalizing rrp peers bests with
  | zero =>
    cases h
    simp
  | succ n ih =>
    simp only [getPeers,bind_eq_ok] at h
    obtain ⟨⟨best,rrp',ps⟩,hget,⟨rest,r'⟩,hrun,he⟩ := h
    cases he
    by_cases hex : ∃ j < peers.length, untried rrp.tried j = true
    · have ⟨j,hj,hju⟩ := hex
      have ⟨p,word,hc,_,hp⟩ := upstreamGetPeer_some (filtered_up hup hw) hj hju
      rw [hp] at hget
      cases hget
      have hne : i ≠ p := by
        intro he
        have := hc.pass
        rw [← he,untried_of_le hi] at this
        cases this
      have hrest := ih (up_advance hup _ p) (by simpa using hw) hrun
      simp [hne,hrest]
    · have hnone : ∀ j < peers.length, untried rrp.tried j = false := by
        intro j hj
        by_contra hn
        exact hex ⟨j,hj,by simpa using hn⟩
      rw [upstreamGetPeer_none (filtered_up hup hw) hnone] at hget
      cases hget
      simp [ih hup hw hrun]

theorem not_coversAll (h : Fresh rrp peers) (h6 : 6 < peers.length) : ¬CoversAll rrp peers := by
  intro ⟨bests,rrp',peers',hrun,hcount,_⟩
  have hno := getPeers_high _ h.up h.words hrun (le_refl 6)
  have hone := hcount 6 h6
  rw [List.count_eq_zero.mpr hno] at hone
  cases hone

theorem Fresh.untried (h : Fresh rrp peers) {i : ℕ} (hi : i < peers.length) (h6 : i < 6) :
    untried rrp.tried i = true := by
  have hlt : i/(8*8) < rrp.tried.length := by
    have := h.words
    omega
  have hw : rrp.tried[i/(8*8)]? = some 0 := by
    rw [List.getElem?_eq_getElem hlt,h.zero _ (List.getElem_mem hlt)]
  have hne : mask i ≠ 0 := by
    rw [mask_of_lt h6]
    interval_cases i <;> decide
  have hand : (0 : Word) &&& mask i ≠ mask i := by
    rw [BitVec.ofNat_eq_ofNat,BitVec.zero_and]
    exact hne.symm
  simp only [NgPeer.untried,hw,bne_iff_ne,ne_eq,hand,not_false_eq_true]

theorem coversAll (h : Fresh rrp peers) (h6 : peers.length ≤ 6) : CoversAll rrp peers := by
  have hu : ∀ i < peers.length, NgPeer.untried rrp.tried i = true :=
    fun i hi => h.untried hi (by omega)
  have hcard : ((Finset.range peers.length).filter (NgPeer.untried rrp.tried ·)).card =
      peers.length := by
    rw [Finset.filter_true_of_mem (fun i hi => hu i (Finset.mem_range.mp hi)),Finset.card_range]
  have ⟨bests,rrp',peers',hrun,hcount,hlast⟩ := getPeers_untried _ h.up h.words h6 hcard
  refine ⟨bests,rrp',peers',hrun,?_,hlast⟩
  intro i hi
  simp [hcount i hi,hu i hi]

/-- Failover covers all peers exactly when there are at most six. -/
theorem coversAll_iff (h : Fresh rrp peers) : CoversAll rrp peers ↔ peers.length ≤ 6 := by
  constructor
  · intro hc
    by_contra hn
    exact not_coversAll h (by omega) hc
  · exact coversAll h

end

/-- Peers of weight 1 without limits. -/
def alike (n : ℕ) : List UpstreamRRPeer := List.replicate n { effectiveWeight := 1, weight := 1 }

theorem fresh_alike {n : ℕ} (h : n ≤ 64) : Fresh { tried := [0] } (alike n) where
  up := by
    intro peer hp
    rw [List.eq_of_mem_replicate hp]
    exact ⟨rfl,by decide,by decide⟩
  words := by
    simp only [alike,List.length_replicate,List.length_singleton]
    omega
  zero := by simp

theorem coversAll_iff_six :
    Fresh { tried := [0] } (alike 6) ∧ CoversAll { tried := [0] } (alike 6) :=
  ⟨fresh_alike (by decide),(coversAll_iff (fresh_alike (by decide))).mpr (by decide)⟩

/-- The seventh peer is never returned. -/
theorem not_coversAll_seven :
    ¬∀ rrp peers, Fresh rrp peers → CoversAll rrp peers := by
  intro h
  exact not_coversAll (fresh_alike (by decide)) (by decide) (h { tried := [0] } (alike 7)
    (fresh_alike (by decide)))

end RecycleBin.NgPeer
