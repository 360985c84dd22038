import RecycleBin.Apportion
import RecycleBin.NgPeer

/-! Fairness of the smooth weighted round robin. While the same peers pass the tests
in every call and keep their full weights, the calls are a greedy apportionment of the
choices to the peers. -/
namespace RecycleBin.NgPeer

/-- The configured weight of peer `i`. -/
def weight (peers : List UpstreamRRPeer) (i : ℕ) : ℤ := (peers[i]?.map (·.weight)).getD 0

def UpstreamRRPeer.weights (peer : UpstreamRRPeer) : ℤ × ℤ × ℤ :=
  (peer.currentWeight,peer.effectiveWeight,peer.weight)

/-- Consecutive calls in each of which exactly the peers of `E` pass the tests, with the data of
any sessions. What happens between two calls leaves the weights of these peers alone. -/
inductive Calls (E : Finset ℕ) :
    List UpstreamRRPeer → List (Option ℕ) → List UpstreamRRPeer → Prop
  | nil (peers) : Calls E peers [] peers
  | cons {peers qs ps peers' rrp rrp' best bests} :
    (∀ i ∈ E, peers[i]?.map (·.weights) = qs[i]?.map (·.weights)) →
    Filtered rrp.tried qs (fun i => decide (i ∈ E)) →
    upstreamGetPeer rrp qs = .ok (best,rrp',ps) →
    Calls E ps bests peers' → Calls E peers (best::bests) peers'

/-- Peer `i` is there with credit `c`, and its effective weight is the configured one. -/
def Full (peers : List UpstreamRRPeer) (i : ℕ) (c w : ℤ) : Prop :=
  ∃ peer, peers[i]? = some peer ∧ peer.weights = (c,w,w)

namespace Full
variable {peers qs : List UpstreamRRPeer} {i : ℕ} {c w : ℤ}

theorem current_eq (h : Full peers i c w) : current peers i = c := by
  have ⟨peer,hp,hw⟩ := h
  simp only [UpstreamRRPeer.weights,Prod.mk.injEq] at hw
  simp [current,hp,hw.1]

theorem effective_eq (h : Full peers i c w) : effective peers i = w := by
  have ⟨peer,hp,hw⟩ := h
  simp only [UpstreamRRPeer.weights,Prod.mk.injEq] at hw
  simp [effective,hp,hw.2.1]

theorem lt (h : Full peers i c w) : i < peers.length := by
  have ⟨_,hp,_⟩ := h
  exact (List.getElem?_eq_some_iff.mp hp).1

/-- Only the weights matter. -/
theorem congr (h : Full peers i c w) (he : peers[i]?.map (·.weights) = qs[i]?.map (·.weights)) :
    Full qs i c w := by
  have ⟨peer,hp,hw⟩ := h
  rw [hp,Option.map_some,hw] at he
  exact Option.map_eq_some_iff.mp he.symm

/-- A peer that passes is credited with its weight, and the chosen one pays the total. -/
theorem advance (h : Full peers i c w) {f : ℕ → Bool} (hf : f i = true) (p : ℕ) :
    Full (advance f peers p) i (c+w-if i = p then total f peers else 0) w := by
  have ⟨peer,hp,hw⟩ := h
  simp only [UpstreamRRPeer.weights,Prod.mk.injEq] at hw
  obtain ⟨h1,h2,h3⟩ := hw
  refine ⟨_,by rw [getElem?_advance,hp,Option.map_some],?_⟩
  by_cases hi : p = i
  · simp [UpstreamRRPeer.weights,UpstreamRRPeer.settle,UpstreamRRPeer.raise,hf,hi,h1,h2,h3]
  · simp [UpstreamRRPeer.weights,UpstreamRRPeer.raise,hf,hi,Ne.symm hi,h1,h2,h3]

end Full

variable {E : Finset ℕ} {peers : List UpstreamRRPeer} {c w : ℕ → ℤ}

/-- The total of a call is the price of the apportionment. -/
theorem total_eq_price (h : ∀ i ∈ E, Full peers i (c i) (w i)) :
    total (fun i => decide (i ∈ E)) peers = Apportion.price E w := by
  have hsub : E ⊆ Finset.range peers.length := by
    intro i hi
    exact Finset.mem_range.mpr (h i hi).lt
  calc total (fun i => decide (i ∈ E)) peers
      = ∑ i ∈ Finset.range peers.length, if i ∈ E then effective peers i else 0 := by simp [total]
    _ = ∑ i ∈ E, effective peers i := by
      rw [Finset.sum_ite_mem,Finset.inter_eq_right.mpr hsub]
    _ = Apportion.price E w := Finset.sum_congr rfl fun i hi => (h i hi).effective_eq

/-- Every call returns a peer, and the peers are picked greedily. -/
theorem Calls.greedy {bests : List (Option ℕ)} {peers' : List UpstreamRRPeer}
    (hrun : Calls E peers bests peers') (hne : E.Nonempty)
    (h : ∀ i ∈ E, Full peers i (c i) (w i)) :
    ∃ l, bests = l.map some ∧ Apportion.Greedy E w c l ∧
      ∀ i ∈ E, Full peers' i (Apportion.after E w c l i) (w i) := by
  induction hrun generalizing c with
  | nil peers => exact ⟨[],rfl,trivial,h⟩
  | @cons peers qs ps peers' rrp rrp' best bests he hf hget _ ih =>
    have hq : ∀ i ∈ E, Full qs i (c i) (w i) := fun i hi => (h i hi).congr (he i hi)
    have ⟨k,hk⟩ := hne
    have ⟨p,word,hc,_,hp⟩ := upstreamGetPeer_some hf (hq k hk).lt (by simpa using hk)
    rw [hget] at hp
    cases hp
    have hpE : p ∈ E := by simpa using hc.pass
    have hpick : Apportion.Picks E w c p := by
      refine ⟨hpE,?_⟩
      intro i hi
      have hb := hc.best i (hq i hi).lt (by simpa using hi)
      rwa [(hq i hi).current_eq,(hq i hi).effective_eq,(hq p hpE).current_eq,
        (hq p hpE).effective_eq] at hb
    have hnext : ∀ i ∈ E, Full (NgPeer.advance (fun i => decide (i ∈ E)) qs p) i
        (Apportion.next E w c p i) (w i) := by
      intro i hi
      have := (hq i hi).advance (f := fun i => decide (i ∈ E)) (by simpa using hi) p
      rwa [total_eq_price hq] at this
    have ⟨l,hl,hg,ha⟩ := ih hnext
    exact ⟨p::l,by simp [hl],⟨hpick,hg⟩,ha⟩

/-- At no time does a peer owe the sum of all weights. -/
theorem Calls.owes {bests : List (Option ℕ)} {peers' : List UpstreamRRPeer} (hne : E.Nonempty)
    (hfull : ∀ i ∈ E, 0 < weight peers i ∧ Full peers i 0 (weight peers i))
    (hrun : Calls E peers bests peers') :
    ∀ i ∈ E, -∑ j ∈ E, weight peers j < current peers' i := by
  have ⟨l,_,hg,ha⟩ := hrun.greedy (c := 0) hne fun i hi => (hfull i hi).2
  have hpos : 0 < Apportion.price E (weight peers) :=
    Finset.sum_pos (fun i hi => (hfull i hi).1) hne
  have hb := (Apportion.balanced_zero (c := 0) (by simp) hpos).after hg
    (fun i hi => (hfull i hi).1.le) hpos
  intro i hi
  rw [(ha i hi).current_eq]
  exact hb.owes i hi

end RecycleBin.NgPeer
