import RecycleBin.NgPeer
import RecycleBin.Transition

/-! Weights over whole runs. Choosing a peer moves current weight between the peers and
only ever raises an effective weight that is below the configured one, a failure lowers it
no further than zero. -/
namespace RecycleBin.NgPeer

/-- The effective weight is between zero and the configured weight. -/
def UpstreamRRPeer.Sane (peer : UpstreamRRPeer) : Prop :=
  0 ≤ peer.effectiveWeight ∧ peer.effectiveWeight ≤ peer.weight

/-- The sum of all current weights. -/
def load (peers : List UpstreamRRPeer) : ℤ := ∑ i ∈ Finset.range peers.length, current peers i

/-- The peers after a run that started from `ps`. -/
structure Kept (ps qs : List UpstreamRRPeer) : Prop where
  weights : qs.map (·.weight) = ps.map (·.weight)
  sane : ∀ q ∈ qs, q.Sane
  load : load qs = load ps

/-- The groups of an upstream, and the peers that have been returned so far as pairs of a
group and a position in it. -/
structure State where
  us : List UpstreamRRPeers
  got : List (ℕ × ℕ)

/-- A session chooses a peer, or ends with a state its connection was left in. -/
inductive Step
  | get (rrp : UpstreamRRPeerData)
  | free (pc : PeerConnection) (rrp : UpstreamRRPeerData) (state : ℕ)

namespace Step

def exec : Step → State → Except Fault State
  | get rrp, s => do
    let group ← index s.us rrp.peers
    let (best,_,ps) ← upstreamGetPeer rrp group.peer
    .ok ⟨s.us.set rrp.peers { group with peer := ps },best.toList.map (rrp.peers,·)++s.got⟩
  | free pc rrp state, s => do
    let (_,us) ← upstreamFreeRoundRobinPeer pc (.value rrp) state s.us
    .ok { s with us := us }

/-- The group exists, the bitmap has a word for each of its peers, and the peer that is freed
was returned before. -/
def Legal : Step → State → Prop
  | get rrp, s => ∃ group, s.us[rrp.peers]? = some group ∧ group.peer.length ≤ 64*rrp.tried.length
  | free _ rrp _, s => rrp.peers < s.us.length ∧ ∃ c ∈ s.got, rrp.current = some c

end Step

/-- Every group has been kept. -/
def KeptAll (us us' : List UpstreamRRPeers) : Prop :=
  us'.length = us.length ∧
    ∀ (i : ℕ) (group group' : UpstreamRRPeers), us[i]? = some group → us'[i]? = some group' → Kept group.peer group'.peer

/-- What a run keeps, and that the peers it has returned are there. -/
structure Good (us : List UpstreamRRPeers) (s : State) : Prop where
  kept : KeptAll us s.us
  got : ∀ c ∈ s.got, ∃ group, s.us[c.1]? = some group ∧ c.2 < group.peer.length

/-- The peers that fail the tests of a step are as they were. -/
def Spares : Step → State → State → Prop
  | .get rrp, s, t => ∀ group, s.us[rrp.peers]? = some group →
      ∃ group', t.us[rrp.peers]? = some group' ∧ ∀ i peer, group.peer[i]? = some peer →
        passes rrp.tried i peer = .ok false → group'.peer[i]? = some peer
  | .free _ _ _, _, _ => True

section
variable {ps qs rs : List UpstreamRRPeer}

theorem Kept.refl (h : ∀ p ∈ ps, p.Sane) : Kept ps ps := ⟨rfl,h,rfl⟩

theorem Kept.trans (h : Kept ps qs) (h' : Kept qs rs) : Kept ps rs :=
  ⟨h'.weights.trans h.weights,h'.sane,h'.load.trans h.load⟩

theorem Kept.length_eq (h : Kept ps qs) : qs.length = ps.length := by
  have := congrArg List.length h.weights
  simpa using this

theorem UpstreamRRPeer.Sane.raise {peer : UpstreamRRPeer} (h : peer.Sane) : peer.raise.Sane := by
  have ⟨h1,h2⟩ := h
  simp only [UpstreamRRPeer.Sane,UpstreamRRPeer.raise]
  split_ifs <;> omega

theorem sane_advance (h : ∀ p ∈ ps, p.Sane) (f : ℕ → Bool) (p : ℕ) :
    ∀ q ∈ advance f ps p, q.Sane := by
  intro q hq
  have ⟨i,hi⟩ := List.mem_iff_getElem?.mp hq
  rw [getElem?_advance,Option.map_eq_some_iff] at hi
  have ⟨peer,hpeer,he⟩ := hi
  have hs := h peer (List.mem_of_getElem? hpeer)
  rw [← he]
  split_ifs
  · exact hs.raise
  · exact hs
  · exact hs.raise
  · exact hs

theorem weights_advance (f : ℕ → Bool) (p : ℕ) :
    (advance f ps p).map (·.weight) = ps.map (·.weight) := by
  apply List.ext_getElem?
  intro i
  rw [List.getElem?_map,List.getElem?_map,getElem?_advance,Option.map_map]
  cases ps[i]? with
  | none => rfl
  | some peer =>
    simp only [Option.map_some,Function.comp_apply]
    split_ifs <;> rfl

theorem current_advance (f : ℕ → Bool) (p : ℕ) {i : ℕ} (hi : i < ps.length) :
    current (advance f ps p) i = current ps i+(if f i then effective ps i else 0)-
      if i = p then total f ps else 0 := by
  simp only [current,effective,getElem?_advance,List.getElem?_eq_getElem hi,Option.map_some,
    Option.getD_some,eq_comm (a := p)]
  split_ifs <;> simp [UpstreamRRPeer.settle,UpstreamRRPeer.raise]

/-- The chosen peer gives back what the others have got. -/
theorem load_advance (f : ℕ → Bool) {p : ℕ} (hp : p < ps.length) :
    load (advance f ps p) = load ps := by
  have hsum : ∑ i ∈ Finset.range ps.length, (current ps i+(if f i then effective ps i else 0)-
      if i = p then total f ps else 0) = load ps+total f ps-total f ps := by
    rw [Finset.sum_sub_distrib,Finset.sum_add_distrib,Finset.sum_ite_eq',
      if_pos (Finset.mem_range.mpr hp),load,total]
  rw [load,advance_length,Finset.sum_congr rfl fun i hi =>
    current_advance f p (Finset.mem_range.mp hi),hsum]
  ring

theorem kept_advance (h : ∀ p ∈ ps, p.Sane) (f : ℕ → Bool) {p : ℕ} (hp : p < ps.length) :
    Kept ps (advance f ps p) :=
  ⟨weights_advance f p,sane_advance h f p,load_advance f hp⟩

/-- A bitmap that is long enough lets every peer be tested. -/
theorem exists_filtered {tried : List Word} (h : ps.length ≤ 64*tried.length) :
    ∃ f, Filtered tried ps f := by
  apply filtered_of_ok
  intro i peer hi
  have hlt : i < ps.length := (List.getElem?_eq_some_iff.mp hi).1
  have hw : i/(8*8) < tried.length := by omega
  have hidx : index tried (i/(8*8)) = .ok tried[i/(8*8)] := by simp
  simp only [passes,hidx,ok_bind]
  split_ifs <;> exact ⟨_,rfl⟩

/-- A choice keeps the peers and spares those that fail the tests. -/
theorem upstreamGetPeer_kept {rrp : UpstreamRRPeerData} (h : ∀ p ∈ ps, p.Sane)
    (hlen : ps.length ≤ 64*rrp.tried.length) :
    ∃ best rrp' qs, upstreamGetPeer rrp ps = .ok (best,rrp',qs) ∧ Kept ps qs ∧
      (∀ p, best = some p → p < ps.length) ∧
      ∀ i peer, ps[i]? = some peer → passes rrp.tried i peer = .ok false → qs[i]? = some peer := by
  have ⟨f,hf⟩ := exists_filtered hlen
  by_cases hex : ∃ i < ps.length, f i = true
  · have ⟨i,hi,hfi⟩ := hex
    have ⟨p,word,hc,_,hget⟩ := upstreamGetPeer_some hf hi hfi
    refine ⟨_,_,_,hget,kept_advance h f hc.lt,?_,?_⟩
    · intro q hq
      cases hq
      exact hc.lt
    · intro j peer hj hpass
      have hfj : f j = false := by
        have := hf j peer hj
        rw [hpass] at this
        exact (Except.ok.inj this).symm
      have hne : p ≠ j := by
        intro he
        have := hc.pass
        rw [he,hfj] at this
        cases this
      simp [getElem?_advance,hj,hfj,hne]
  · have hnone : ∀ i < ps.length, f i = false := by
      intro i hi
      by_contra hn
      exact hex ⟨i,hi,by simpa using hn⟩
    exact ⟨none,rrp,ps,upstreamGetPeer_none hf hnone,.refl h,by simp,fun _ _ hj _ => hj⟩

theorem UpstreamRRPeer.Sane.share {peer : UpstreamRRPeer} (h : peer.Sane) :
    ∃ share, peer.share = .ok share ∧ 0 ≤ share := by
  have ⟨h1,h2⟩ := h
  unfold UpstreamRRPeer.share
  by_cases hm : peer.maxFails > 0
  · have hd : div peer.weight peer.maxFails = .ok (peer.weight.tdiv peer.maxFails) :=
      if_neg (by omega)
    exact ⟨_,by rw [if_pos hm,hd],Int.tdiv_nonneg (by omega) (by omega)⟩
  · exact ⟨0,if_neg hm,le_refl 0⟩

theorem UpstreamRRPeer.Sane.fail {peer : UpstreamRRPeer} (h : peer.Sane) :
    ∃ q, peer.fail = .ok q ∧ q.Sane ∧ q.weight = peer.weight ∧
      q.currentWeight = peer.currentWeight := by
  have ⟨share,hs,h0⟩ := h.share
  have ⟨h1,h2⟩ := h
  refine ⟨peer.lower share,by rw [UpstreamRRPeer.fail,hs,ok_bind],?_,rfl,rfl⟩
  simp only [UpstreamRRPeer.Sane,UpstreamRRPeer.lower]
  split_ifs <;> omega

theorem UpstreamRRPeer.Sane.pass {peer : UpstreamRRPeer} (h : peer.Sane) :
    peer.pass.Sane ∧ peer.pass.weight = peer.weight ∧
      peer.pass.currentWeight = peer.currentWeight := by
  unfold UpstreamRRPeer.pass
  split_ifs
  · exact ⟨h,rfl,rfl⟩
  · exact ⟨h,rfl,rfl⟩

/-- The end of a session never divides by zero and leaves current weight and bounds alone. -/
theorem UpstreamRRPeer.Sane.free {peer : UpstreamRRPeer} (h : peer.Sane) (single : Bool) (state : ℕ) :
    ∃ q, peer.free single state = .ok q ∧ q.Sane ∧ q.weight = peer.weight ∧
      q.currentWeight = peer.currentWeight := by
  cases single with
  | true => exact ⟨peer.disconnect,rfl,h,rfl,rfl⟩
  | false =>
    by_cases hs : state &&& PEER_FAILED = PEER_FAILED
    · have ⟨q,hq,hsane,hw,hc⟩ := h.fail
      exact ⟨q.disconnect,by simp [UpstreamRRPeer.free,hs,hq],hsane,hw,hc⟩
    · exact ⟨peer.pass.disconnect,by simp [UpstreamRRPeer.free,hs],h.pass⟩

/-- A peer replaced by one with the same weights. -/
theorem kept_set {p : ℕ} {peer q : UpstreamRRPeer} (h : ∀ p ∈ ps, p.Sane)
    (hp : ps[p]? = some peer) (hq : q.Sane) (hw : q.weight = peer.weight)
    (hc : q.currentWeight = peer.currentWeight) : Kept ps (ps.set p q) where
  weights := by
    apply List.ext_getElem?
    intro i
    by_cases hi : p = i
    · subst hi
      have hlt := (List.getElem?_eq_some_iff.mp hp).1
      rw [List.getElem?_map,List.getElem?_map,List.getElem?_set_self hlt,hp,Option.map_some,
        Option.map_some,hw]
    · simp [List.getElem?_set_ne hi]
  sane := by
    intro r hr
    cases List.mem_or_eq_of_mem_set hr with
    | inl hr => exact h r hr
    | inr hr => exact hr ▸ hq
  load := by
    rw [load,load,List.length_set]
    apply Finset.sum_congr rfl
    intro i _
    by_cases hi : p = i
    · subst hi
      have hlt := (List.getElem?_eq_some_iff.mp hp).1
      rw [current,current,List.getElem?_set_self hlt,hp,Option.map_some,Option.map_some,hc]
    · simp [current,List.getElem?_set_ne hi]

end

variable {us : List UpstreamRRPeers} {s : State}

theorem KeptAll.group {us' : List UpstreamRRPeers} (h : KeptAll us us') {i : ℕ}
    {group' : UpstreamRRPeers} (hi : us'[i]? = some group') :
    ∃ group, us[i]? = some group ∧ Kept group.peer group'.peer := by
  have hlt := (List.getElem?_eq_some_iff.mp hi).1
  have hlt' : i < us.length := h.1 ▸ hlt
  exact ⟨_,List.getElem?_eq_getElem hlt',h.2 i _ _ (List.getElem?_eq_getElem hlt') hi⟩

/-- One group is changed. -/
theorem Good.set (h : Good us s) {g : ℕ} {group : UpstreamRRPeers} (hg : s.us[g]? = some group)
    {qs : List UpstreamRRPeer} (hk : Kept group.peer qs) {got : List (ℕ × ℕ)}
    (hgot : ∀ c ∈ got, c ∈ s.got ∨ c.1 = g ∧ c.2 < group.peer.length) :
    Good us ⟨s.us.set g { group with peer := qs },got⟩ := by
  have hlt := (List.getElem?_eq_some_iff.mp hg).1
  have hself : (s.us.set g { group with peer := qs })[g]? = some { group with peer := qs } :=
    List.getElem?_set_self hlt
  refine ⟨⟨by simp [h.kept.1],?_⟩,?_⟩
  · intro i group₀ group' h0 hi
    by_cases he : g = i
    · subst he
      rw [hself] at hi
      cases hi
      exact (h.kept.2 g _ _ h0 hg).trans hk
    · rw [List.getElem?_set_ne he] at hi
      exact h.kept.2 i _ _ h0 hi
  · intro c hc
    -- the number of peers has not changed
    have hold : ∃ group₁, s.us[c.1]? = some group₁ ∧ c.2 < group₁.peer.length := by
      cases hgot c hc with
      | inl hc => exact h.got c hc
      | inr hc => exact ⟨group,hc.1 ▸ hg,hc.2⟩
    have ⟨group₁,h1,h2⟩ := hold
    by_cases he : g = c.1
    · rw [← he,hg] at h1
      cases h1
      refine ⟨{ group with peer := qs },by rw [← he]; exact hself,?_⟩
      have := hk.length_eq
      simpa [this] using h2
    · exact ⟨group₁,by rw [List.getElem?_set_ne he]; exact h1,h2⟩

theorem Good.exec_get (h : Good us s) {rrp : UpstreamRRPeerData} (hl : (Step.get rrp).Legal s) :
    ∃ t, (Step.get rrp).exec s = .ok t ∧ Good us t ∧ Spares (.get rrp) s t := by
  have ⟨group,hg,hlen⟩ := hl
  have ⟨_,_,hk⟩ := h.kept.group hg
  have ⟨best,rrp',qs,hget,hkept,hlt,hspare⟩ := upstreamGetPeer_kept hk.sane hlen
  have hidx : index s.us rrp.peers = .ok group := index_eq_ok.mpr hg
  refine ⟨_,by simp only [Step.exec,hidx,ok_bind,hget]; rfl,h.set hg hkept ?_,?_⟩
  · intro c hc
    cases List.mem_append.mp hc with
    | inl hc =>
      have ⟨p,hp,he⟩ := List.mem_map.mp hc
      have hb : best = some p := Option.mem_toList.mp hp
      exact .inr (he ▸ ⟨rfl,hlt p hb⟩)
    | inr hc => exact .inl hc
  · intro group₁ h1
    rw [hg] at h1
    cases h1
    have hglt := (List.getElem?_eq_some_iff.mp hg).1
    exact ⟨_,List.getElem?_set_self hglt,hspare⟩

theorem update_eq_ok {α : Type} {xs : List α} {i : ℕ} {f : α → Except Fault α} {x y : α}
    (hx : xs[i]? = some x) (hf : f x = .ok y) : update xs i f = .ok (xs.set i y) := by
  have hidx : index xs i = .ok x := index_eq_ok.mpr hx
  simp [update,hidx,hf]

theorem Good.exec_free (h : Good us s) {pc : PeerConnection} {rrp : UpstreamRRPeerData}
    {state : ℕ} (hl : (Step.free pc rrp state).Legal s) :
    ∃ t, (Step.free pc rrp state).exec s = .ok t ∧ Good us t := by
  have ⟨hpeers,⟨g,p⟩,hc,hcur⟩ := hl
  have ⟨group,hg,hp⟩ := h.got _ hc
  have ⟨_,_,hk⟩ := h.kept.group hg
  have hidx : index s.us rrp.peers = .ok s.us[rrp.peers] := by simp
  have hpeer : group.peer[p]? = some group.peer[p] := List.getElem?_eq_getElem hp
  have ⟨q,hq,hsane,hw,hcw⟩ := (hk.sane _ (List.getElem_mem hp)).free s.us[rrp.peers].single state
  have hps := update_eq_ok (f := (·.free s.us[rrp.peers].single state)) hpeer hq
  have hgroup := update_eq_ok (f := fun group : UpstreamRRPeers => do
    let ps ← update group.peer p (·.free s.us[rrp.peers].single state)
    .ok { group with peer := ps }) (y := { group with peer := group.peer.set p q }) hg
    (by simp only [hps,ok_bind])
  refine ⟨_,by simp only [Step.exec,upstreamFreeRoundRobinPeer,hidx,ok_bind,hcur,hgroup]; rfl,?_⟩
  exact h.set hg (kept_set hk.sane hpeer hsane hw hcw) fun c hc => .inl hc

/-- Every legal step returns, keeps the weights and spares the peers that fail the tests. -/
theorem Good.step (h : Good us s) {a : Step} (hl : a.Legal s) :
    ∃ t, a.exec s = .ok t ∧ Good us t ∧ Spares a s t := by
  cases a with
  | get rrp => exact h.exec_get hl
  | free pc rrp state =>
    have ⟨t,ht,hgood⟩ := h.exec_free hl
    exact ⟨t,ht,hgood,trivial⟩

end RecycleBin.NgPeer
