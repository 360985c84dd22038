import RecycleBin.NgPeer

/-! Sessions that take and give back peers. The data of a session is installed as a
pointer, which the function that takes a peer asserts and the function that gives it back
does not. -/
namespace RecycleBin.NgPeer

structure Session where
  pc : PeerConnection
  data : Data
  deriving DecidableEq,Repr

/-- The groups of an upstream, its sessions, and which sessions hold a peer. -/
structure World where
  us : List UpstreamRRPeers
  sessions : List Session
  held : List ℕ
  deriving DecidableEq,Repr

/-- `peer.Get(pc, data)` and `peer.Free(pc, data, state)` of session `i`. -/
inductive Event
  | get (i : ℕ)
  | free (i : ℕ) (state : ℕ)
  deriving DecidableEq,Repr

namespace Event

def exec : Event → World → Except Fault World
  | get i, w => do
    let session ← index w.sessions i
    let (rc,pc,data,us) ← upstreamGetRoundRobinPeer session.pc session.data w.us
    .ok ⟨us,w.sessions.set i ⟨pc,data⟩,if rc = OK then i::w.held else w.held⟩
  | free i state, w => do
    let session ← index w.sessions i
    let (pc,us) ← upstreamFreeRoundRobinPeer session.pc session.data state w.us
    .ok ⟨us,w.sessions.set i ⟨pc,session.data⟩,w.held.erase i⟩

/-- A session takes a peer when it holds none, and gives back one it holds. -/
def Legal : Event → World → Prop
  | get i, w => i < w.sessions.length ∧ i ∉ w.held
  | free i _, w => i ∈ w.held

end Event

/-- Every peer that was taken is given back once, by the session that took it. -/
def Proper : List Event → World → Prop
  | [], w => w.held = []
  | e::es, w => e.Legal w ∧ ∀ w', e.exec w = .ok w' → Proper es w'

/-- The connections of every peer. -/
def conns (us : List UpstreamRRPeers) : List (List ℤ) := us.map fun group => group.peer.map (·.conns)

/-- No event fails, no number of connections becomes negative, and in the end all are what they
were in `us`. -/
def Accounts (us : List UpstreamRRPeers) : List Event → World → Prop
  | [], w => conns w.us = conns us
  | e::es, w => ∃ w', e.exec w = .ok w' ∧ (∀ cs ∈ conns w'.us, ∀ c ∈ cs, 0 ≤ c) ∧ Accounts us es w'

/-- Sessions as they are set up, with no peer taken yet. -/
structure Installed (w : World) : Prop where
  data : ∀ session ∈ w.sessions, ∃ data, upstreamInitRoundRobinPeer data w.us = .ok (OK,session.data)
  held : w.held = []
  conns : ∀ cs ∈ conns w.us, ∀ c ∈ cs, 0 ≤ c

/-- Peer `i` cannot be chosen: it was tried, is down, or has reached a limit. -/
def Turned (tried : List Word) (i : ℕ) (peer : UpstreamRRPeer) : Prop :=
  ∃ word, tried[i/(8*8)]? = some word ∧ (word &&& mask i = mask i ∨ peer.down = true ∨
    (peer.maxFails > 0 ∧ peer.fails ≥ peer.maxFails ∧ now-peer.checked ≤ peer.failTimeout) ∨
    (peer.maxConns > 0 ∧ peer.conns ≥ peer.maxConns))

/-- The only peer of a single group is down or full, or no peer of the group can be chosen. -/
def Dry (tried : List Word) (peers : UpstreamRRPeers) : Prop :=
  if peers.single then ∃ peer, peers.peer[0]? = some peer ∧
    (peer.down = true ∨ (peer.maxConns > 0 ∧ peer.conns ≥ peer.maxConns))
  else ∀ i peer, peers.peer[i]? = some peer → Turned tried i peer

/-- A group and all its backups are dry, and the bitmap has a word for each peer of a backup. -/
def AllDry (tried : List Word) : List UpstreamRRPeers → Prop
  | [] => False
  | peers::next => Dry tried peers ∧
    match next with
    | [] => True
    | backup::_ => backup.number ≤ tried.length ∧
        AllDry (List.replicate backup.number 0++tried.drop backup.number) next

/-- The event takes no peer because none is left. -/
def Event.Vain : Event → World → Prop
  | .get i, w => ∃ pc rrp, w.sessions[i]? = some ⟨pc,.pointer (some rrp)⟩ ∧
      AllDry rrp.tried (w.us.drop rrp.peers)
  | .free _ _, _ => True

/-- All events of a run that take a peer are in vain. -/
def InVain : List Event → World → Prop
  | [], _ => True
  | e::es, w => e.Vain w ∧ ∀ w', e.exec w = .ok w' → InVain es w'

theorem passes_eq_false {tried : List Word} {i : ℕ} {peer : UpstreamRRPeer} :
    passes tried i peer = .ok false ↔ Turned tried i peer := by
  cases ht : tried[i/(8*8)]? with
  | none => simp [passes,index,ht,Turned]
  | some word =>
    have hidx : index tried (i/(8*8)) = .ok word := index_eq_ok.mpr ht
    simp only [passes,hidx,ok_bind,Turned,ht,Option.some.injEq,exists_eq_left']
    split_ifs <;> simp_all

theorem filtered_of_scan {tried : List Word} {peers : List UpstreamRRPeer} {i : ℕ} {s : Pick}
    {r : List UpstreamRRPeer × Pick} (h : scan tried i peers s = .ok r) :
    ∀ j peer, peers[j]? = some peer → ∃ b, passes tried (i+j) peer = .ok b := by
  induction peers generalizing i s r with
  | nil => simp
  | cons p ps ih =>
    simp only [scan,bind_eq_ok] at h
    obtain ⟨b,hb,r',hr,_⟩ := h
    intro j peer hj
    cases j with
    | zero =>
      cases hj
      exact ⟨b,hb⟩
    | succ j =>
      have := ih hr j peer (by simpa using hj)
      rwa [show i+(j+1) = i+1+j by omega]

/-- A choice that returns nothing has found no peer, and has changed nothing. -/
theorem upstreamGetPeer_eq_none {rrp rrp' : UpstreamRRPeerData} {peers ps : List UpstreamRRPeer} :
    upstreamGetPeer rrp peers = .ok (none,rrp',ps) ↔
      (∀ i peer, peers[i]? = some peer → Turned rrp.tried i peer) ∧ rrp' = rrp ∧ ps = peers := by
  constructor
  · intro h
    have h' := h
    rw [upstreamGetPeer,bind_eq_ok] at h'
    obtain ⟨r,hr,_⟩ := h'
    have hok : ∀ i peer, peers[i]? = some peer → ∃ b, passes rrp.tried i peer = .ok b := by
      simpa using filtered_of_scan hr
    obtain ⟨f,hf⟩ := filtered_of_ok hok
    have hnone : ∀ i < peers.length, f i = false := by
      intro i hi
      by_contra hn
      obtain ⟨p,word,_,_,hget⟩ := upstreamGetPeer_some hf hi (by simpa using hn)
      rw [h] at hget
      cases hget
    have hsame := upstreamGetPeer_none hf hnone
    rw [h] at hsame
    cases hsame
    refine ⟨?_,rfl,rfl⟩
    intro i peer hi
    have := hf i peer hi
    rw [hnone i (List.getElem?_eq_some_iff.mp hi).1] at this
    exact passes_eq_false.mp this
  · rintro ⟨h,hr,hp⟩
    rw [hr,hp]
    exact upstreamGetPeer_none (f := fun _ => false)
      (fun i peer hi => passes_eq_false.mpr (h i peer hi)) (fun _ _ => rfl)

/-- In a group nothing is chosen exactly when it is dry. -/
theorem choose_eq_none {rrp rrp' : UpstreamRRPeerData} {peers : UpstreamRRPeers}
    {ps : List UpstreamRRPeer} :
    choose rrp peers = .ok (none,rrp',ps) ↔ Dry rrp.tried peers ∧ rrp' = rrp ∧ ps = peers.peer := by
  cases hs : peers.single with
  | false => simp [choose,Dry,hs,upstreamGetPeer_eq_none]
  | true =>
    cases h0 : peers.peer[0]? with
    | none => simp [choose,Dry,hs,index,h0]
    | some peer =>
      have hidx : index peers.peer 0 = .ok peer := index_eq_ok.mpr h0
      simp only [choose,Dry,hs,hidx,ok_bind,if_true,h0,Option.some.injEq,exists_eq_left']
      split_ifs with h1 h2 <;> grind

theorem clearTried_eq_ok {n : ℕ} {tried ws : List Word} :
    clearTried (n+(8*8-1)/(8*8)) tried = .ok ws ↔
      n ≤ tried.length ∧ ws = List.replicate n 0++tried.drop n := by
  simp only [clearTried,show n+(8*8-1)/(8*8) = n by omega]
  split_ifs with h <;> simp [h,eq_comm]

/-- The whole list of groups is dry: nothing is returned and no group changes. -/
theorem getFrom_dry {groups : List UpstreamRRPeers} (pc : PeerConnection)
    (rrp : UpstreamRRPeerData) (h : AllDry rrp.tried groups) :
    ∃ pc' rrp', getFrom pc rrp groups = .ok (BUSY,pc',rrp',groups) := by
  induction groups generalizing pc rrp with
  | nil => exact h.elim
  | cons peers next ih =>
    have hc := choose_eq_none.mpr ⟨h.1,rfl,rfl⟩
    cases next with
    | nil => exact ⟨_,_,by rw [getFrom,hc,ok_bind]⟩
    | cons backup rest =>
      have ht := clearTried_eq_ok.mpr ⟨h.2.1,rfl⟩
      have ⟨pc',rrp',hrun⟩ := ih pc { rrp with
        peers := rrp.peers+1
        tried := List.replicate backup.number 0++rrp.tried.drop backup.number } h.2.2
      exact ⟨_,_,by rw [getFrom]; simp only [hc,ok_bind,ht,hrun]; rfl⟩

/-- A call that does not take a peer has found all groups dry. -/
theorem getFrom_eq_ok {groups groups' : List UpstreamRRPeers} {pc pc' : PeerConnection}
    {rrp rrp' : UpstreamRRPeerData} {rc : ℤ} (h : getFrom pc rrp groups = .ok (rc,pc',rrp',groups')) :
    rc = OK ∨ AllDry rrp.tried groups := by
  induction groups generalizing pc rrp rc pc' rrp' groups' with
  | nil => cases h
  | cons peers next ih =>
    simp only [getFrom,bind_eq_ok] at h
    obtain ⟨⟨peer,rrp₁,ps⟩,hc,h⟩ := h
    cases peer with
    | some p =>
      obtain ⟨best,_,h⟩ := bind_eq_ok.mp h
      cases h
      exact .inl rfl
    | none =>
      have ⟨hd,h1,h2⟩ := choose_eq_none.mp hc
      subst h1 h2
      cases next with
      | nil => exact .inr ⟨hd,trivial⟩
      | cons backup rest =>
        simp only [bind_eq_ok] at h
        obtain ⟨ws,hws,⟨rc₂,pc₂,rrp₂,next₂⟩,hrun,h⟩ := h
        have ⟨hn,he⟩ := clearTried_eq_ok.mp hws
        have hih := ih hrun
        dsimp only at h
        split_ifs at h with hb
        · cases h
          cases hih with
          | inl hok => exact .inl hok
          | inr hall => exact .inr ⟨hd,hn,he ▸ hall⟩
        · cases h
          cases hih with
          | inl hok =>
            rw [hok] at hb
            exact absurd (by decide) hb
          | inr hall => exact .inr ⟨hd,hn,he ▸ hall⟩

/-- The data of every session is a pointer. -/
def Pointers (w : World) : Prop := ∀ session ∈ w.sessions, ∃ rrp, session.data = .pointer (some rrp)

theorem init_pointer {data data' : Data} {us : List UpstreamRRPeers}
    (h : upstreamInitRoundRobinPeer data us = .ok (OK,data')) : ∃ rrp, data' = .pointer (some rrp) := by
  unfold upstreamInitRoundRobinPeer at h
  cases data with
  | nil => cases h
  | value rrp => cases h
  | pointer rrp =>
    cases rrp with
    | none => cases h
    | some rrp =>
      simp only [bind_eq_ok] at h
      have ⟨peers,_,h⟩ := h
      split_ifs at h
      · have ⟨tried,_,h⟩ := bind_eq_ok.mp h
        cases h
        exact ⟨_,rfl⟩
      · cases h
        exact ⟨_,rfl⟩

theorem Installed.pointers {w : World} (h : Installed w) : Pointers w := by
  intro session hs
  have ⟨data,hd⟩ := h.data session hs
  exact init_pointer hd

variable {w w' : World} {i : ℕ}

theorem exec_get_eq_ok (hp : Pointers w) (h : (Event.get i).exec w = .ok w') :
    Pointers w' ∧ (w'.held = i::w.held ∨ (Event.get i).Vain w) := by
  simp only [Event.exec,bind_eq_ok,index_eq_ok] at h
  obtain ⟨session,hs,⟨rc,pc,data,us⟩,hget,h⟩ := h
  obtain ⟨rrp,hd⟩ := hp session (List.mem_of_getElem? hs)
  simp only [upstreamGetRoundRobinPeer,hd,bind_eq_ok] at hget
  obtain ⟨⟨rc',pc',rrp',groups⟩,hrun,hget⟩ := hget
  cases hget
  cases h
  constructor
  · intro session' hs'
    cases List.mem_or_eq_of_mem_set hs' with
    | inl hold => exact hp session' hold
    | inr hnew => exact ⟨rrp',by rw [hnew]⟩
  · cases getFrom_eq_ok hrun with
    | inl hok => exact .inl (if_pos hok)
    | inr hdry => exact .inr ⟨session.pc,rrp,by rw [hs,← hd],hdry⟩

theorem exec_get_vain (h : (Event.get i).Vain w) :
    ∃ w', (Event.get i).exec w = .ok w' ∧ w'.us = w.us ∧ w'.held = w.held := by
  have ⟨pc,rrp,hs,hdry⟩ := h
  have hidx : index w.sessions i = .ok ⟨pc,.pointer (some rrp)⟩ := index_eq_ok.mpr hs
  have ⟨pc',rrp',hrun⟩ := getFrom_dry pc rrp hdry
  refine ⟨⟨w.us,w.sessions.set i ⟨pc',.pointer (some rrp')⟩,w.held⟩,?_,rfl,rfl⟩
  simp only [Event.exec,hidx,ok_bind,upstreamGetRoundRobinPeer,hrun,List.take_append_drop]
  rfl

/-- Giving a peer back never works: the data is not of the type the function asserts. -/
theorem exec_free (hp : Pointers w) (state : ℕ) : (Event.free i state).exec w ≠ .ok w' := by
  intro h
  simp only [Event.exec,bind_eq_ok,index_eq_ok] at h
  obtain ⟨session,hs,r,hfree,_⟩ := h
  obtain ⟨rrp,hd⟩ := hp session (List.mem_of_getElem? hs)
  rw [hd] at hfree
  cases hfree

/-- A run in which some session holds a peer ends in a failure. -/
theorem not_accounts_of_held {us : List UpstreamRRPeers} {es : List Event} (hp : Pointers w)
    (hprop : Proper es w) (hi : i ∈ w.held) : ¬Accounts us es w := by
  induction es generalizing w i with
  | nil =>
    have hnil : w.held = [] := hprop
    simp [hnil] at hi
  | cons e es ih =>
    intro ⟨w',he,_,hrest⟩
    cases e with
    | free j state => exact exec_free hp state he
    | get j =>
      have hnext := hprop.2 w' he
      have ⟨hp',hheld⟩ := exec_get_eq_ok hp he
      cases hheld with
      | inl hgot => exact ih hp' hnext (hgot ▸ List.mem_cons_self) hrest
      | inr hvain =>
        have ⟨w₁,he₁,_,hsame⟩ := exec_get_vain hvain
        rw [he] at he₁
        cases he₁
        exact ih hp' hnext (hsame ▸ hi) hrest

theorem inVain_of_accounts {us : List UpstreamRRPeers} {es : List Event} (hp : Pointers w)
    (hprop : Proper es w) (h : Accounts us es w) : InVain es w := by
  induction es generalizing w with
  | nil => trivial
  | cons e es ih =>
    have ⟨w',he,_,hrest⟩ := h
    cases e with
    | free j state => exact (exec_free hp state he).elim
    | get j =>
      have hnext := hprop.2 w' he
      have ⟨hp',hheld⟩ := exec_get_eq_ok hp he
      cases hheld with
      | inl hgot =>
        exact (not_accounts_of_held hp' hnext (hgot ▸ List.mem_cons_self) hrest).elim
      | inr hvain =>
        refine ⟨hvain,?_⟩
        intro w₁ he₁
        rw [he] at he₁
        cases he₁
        exact ih hp' hnext hrest

theorem accounts_of_inVain {us : List UpstreamRRPeers} {es : List Event} (hp : Pointers w)
    (hprop : Proper es w) (hheld : w.held = []) (hus : conns w.us = conns us)
    (h0 : ∀ cs ∈ conns w.us, ∀ c ∈ cs, 0 ≤ c) (h : InVain es w) : Accounts us es w := by
  induction es generalizing w with
  | nil => exact hus
  | cons e es ih =>
    cases e with
    | free j state =>
      have hlegal : j ∈ w.held := hprop.1
      simp [hheld] at hlegal
    | get j =>
      have ⟨w',he,hsame,hheld'⟩ := exec_get_vain h.1
      have hp' := (exec_get_eq_ok hp he).1
      exact ⟨w',he,hsame ▸ h0,ih hp' (hprop.2 w' he) (hheld'.trans hheld) (hsame ▸ hus) (hsame ▸ h0)
        (h.2 w' he)⟩

/-- The connections of a run are accounted for exactly when no session ever takes a peer. -/
theorem accounts_iff (h : Installed w) {es : List Event} (hprop : Proper es w) :
    Accounts w.us es w ↔ InVain es w := by
  constructor
  · exact inVain_of_accounts h.pointers hprop
  · exact accounts_of_inVain h.pointers hprop h.held rfl h.conns

/-- A single peer, and a session that is set up for it. -/
def solo (peer : UpstreamRRPeer) : World :=
  ⟨[{ number := 1, single := true, peer := [peer] }],
    [⟨{ },.pointer (some { tried := [0] })⟩],[]⟩

theorem installed_solo {peer : UpstreamRRPeer} (h : 0 ≤ peer.conns) : Installed (solo peer) where
  data := by
    intro session hs
    rw [List.mem_singleton.mp hs]
    exact ⟨.pointer (some { tried := [0] }),rfl⟩
  held := rfl
  conns := by simpa [NgPeer.conns,solo] using h

/-- The peer is down: it is not taken and nothing has to be given back. -/
theorem accounts_iff_down : Accounts (solo { down := true }).us [.get 0] (solo { down := true }) := by
  have hprop : Proper [.get 0] (solo { down := true }) := by
    refine ⟨⟨by decide,by decide⟩,?_⟩
    intro w' hw
    cases hw
    rfl
  refine (accounts_iff (installed_solo (by decide)) hprop).mpr ⟨⟨_,_,rfl,?_⟩,fun _ _ => trivial⟩
  exact ⟨⟨_,rfl,.inl rfl⟩,trivial⟩

/-- The peer is up: taking it works and giving it back fails. -/
theorem not_accounts_up :
    ¬∀ w es, Installed w → Proper es w → Accounts w.us es w := by
  intro h
  have hprop : Proper [.get 0,.free 0 0] (solo { }) := by
    refine ⟨⟨by decide,by decide⟩,?_⟩
    intro w' hw
    cases hw
    refine ⟨List.mem_singleton_self _,?_⟩
    intro w'' hw
    cases hw
  have ⟨w',hw,_,w'',hw',_⟩ := h (solo { }) _ (installed_solo (by decide)) hprop
  cases hw
  cases hw'

end RecycleBin.NgPeer
