import RecycleBin.NgSessions
import RecycleBin.NgWeights

/-! The bitmap of tried peers. It is set up from the number of peers, and its words are
then indexed by the numbers of peers of two groups. -/
namespace RecycleBin.NgPeer

/-- `upstreamCreateRoundRobinPeer` for `naddrs` resolved addresses, with the group it makes.
The peers it allocates are never put into the group. -/
def upstreamCreateRoundRobinPeer (data : Data) (host : String) (naddrs : ℕ) :
    Except Fault (ℤ × Data × List UpstreamRRPeers) := do
  match data with
  | .pointer none => .ok (ERROR,data,[])
  | .pointer (some rrp) =>
    let peers : UpstreamRRPeers := { number := naddrs,single := naddrs = 1,name := host,peer := [] }
    if peers.number ≤ 8*8 then
      let tried ← update rrp.tried 0 fun _ => .ok rrp.data
      .ok (OK,.pointer (some { peers := 0,current := none,tried := tried,data := 0 }),[peers])
    else
      let tried := List.replicate ((peers.number+(8*8-1))/(8*8)) 0
      .ok (OK,.pointer (some { rrp with peers := 0,current := none,tried := tried }),[peers])
  | _ => .error .panic

/-- The words the loop of `upstreamGetPeer` looks at, none in a single group. -/
def loopAccesses (peers : UpstreamRRPeers) : List ℕ :=
  if peers.single then [] else (List.range peers.peer.length).map (·/(8*8))

/-- The words of the bitmap that `getFrom` accesses, a loop that panics counted in full. -/
def triedAccesses (rrp : UpstreamRRPeerData) : List UpstreamRRPeers → List ℕ
  | [] => []
  | peers::next => loopAccesses peers++
    match choose rrp peers with
    | .error _ => []
    | .ok (some p,_,_) => if peers.single then [] else [p/(8*8)]
    | .ok (none,rrp,_) =>
      match next with
      | [] => []
      | backup::_ =>
        let n := backup.number+(8*8-1)/(8*8)
        List.range n++
        match clearTried n rrp.tried with
        | .error _ => []
        | .ok tried => triedAccesses { rrp with peers := rrp.peers+1,tried := tried } next

/-- A choice keeps the length of the bitmap; in a group that is not single the word of the
chosen peer is in it. -/
theorem choose_tried {rrp rrp' : UpstreamRRPeerData} {peers : UpstreamRRPeers} {o : Option ℕ}
    {ps : List UpstreamRRPeer} (h : choose rrp peers = .ok (o,rrp',ps)) :
    rrp'.tried.length = rrp.tried.length ∧
      ∀ p, o = some p → peers.single = false → p/(8*8) < rrp.tried.length := by
  cases hs : peers.single with
  | true =>
    rw [choose,hs,if_pos rfl] at h
    obtain ⟨peer,-,h⟩ := bind_eq_ok.mp h
    refine ⟨?_,fun _ _ h => by cases h⟩
    split_ifs at h <;> cases h <;> rfl
  | false =>
    rw [choose,hs,if_neg (by decide),upstreamGetPeer] at h
    obtain ⟨r,-,h⟩ := bind_eq_ok.mp h
    cases hb : r.2.best with
    | none =>
      rw [hb] at h
      cases h
      exact ⟨rfl,fun _ h => by cases h⟩
    | some b =>
      rw [hb] at h
      obtain ⟨word,hword,h⟩ := bind_eq_ok.mp h
      cases h
      refine ⟨List.length_set,fun p hp _ => ?_⟩
      cases hp
      exact (List.getElem?_eq_some_iff.mp (index_eq_ok.mp hword)).1

/-- A cleared bitmap has its length. -/
theorem cleared_length {n : ℕ} {tried : List Word} (h : n ≤ tried.length) :
    (List.replicate n 0++tried.drop n).length = tried.length := by
  rw [List.length_append,List.length_replicate,List.length_drop]
  omega

theorem getFrom_tried_length {groups groups' : List UpstreamRRPeers} {pc pc' : PeerConnection}
    {rrp rrp' : UpstreamRRPeerData} {rc : ℤ} (h : getFrom pc rrp groups = .ok (rc,pc',rrp',groups')) :
    rrp'.tried.length = rrp.tried.length := by
  induction groups generalizing pc rrp rc pc' rrp' groups' with
  | nil => cases h
  | cons peers next ih =>
    simp only [getFrom,bind_eq_ok] at h
    obtain ⟨⟨o,rrp₁,ps⟩,hc,h⟩ := h
    obtain ⟨hlen,-⟩ := choose_tried hc
    cases o with
    | some p =>
      obtain ⟨best,-,h⟩ := bind_eq_ok.mp h
      cases h
      exact hlen
    | none =>
      cases next with
      | nil =>
        cases h
        exact hlen
      | cons backup rest =>
        simp only [bind_eq_ok] at h
        obtain ⟨ws,hws,⟨rc₂,pc₂,rrp₂,next₂⟩,hrun,h⟩ := h
        obtain ⟨hn,rfl⟩ := clearTried_eq_ok.mp hws
        have hrec := (ih hrun).trans ((cleared_length hn).trans hlen)
        dsimp only at h
        split_ifs at h
        all_goals
          cases h
          exact hrec

/-- A bitmap with a word for every 64 peers, and with a word for every peer of a backup, is
large enough. -/
theorem triedAccesses_lt {groups : List UpstreamRRPeers} {rrp : UpstreamRRPeerData}
    (hlen : ∀ g ∈ groups, g.peer.length ≤ 64*rrp.tried.length)
    (hnext : ∀ g ∈ groups.tail, g.number ≤ rrp.tried.length) :
    ∀ k ∈ triedAccesses rrp groups, k < rrp.tried.length := by
  induction groups generalizing rrp with
  | nil => simp [triedAccesses]
  | cons peers next ih =>
    have hloop : ∀ k ∈ loopAccesses peers, k < rrp.tried.length := by
      intro k hk
      have := hlen peers List.mem_cons_self
      rw [loopAccesses] at hk
      split_ifs at hk
      · cases hk
      · obtain ⟨i,hi,rfl⟩ := List.mem_map.mp hk
        have := List.mem_range.mp hi
        omega
    intro k hk
    rw [triedAccesses,List.mem_append] at hk
    rcases hk with hk | hk
    · exact hloop k hk
    · cases hc : choose rrp peers with
      | error e => simp [hc] at hk
      | ok r =>
        obtain ⟨o,rrp₁,ps⟩ := r
        obtain ⟨hlen₁,hword⟩ := choose_tried hc
        simp only [hc] at hk
        cases o with
        | some p =>
          dsimp only at hk
          split_ifs at hk with hs
          · cases hk
          · rw [List.mem_singleton.mp hk]
            exact hword p rfl (by simpa using hs)
        | none =>
          cases next with
          | nil => cases hk
          | cons backup rest =>
            have hclear : backup.number ≤ rrp₁.tried.length := by
              rw [hlen₁]
              exact hnext backup List.mem_cons_self
            have ht := clearTried_eq_ok.mpr ⟨hclear,rfl⟩
            simp only [ht,List.mem_append,List.mem_range] at hk
            rcases hk with hk | hk
            · omega
            · have hsame : (List.replicate backup.number (0 : Word)++
                  rrp₁.tried.drop backup.number).length = rrp.tried.length :=
                (cleared_length hclear).trans hlen₁
              rw [← hsame] at hlen hnext ⊢
              refine ih ?_ ?_ k hk
              · exact fun g hg => hlen g (List.mem_cons_of_mem _ hg)
              · exact fun g hg => hnext g (List.mem_of_mem_tail hg)

/-- A choice that returns has stayed in the bitmap. -/
theorem loopAccesses_lt {rrp : UpstreamRRPeerData} {peers : UpstreamRRPeers}
    {r : Option ℕ × UpstreamRRPeerData × List UpstreamRRPeer} (h : choose rrp peers = .ok r) :
    ∀ k ∈ loopAccesses peers, k < rrp.tried.length := by
  intro k hk
  rw [loopAccesses] at hk
  split_ifs at hk with hs
  · cases hk
  · rw [choose,if_neg hs] at h
    obtain ⟨i,hi,rfl⟩ := List.mem_map.mp hk
    have hi := List.mem_range.mp hi
    obtain ⟨r,hr,-⟩ := bind_eq_ok.mp h
    obtain ⟨b,hb⟩ := filtered_of_scan hr i peers.peer[i] (by simp [hi])
    obtain ⟨word,hword,-⟩ := bind_eq_ok.mp hb
    rw [Nat.zero_add] at hword
    exact (List.getElem?_eq_some_iff.mp (index_eq_ok.mp hword)).1

/-- A choice that stays in the bitmap returns. -/
theorem exists_choose {rrp : UpstreamRRPeerData} {peers : UpstreamRRPeers}
    (hp : peers.single = true → peers.peer ≠ [])
    (h : ∀ k ∈ loopAccesses peers, k < rrp.tried.length) :
    ∃ o rrp' ps, choose rrp peers = .ok (o,rrp',ps) ∧ ∀ p, o = some p → p < ps.length := by
  rw [loopAccesses] at h
  rw [choose]
  split_ifs at h ⊢ with hs
  · obtain ⟨peer,rest,he⟩ := List.exists_cons_of_ne_nil (hp hs)
    have hidx : index peers.peer 0 = .ok peer := index_eq_ok.mpr (by rw [he]; rfl)
    rw [hidx,ok_bind]
    split_ifs
    · exact ⟨none,_,_,rfl,by simp⟩
    · exact ⟨none,_,_,rfl,by simp⟩
    · exact ⟨some 0,_,_,rfl,by simp [he]⟩
  · have hlen : peers.peer.length ≤ 64*rrp.tried.length := by
      by_contra hlt
      have := h ((peers.peer.length-1)/(8*8))
        (List.mem_map_of_mem (List.mem_range.mpr (by omega)))
      omega
    obtain ⟨f,hf⟩ := exists_filtered hlen
    by_cases hsome : ∃ i, i < peers.peer.length ∧ f i = true
    · obtain ⟨i,hi,hfi⟩ := hsome
      obtain ⟨p,word,hchosen,-,hget⟩ := upstreamGetPeer_some hf hi hfi
      refine ⟨_,_,_,hget,fun q hq => ?_⟩
      cases hq
      rw [advance_length]
      exact hchosen.lt
    · have hnone : ∀ i < peers.peer.length, f i = false := by
        intro i hi
        by_contra hfi
        exact hsome ⟨i,hi,by simpa using hfi⟩
      exact ⟨_,_,_,upstreamGetPeer_none hf hnone,by simp⟩

/-- A call that returns has stayed in the bitmap. -/
theorem triedAccesses_lt_of_ok {groups : List UpstreamRRPeers} {pc : PeerConnection}
    {rrp : UpstreamRRPeerData}
    {r : ℤ × PeerConnection × UpstreamRRPeerData × List UpstreamRRPeers}
    (hr : getFrom pc rrp groups = .ok r) : ∀ k ∈ triedAccesses rrp groups, k < rrp.tried.length := by
  induction groups generalizing pc rrp r with
  | nil => simp [triedAccesses]
  | cons peers next ih =>
    simp only [getFrom,bind_eq_ok] at hr
    obtain ⟨⟨o,rrp₁,ps⟩,hc,hr⟩ := hr
    obtain ⟨hlen,hword⟩ := choose_tried hc
    rw [triedAccesses,hc,List.forall_mem_append]
    refine ⟨loopAccesses_lt hc,?_⟩
    cases o with
    | some p =>
      dsimp only
      split_ifs with hs
      · simp
      · simpa using hword p rfl (by simpa using hs)
    | none =>
      cases next with
      | nil => simp
      | cons backup rest =>
        simp only [bind_eq_ok] at hr
        obtain ⟨ws,hws,r₂,hrun,-⟩ := hr
        have hrec := ih hrun
        obtain ⟨hn,rfl⟩ := clearTried_eq_ok.mp hws
        simp only [hws,List.forall_mem_append,List.mem_range]
        rw [cleared_length hn,hlen] at hrec
        exact ⟨fun k hk => by omega,hrec⟩

/-- A call that stays in the bitmap returns. -/
theorem exists_getFrom {groups : List UpstreamRRPeers} (pc : PeerConnection)
    (rrp : UpstreamRRPeerData) (hne : groups ≠ [])
    (hp : ∀ g ∈ groups, g.single = true → g.peer ≠ [])
    (h : ∀ k ∈ triedAccesses rrp groups, k < rrp.tried.length) :
    ∃ r, getFrom pc rrp groups = .ok r := by
  induction groups generalizing pc rrp with
  | nil => exact absurd rfl hne
  | cons peers next ih =>
    rw [triedAccesses,List.forall_mem_append] at h
    obtain ⟨hloop,hrest⟩ := h
    obtain ⟨o,rrp₁,ps,hc,hlt⟩ := exists_choose (hp peers List.mem_cons_self) hloop
    obtain ⟨hlen,-⟩ := choose_tried hc
    rw [hc] at hrest
    rw [getFrom,hc,ok_bind]
    cases o with
    | some p =>
      have hplt := hlt p rfl
      have hidx : index ps p = .ok ps[p] := index_eq_ok.mpr (by simp [hplt])
      exact ⟨_,by dsimp only; rw [hidx,ok_bind]⟩
    | none =>
      cases next with
      | nil => exact ⟨_,rfl⟩
      | cons backup rest =>
        rw [List.forall_mem_append] at hrest
        obtain ⟨hcleared,hrest⟩ := hrest
        have hn : backup.number ≤ rrp₁.tried.length := by
          by_contra hlt
          have := hcleared (backup.number-1) (List.mem_range.mpr (by omega))
          omega
        have ht := clearTried_eq_ok.mpr ⟨hn,rfl⟩
        simp only [ht] at hrest
        rw [← hlen,← cleared_length hn] at hrest
        obtain ⟨⟨rc,pc',rrp₂,next₂⟩,hrun⟩ := ih pc _ (List.cons_ne_nil _ _)
          (fun g hg => hp g (List.mem_cons_of_mem _ hg)) hrest
        dsimp only
        rw [ht,ok_bind,hrun,ok_bind]
        dsimp only
        split_ifs
        · exact ⟨_,rfl⟩
        · exact ⟨_,rfl⟩

/-- A call goes through exactly if all these accesses are within the bitmap. -/
theorem getFrom_ok_iff {groups : List UpstreamRRPeers} (pc : PeerConnection)
    (rrp : UpstreamRRPeerData) (hne : groups ≠ [])
    (hp : ∀ g ∈ groups, g.single = true → g.peer ≠ []) :
    (∃ r, getFrom pc rrp groups = .ok r) ↔
      ∀ k ∈ triedAccesses rrp groups, k < rrp.tried.length :=
  ⟨fun ⟨_,hr⟩ => triedAccesses_lt_of_ok hr,exists_getFrom pc rrp hne hp⟩

/-- A primary group of `P` peers, and a backup group of `B` peers where there is one. -/
structure Shape (P B : ℕ) (us : List UpstreamRRPeers) : Prop where
  numbers : us.map (·.number) = [P,B] ∨ (B = 0 ∧ us.map (·.number) = [P])
  peers : ∀ g ∈ us, g.peer.length ≤ g.number

/-- What setting up a session answers, from `rrp` and for `P` primary and `B` backup peers. -/
inductive SetUp (rrp : UpstreamRRPeerData) : ℕ → ℕ → Except Fault (ℤ × Data) → Prop
  | init {P B us} : Shape P B us →
    SetUp rrp P B (upstreamInitRoundRobinPeer (.pointer (some rrp)) us)
  | create {host naddrs} : SetUp rrp naddrs 0
    ((upstreamCreateRoundRobinPeer (.pointer (some rrp)) host naddrs).map fun r => (r.1,r.2.1))

/-- The number of words the bitmap has once it is set up for `n` peers. -/
def words (rrp : UpstreamRRPeerData) (n : ℕ) : ℕ :=
  if n ≤ 8*8 then rrp.tried.length else (n+(8*8-1))/(8*8)

/-- What both functions do about the bitmap: they write a word that has to be there already,
or make as many as there are peers for. -/
def setUp (rrp : UpstreamRRPeerData) (n : ℕ) : Except Fault (ℤ × Data) :=
  if n ≤ 8*8 then do
    let tried ← update rrp.tried 0 fun _ => .ok rrp.data
    .ok (OK,Data.pointer (some { peers := 0,current := none,tried := tried,data := 0 }))
  else
    .ok (OK,.pointer (some { rrp with
      peers := 0
      current := none
      tried := List.replicate ((n+(8*8-1))/(8*8)) 0 }))

theorem Shape.groups {P B : ℕ} {us : List UpstreamRRPeers} (h : Shape P B us) :
    (∃ peers backup, us = [peers,backup] ∧ peers.number = P ∧ backup.number = B) ∨
      ∃ peers, us = [peers] ∧ peers.number = P ∧ B = 0 := by
  rcases h.numbers with h | ⟨hB,h⟩
  · obtain ⟨peers,rest,rfl,hP,h⟩ := List.map_eq_cons_iff.mp h
    obtain ⟨backup,rest,rfl,hB,h⟩ := List.map_eq_cons_iff.mp h
    obtain rfl := List.map_eq_nil_iff.mp h
    exact .inl ⟨peers,backup,rfl,hP,hB⟩
  · obtain ⟨peers,rest,rfl,hP,h⟩ := List.map_eq_cons_iff.mp h
    obtain rfl := List.map_eq_nil_iff.mp h
    exact .inr ⟨peers,rfl,hP,hB⟩

/-- `upstreamInitRoundRobinPeer` goes by the larger group. -/
theorem SetUp.eq {P B : ℕ} {rrp : UpstreamRRPeerData} {res : Except Fault (ℤ × Data)}
    (h : SetUp rrp P B res) : res = setUp rrp (max P B) := by
  cases h with
  | init hs =>
    rcases hs.groups with ⟨peers,backup,rfl,rfl,rfl⟩ | ⟨peers,rfl,rfl,rfl⟩
    · have hn : max peers.number backup.number =
          if backup.number > peers.number then backup.number else peers.number := by
        split_ifs <;> omega
      rw [hn]
      rfl
    · rw [Nat.max_zero]
      rfl
  | create =>
    rw [Nat.max_zero,upstreamCreateRoundRobinPeer,setUp]
    dsimp only
    split_ifs
    · cases update rrp.tried 0 fun _ => .ok rrp.data <;> rfl
    · rfl

/-- A session is set up unless the word that has to be there is missing. -/
theorem setUp_cases (rrp : UpstreamRRPeerData) (n : ℕ) :
    (setUp rrp n = .error .panic ∧ n ≤ 8*8 ∧ rrp.tried = []) ∨
      ∃ rrp', setUp rrp n = .ok (OK,.pointer (some rrp')) ∧ (n ≤ 8*8 → rrp.tried ≠ []) ∧
        rrp'.peers = 0 ∧ rrp'.tried.length = words rrp n ∧ n ≤ 64*rrp'.tried.length := by
  rw [setUp,words]
  split_ifs with hn
  · cases ht : rrp.tried with
    | nil => exact .inl ⟨by simp [update,index],hn,rfl⟩
    | cons word rest =>
      refine .inr ⟨_,rfl,by simp,rfl,by simp,?_⟩
      simp only [List.set_cons_zero,List.length_cons]
      omega
  · refine .inr ⟨_,rfl,fun h => absurd h hn,rfl,List.length_replicate,?_⟩
    rw [List.length_replicate]
    omega

/-- What the session has after any calls, the groups being in any state at each. -/
inductive Later (P B : ℕ) (rrp : UpstreamRRPeerData) : UpstreamRRPeerData → Prop
  | start : Later P B rrp rrp
  | get {rrp₁ rrp₂ us us' pc pc' rc} : Later P B rrp rrp₁ → Shape P B us →
    upstreamGetRoundRobinPeer pc (.pointer (some rrp₁)) us =
      .ok (rc,pc',.pointer (some rrp₂),us') →
    Later P B rrp rrp₂

/-- No call ever leaves the bitmap. -/
def TriedInRange (P B : ℕ) (rrp : UpstreamRRPeerData) : Prop :=
  ∀ rrp', Later P B rrp rrp' → ∀ us, Shape P B us →
    ∀ k ∈ triedAccesses rrp' (us.drop rrp'.peers), k < rrp'.tried.length

theorem Later.tried_length {P B : ℕ} {rrp rrp' : UpstreamRRPeerData} (h : Later P B rrp rrp') :
    rrp'.tried.length = rrp.tried.length := by
  induction h with
  | start => rfl
  | get _ _ hget ih =>
    rw [← ih]
    simp only [upstreamGetRoundRobinPeer,bind_eq_ok] at hget
    obtain ⟨⟨rc,pc,rrp,groups⟩,hrun,hget⟩ := hget
    cases hget
    exact getFrom_tried_length hrun

/-- The groups of a shape have no more peers than they say. -/
theorem Shape.le {P B : ℕ} {us : List UpstreamRRPeers} (h : Shape P B us) :
    (∀ g ∈ us, g.peer.length ≤ max P B) ∧ ∀ g ∈ us.tail, g.number = B := by
  have hmem : ∀ g ∈ us, g.number ≤ max P B := by
    intro g hg
    have hn := List.mem_map_of_mem (f := UpstreamRRPeers.number) hg
    rcases h.numbers with h | ⟨-,h⟩ <;> rw [h] at hn <;> simp at hn <;> omega
  refine ⟨fun g hg => (h.peers g hg).trans (hmem g hg),fun g hg => ?_⟩
  have hn := List.mem_map_of_mem (f := UpstreamRRPeers.number) hg
  rw [List.map_tail] at hn
  rcases h.numbers with h | ⟨-,h⟩
  · rw [h] at hn
    simpa using hn
  · rw [h] at hn
    cases hn

/-- All primary peers are down. -/
def downShape (P B : ℕ) : List UpstreamRRPeers :=
  [{ number := P,single := false,peer := List.replicate P { down := true } },
    { number := B,single := false,peer := [] }]

theorem shape_downShape (P B : ℕ) : Shape P B (downShape P B) where
  numbers := .inl rfl
  peers := by simp [downShape]

/-- The primary group fails, and the bitmap is cleared for the backups. -/
theorem triedAccesses_downShape {P B : ℕ} {rrp : UpstreamRRPeerData} (h : P ≤ 64*rrp.tried.length)
    {k : ℕ} (hk : k < B) : k ∈ triedAccesses rrp (downShape P B) := by
  have hdry : Dry rrp.tried
      { number := P,single := false,peer := List.replicate P { down := true } } := by
    rw [Dry,if_neg Bool.false_ne_true]
    intro i peer hi
    obtain ⟨hlt,hpeer⟩ := List.getElem?_eq_some_iff.mp hi
    have hw : i/(8*8) < rrp.tried.length := by
      rw [List.length_replicate] at hlt
      omega
    refine ⟨rrp.tried[i/(8*8)],by simp [hw],.inr (.inl ?_)⟩
    rw [← hpeer,List.getElem_replicate]
  have hc := choose_eq_none.mpr ⟨hdry,rfl,rfl⟩
  rw [downShape,triedAccesses,hc]
  refine List.mem_append_right _ (List.mem_append_left _ ?_)
  exact List.mem_range.mpr (by omega)

/-- Setting up the session stays in the bitmap, and so does every later call. -/
structure TriedSafe (P B : ℕ) (res : Except Fault (ℤ × Data)) : Prop where
  setUp : res ≠ .error .panic
  calls : ∀ rrp', res = .ok (OK,.pointer (some rrp')) → TriedInRange P B rrp'

theorem triedInRange_iff {P B : ℕ} {rrp : UpstreamRRPeerData} (h0 : rrp.peers = 0)
    (hsize : max P B ≤ 64*rrp.tried.length) : TriedInRange P B rrp ↔ B ≤ rrp.tried.length := by
  constructor
  · intro hr
    by_contra hB
    have hacc := hr rrp .start (downShape P B) (shape_downShape P B) (B-1)
    rw [h0] at hacc
    have := hacc (triedAccesses_downShape (by omega) (by omega))
    omega
  · intro hB rrp₁ hlater us hshape
    have hsame := hlater.tried_length
    obtain ⟨hpeers,htail⟩ := hshape.le
    refine triedAccesses_lt (fun g hg => ?_) (fun g hg => ?_)
    · have := hpeers g (List.mem_of_mem_drop hg)
      omega
    · rw [List.tail_drop] at hg
      have := htail g (by
        rw [← List.drop_one]
        rw [Nat.add_comm,← List.drop_drop] at hg
        exact List.mem_of_mem_drop hg)
      omega

/-- The bitmap is large enough exactly if the word for up to 64 peers is there and there is a
word for every backup peer. -/
theorem tried_safe_iff (P B : ℕ) (rrp : UpstreamRRPeerData) (res : Except Fault (ℤ × Data))
    (h : SetUp rrp P B res) :
    TriedSafe P B res ↔ (max P B ≤ 8*8 → rrp.tried ≠ []) ∧ B ≤ words rrp (max P B) := by
  rw [h.eq]
  rcases setUp_cases rrp (max P B) with ⟨herr,hn,hnil⟩ | ⟨rrp',hok,hne,h0,hlen,hsize⟩
  · rw [herr]
    exact iff_of_false (fun hs => hs.setUp rfl) fun hc => hc.1 hn hnil
  · rw [hok,← hlen,← triedInRange_iff h0 hsize]
    constructor
    · exact fun hs => ⟨hne,hs.calls rrp' rfl⟩
    · rintro ⟨-,hr⟩
      refine ⟨by simp,fun rrp₁ h₁ => ?_⟩
      cases h₁
      exact hr

/-- Two words are made for 70 peers, which is enough for two backups. -/
theorem tried_safe_iff_seventy :
    TriedSafe 70 2 (upstreamInitRoundRobinPeer (.pointer (some { })) (downShape 70 2)) :=
  (tried_safe_iff 70 2 { } _ (.init (shape_downShape 70 2))).mpr ⟨by decide,by decide⟩

/-- For one primary and two backup peers two words are cleared of a bitmap of one. -/
theorem bitmap_too_small :
    ¬TriedSafe 1 2 (upstreamInitRoundRobinPeer (.pointer (some { tried := [0] })) (downShape 1 2)) := by
  intro h
  have hr := h.calls { tried := [0] } rfl _ .start (downShape 1 2) (shape_downShape 1 2) 1
  exact absurd (hr (by decide)) (by decide)

end RecycleBin.NgPeer
