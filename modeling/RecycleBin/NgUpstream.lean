import RecycleBin.NgPeer

/-! The configuration of an upstream, and how `upstreamInitRoundRobin` makes the groups of
peers of its servers. -/
namespace RecycleBin.NgUpstream
open NgPeer

structure UpstreamServer where
  name : String := ""
  addrs : List String := []
  weight : ℕ := 0
  maxConns : ℕ := 0
  maxFails : ℕ := 0
  failTimeout : ℕ := 0
  down : Bool := false
  backup : Bool := false
  deriving DecidableEq,Repr

/-- `upstreamRRPeer`, with its server's name. -/
structure RRPeer extends UpstreamRRPeer where
  server : String
  deriving DecidableEq,Repr

/-- `upstreamRRPeers`. As in the balancer a group and its backups are a list of groups. -/
structure RRPeers where
  number : ℕ
  totalWeight : ℕ
  single : Bool
  weighted : Bool
  name : String
  peer : List RRPeer
  deriving DecidableEq,Repr

/-- `upstreamSrvConf`. `data` is `peer.data`, a nil interface being none; `SrvConf` is a
reference to a slice of configurations, a nil slice being none. -/
structure UpstreamSrvConf where
  data : Option (List RRPeers) := none
  SrvConf : Option ℕ := none
  servers : List UpstreamServer := []
  Flags : BitVec 64 := 0
  Host : String := ""
  FileName : String := ""
  Line : ℕ := 0
  Port : ℤ := 0
  NoPort : Bool := false
  deriving DecidableEq,Repr

/-- The conversion to `int`, which the sums below wrap around in, and to `uint`. -/
def int (x : ℤ) : ℤ := x.bmod (2^64)
def uint (x : ℤ) : ℕ := (x%2^64).toNat

/-- A counting pass over the primary or the backup servers: their addresses, and the weight
of these. -/
def countPass (backup : Bool) (servers : List UpstreamServer) : ℕ × ℤ :=
  servers.foldl (fun c server =>
    if server.backup ≠ backup then c
    else (c.1+server.addrs.length,int (c.2+server.addrs.length*int server.weight))) (0,0)

def upstreamInitRoundRobin (us : UpstreamSrvConf) : ℤ × UpstreamSrvConf :=
  if us.servers.length > 0 then
    let (n,w) := countPass false us.servers
    if n = 0 then (ERROR,us)
    else
      -- the slice `peer` is filled from the addresses here, but nothing puts it into the group
      let peers : RRPeers := {
        number := n
        totalWeight := uint w
        single := n = 1
        weighted := w ≠ n
        name := us.Host
        peer := [] }
      let (n,_) := countPass true us.servers
      if n = 0 then (OK,{ us with data := some [peers] })
      else
        -- `backup` and its peers are filled as well, and left behind: `peers.next` is not set
        (OK,{ us with data := some [{ peers with single := false }] })
  else if us.Port = 0 then (ERROR,us)
  else
    -- an upstream defined by proxy_pass; its group is not installed
    (OK,us)

/-- The peer of an address of a server. -/
def RRPeer.ofAddr (server : UpstreamServer) (addr : String) : RRPeer where
  name := addr
  weight := int server.weight
  effectiveWeight := int server.weight
  currentWeight := 0
  maxConns := int server.maxConns
  maxFails := int server.maxFails
  failTimeout := int server.failTimeout
  down := server.down
  server := server.name

/-- One peer for each address of the primary or the backup servers, in order. -/
def peersOf (backup : Bool) (servers : List UpstreamServer) : List RRPeer :=
  (servers.filter (·.backup = backup)).flatMap fun server => server.addrs.map (.ofAddr server)

/-- A group has the peers of these servers, and counts them. -/
structure GroupRight (backup : Bool) (servers : List UpstreamServer) (group : RRPeers) : Prop where
  peer : group.peer = peersOf backup servers
  number : group.number = group.peer.length
  totalWeight : (group.totalWeight : ℤ) = (group.peer.map (·.weight)).sum

/-- The groups installed are those of the primary servers and, where these have addresses,
of the backup servers. -/
def InstalledRight (us : UpstreamSrvConf) : Prop :=
  ∃ peers next, us.data = some (peers::next) ∧ GroupRight false us.servers peers ∧
    (next ≠ [] ↔ ∃ server ∈ us.servers, server.backup = true ∧ server.addrs ≠ []) ∧
    ∀ backup, next.head? = some backup → GroupRight true us.servers backup

theorem countPass_append (backup : Bool) (servers : List UpstreamServer) (server : UpstreamServer) :
    countPass backup (servers++[server]) =
      if server.backup ≠ backup then countPass backup servers
      else ((countPass backup servers).1+server.addrs.length,
        int ((countPass backup servers).2+server.addrs.length*int server.weight)) := by
  rw [countPass,List.foldl_concat,countPass]

theorem peersOf_append (backup : Bool) (servers : List UpstreamServer) (server : UpstreamServer) :
    peersOf backup (servers++[server]) =
      if server.backup ≠ backup then peersOf backup servers
      else peersOf backup servers++server.addrs.map (.ofAddr server) := by
  by_cases h : server.backup = backup <;> simp [peersOf,List.filter_append,h]

/-- The count is that of the peers. -/
theorem countPass_fst (backup : Bool) (servers : List UpstreamServer) :
    (countPass backup servers).1 = (peersOf backup servers).length := by
  induction servers using List.reverseRecOn with
  | nil => rfl
  | append_singleton servers server ih =>
    rw [countPass_append,peersOf_append]
    split_ifs
    · exact ih
    · simp [ih]

theorem peersOf_eq_nil (backup : Bool) (servers : List UpstreamServer) :
    peersOf backup servers = [] ↔ ∀ server ∈ servers, server.backup = backup → server.addrs = [] := by
  simp [peersOf,List.flatMap_eq_nil_iff]

/-- For configured servers the call fails if no primary server has an address, and installs
one group without a peer otherwise. -/
theorem upstreamInitRoundRobin_cases {us : UpstreamSrvConf} (hne : us.servers ≠ []) :
    (peersOf false us.servers = [] ∧ upstreamInitRoundRobin us = (ERROR,us)) ∨
      (peersOf false us.servers ≠ [] ∧ ∃ peers : RRPeers, peers.peer = [] ∧
        upstreamInitRoundRobin us = (OK,{ us with data := some [peers] })) := by
  have hn : (countPass false us.servers).1 = 0 ↔ peersOf false us.servers = [] := by
    rw [countPass_fst,List.length_eq_zero_iff]
  rw [upstreamInitRoundRobin,if_pos (List.length_pos_of_ne_nil hne)]
  dsimp only
  split_ifs with h hb
  · exact .inl ⟨hn.mp h,rfl⟩
  · exact .inr ⟨fun hp => h (hn.mpr hp),_,rfl,rfl⟩
  · exact .inr ⟨fun hp => h (hn.mpr hp),_,rfl,rfl⟩

theorem ERROR_ne_OK : ERROR ≠ OK := by decide

/-- The group as the balancer has it. -/
def RRPeers.group (g : RRPeers) : UpstreamRRPeers where
  number := g.number
  single := g.single
  name := g.name
  peer := g.peer.map RRPeer.toUpstreamRRPeer

/-- The balancer never gets a peer of the group that was installed. -/
theorem getFrom_installed {us us' : UpstreamSrvConf} (hne : us.servers ≠ [])
    (h : upstreamInitRoundRobin us = (OK,us')) {groups : List RRPeers}
    (hdata : us'.data = some groups) (pc : PeerConnection) (rrp : UpstreamRRPeerData)
    {r : ℤ × PeerConnection × UpstreamRRPeerData × List UpstreamRRPeers}
    (hr : getFrom pc rrp (groups.map RRPeers.group) = .ok r) : r.1 = BUSY := by
  rcases upstreamInitRoundRobin_cases hne with ⟨-,h'⟩ | ⟨-,peers,hpeer,h'⟩
  · rw [h] at h'
    exact absurd (congrArg Prod.fst h').symm ERROR_ne_OK
  · rw [h] at h'
    cases h'
    cases hdata
    have hnil : peers.group.peer = [] := by rw [RRPeers.group,hpeer]; rfl
    rw [List.map_singleton,getFrom] at hr
    obtain ⟨⟨o,rrp',ps⟩,hc,hr⟩ := bind_eq_ok.mp hr
    rw [choose,hnil] at hc
    split_ifs at hc with hs
    · obtain ⟨peer,hidx,-⟩ := bind_eq_ok.mp hc
      cases hidx
    · cases hc
      cases hr
      rfl

/-- A call for configured servers installs the right groups, where it succeeds, exactly if
no primary server has an address: then it fails. -/
theorem installed_right_iff (us : UpstreamSrvConf) (hne : us.servers ≠ []) :
    (∀ us', upstreamInitRoundRobin us = (OK,us') → InstalledRight us') ↔
      ∀ server ∈ us.servers, server.backup = false → server.addrs = [] := by
  rw [← peersOf_eq_nil]
  rcases upstreamInitRoundRobin_cases hne with ⟨hp,h⟩ | ⟨hp,peers,hpeer,h⟩
  · refine iff_of_true (fun us' h' => ?_) hp
    rw [h] at h'
    exact absurd (congrArg Prod.fst h') ERROR_ne_OK
  · refine iff_of_false (fun hr => ?_) hp
    obtain ⟨peers',next,hdata,hgroup,-⟩ := hr _ h
    cases hdata
    have hright := hgroup.peer
    rw [hpeer] at hright
    exact hp hright.symm

/-- Only a backup server has an address. -/
def backupOnly : UpstreamSrvConf :=
  { servers := [{ name := "a" },{ name := "b",addrs := ["b:1"],backup := true }] }

/-- The call fails. -/
theorem installed_right_iff_backup : backupOnly.servers ≠ [] ∧
    ∀ us', upstreamInitRoundRobin backupOnly = (OK,us') → InstalledRight us' :=
  ⟨by decide,(installed_right_iff backupOnly (by decide)).mpr (by decide)⟩

/-- One primary server with one address: the group installed has no peer. -/
theorem peers_never_linked :
    ¬∀ us', upstreamInitRoundRobin { servers := [{ name := "a",addrs := ["a:1"],weight := 1 }] } =
      (OK,us') → InstalledRight us' := by
  intro h
  obtain ⟨peers,next,hdata,hgroup,-⟩ := h _ rfl
  cases hdata
  exact absurd hgroup.number (by decide)

end RecycleBin.NgUpstream
