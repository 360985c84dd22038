import RecycleBin.AntDnsRecv
import RecycleBin.AntSend

/-! The address a download connects to. `down_add` stores the address of the domain where it is
known, and a pointer to it where it is not, `process_cache_dns` fills it in, and `do_create` reads
it. -/
namespace RecycleBin
namespace AntAddress
open AntHash (Bytes cstr)
open AntVisited (scanAddress skipHead hostPort)
open AntUrl (Text urlToDomain host CapitalS)
open AntDns (DnsResponse ipLen)

/-- What `down->ip` may point to: the array in a `cache_val`, or the variable of `filter_add`, which
is gone when the pointer is read. -/
inductive Pointer
  | cacheVal (domain : Bytes)
  | variable
  deriving DecidableEq

/-- `down_t`; `none` is a NULL `ip`. -/
structure Down where
  url : Bytes
  ip : Option Pointer
  ip2 : ℕ
  port : UInt16
  deriving DecidableEq

/-- An element of a queue, and the URL of the call that put it. -/
structure Queued where
  url : Bytes
  down : Down
  deriving DecidableEq

/-- `struct cache_val`; `none` is a NULL `down`. -/
structure CacheVal where
  flags : ℤ
  ip : List ℕ
  down : Option (List Queued)
  deriving DecidableEq

/-- The table `total->cache_dns`, as a map on its keys, and what was put into `total->down`. -/
structure State where
  cacheDns : Bytes → Option CacheVal
  down : List Queued

def State.init : State := ⟨fun _ => none,[]⟩

/-- The item of `down_add`, where `value` is `*ip`. -/
def downAdd (ip : Pointer) (value : ℕ) (port : UInt16) (url : Bytes) : Down :=
  let port := if port = 0 then hostPort url else port
  if value = 0 then ⟨url,some ip,0,port⟩ else ⟨url,none,value,port⟩

/-- `*val->ip` -/
def CacheVal.first (val : CacheVal) : Except Fault ℕ :=
  match val.ip with
  | a::_ => .ok a
  | [] => .error .undefined

/-- `*(down->ip)` -/
def deref (s : State) : Option Pointer → Except Fault ℕ
  | some (.cacheVal domain) =>
    match s.cacheDns domain with
    | some val => val.first
    | none => .error .undefined
  | some .variable | none => .error .undefined

/-- The address `do_create` picks. -/
def pick (s : State) (d : Down) : Except Fault ℕ :=
  if d.ip2 = 0 then deref s d.ip else .ok d.ip2

/-- `url_add`, with what its array `domain` holds before. -/
def urlAdd (domain url : Bytes) (s : State) : Except Fault State :=
  let item := (AntSend.urls domain).item url
  if (urlToDomain domain url).any (· = 0) then
    match s.cacheDns item.domain with
    | none =>
      let x : Queued := ⟨url,downAdd (.cacheVal item.domain) 0 0 item.url⟩
      let val : CacheVal := ⟨0,List.replicate ipLen 0,some [x]⟩
      .ok { s with cacheDns := Function.update s.cacheDns item.domain (some val) }
    | some val => do
      let value ← val.first
      let x : Queued := ⟨url,downAdd (.cacheVal item.domain) value 0 item.url⟩
      if val.flags = 1 then .ok { s with down := s.down++[x] }
      else
        match val.down with
        | some q =>
          let val := { val with down := some (q++[x]) }
          .ok { s with cacheDns := Function.update s.cacheDns item.domain (some val) }
        | none => .error .undefined
  else .error .undefined

/-- The address and the port that `filter_add` reads from the URL. -/
def literal (url : Bytes) : Option (ℕ × UInt16) :=
  let vs := scanAddress 5 (url.drop (skipHead url))
  let ip := Bytes.ofLe ((vs.take 4).map UInt8.ofNat)
  if vs.length = 4 then some (ip,0)
  else if vs.length = 5 then some (ip,.ofNat (vs.getD 4 0))
  else none

/-- `filter_add` of a URL that was not seen before. -/
def filterAdd (domain url : Bytes) (s : State) : Except Fault State :=
  match literal url with
  | some (ip,port) => .ok { s with down := s.down++[⟨url,downAdd .variable ip port url⟩] }
  | none => urlAdd domain url s

/-- `process_cache_dns` -/
def processCacheDns (response : DnsResponse) (s : State) : Except Fault State :=
  if response.hostName.any (· = 0) then
    match s.cacheDns (cstr response.hostName) with
    | none => .ok s
    | some val =>
      if val.flags = 1 then .ok s
      else if response.flags ≠ 0x8180 then .ok s
      else
        match val.down with
        | some q => .ok ⟨Function.update s.cacheDns (cstr response.hostName) (some ⟨1,response.ip,none⟩),
            s.down++q⟩
        -- `assert(q2 != NULL)` of `queue_join_init`
        | none => .error .panic
  else .error .undefined

/-! ### Runs -/

/-- The array `char domain[512]`. -/
structure Domain where
  bytes : Bytes
  length : bytes.length = 512

/-- A response as `parse_dns_packets` leaves it. -/
structure Response extends DnsResponse where
  nul : 0 ∈ hostName
  ip_length : ip.length = ipLen

inductive Op
  | urlAdd (domain : Domain) (url : Text)
  | filterAdd (domain : Domain) (url : Text)
  | response (r : Response)

def exec : Op → State → Except Fault State
  | .urlAdd domain url, s => urlAdd domain.bytes url.bytes s
  | .filterAdd domain url, s => filterAdd domain.bytes url.bytes s
  | .response r, s => processCacheDns r.toDnsResponse s

def run : List Op → State → Except Fault State
  | [], s => .ok s
  | op::ops, s => exec op s >>= run ops

/-- One of the responses had the address for the domain. -/
def Received (ops : List Op) (domain : Bytes) (a : ℕ) : Prop :=
  ∃ r : Response,.response r ∈ ops ∧ r.flags = 0x8180 ∧ cstr r.hostName = domain ∧ a ∈ r.ip

/-- Every download has an address that is not zero: one received for the host of its URL, or the one
in the URL. -/
def Served (ops : List Op) (s : State) : Prop :=
  ∀ x ∈ s.down,∃ a,pick s x.down = .ok a ∧ a ≠ 0 ∧
    (Received ops (host x.url) a ∨ ∃ port,literal x.url = some (a,port))

/-! ### The condition -/

/-- The array holds the host of the URL: it is written there, or stands there already. -/
def Holds (domain url : Bytes) : Prop :=
  (host url).length ≤ 511 ∧ (host url ≠ [] ∧ ¬CapitalS url ∨ 0 ∈ domain ∧ cstr domain = host url)

/-- What the calls and the responses have to meet. -/
def Admits (s : State) : Op → Prop
  | .urlAdd domain url => Holds domain.bytes url.bytes
  | .filterAdd domain url =>
    match literal url.bytes with
    | some (ip,_) => ip ≠ 0
    | none => Holds domain.bytes url.bytes
  | .response r =>
    ∀ val,s.cacheDns (cstr r.hostName) = some val → val.flags ≠ 1 → r.flags = 0x8180 →
      r.ip.head? ≠ some 0

/-- Every step meets the condition. -/
def Admitted : List Op → State → Prop
  | [], _ => True
  | op::ops, s => Admits s op ∧ ∀ t,exec op s = .ok t → Admitted ops t

/-! ### The responses -/

theorem answersLoop_length {len num : ℕ} {bp : List UInt8} {ip ip' : List ℕ}
    (h : AntDnsRecv.answersLoop len bp num ip = .ok ip') : ip'.length = ip.length := by
  induction len generalizing bp num ip with
  | zero =>
    cases h
    rfl
  | succ len ih =>
    obtain ⟨type,-,h⟩ := bind_eq_ok.mp h
    obtain ⟨ipl,-,h⟩ := bind_eq_ok.mp h
    dsimp only at h
    split_ifs at h
    · obtain ⟨word,-,h⟩ := bind_eq_ok.mp h
      obtain ⟨ip₁,hwrite,h⟩ := bind_eq_ok.mp h
      exact (ih h).trans (Bytes.writeAt_length hwrite)
    · cases h
      rfl
    · exact ih h

/-- What the parser leaves in the zeroed response is a `Response`. -/
theorem exists_response {packet : List UInt8} {r : ℤ × AntDns.DnsHeader × DnsResponse}
    (h : AntDnsRecv.parseDnsPackets packet AntDns.blank = .ok r) :
    ∃ response : Response,response.toDnsResponse = r.2.2 := by
  suffices hr : 0 ∈ r.2.2.hostName ∧ r.2.2.ip.length = ipLen from ⟨⟨r.2.2,hr.1,hr.2⟩,rfl⟩
  obtain ⟨_,-,h⟩ := bind_eq_ok.mp h
  obtain ⟨flags,-,h⟩ := bind_eq_ok.mp h
  obtain ⟨_,-,h⟩ := bind_eq_ok.mp h
  obtain ⟨x,-,h⟩ := bind_eq_ok.mp h
  dsimp only at h
  split_ifs at h with hzero hflags
  · obtain ⟨host,hwrite,h⟩ := bind_eq_ok.mp h
    cases h
    exact ⟨Bytes.mem_writeAt hwrite List.mem_cons_self,rfl⟩
  · obtain ⟨host,hwrite,h⟩ := bind_eq_ok.mp h
    obtain ⟨ip,hip,h⟩ := bind_eq_ok.mp h
    cases h
    exact ⟨Bytes.mem_writeAt hwrite List.mem_cons_self,answersLoop_length hip⟩

/-! ### The domain -/

/-- The domain that is looked up is the host. -/
theorem Holds.domain_eq {domain : Domain} {url : Text} (h : Holds domain.bytes url.bytes) :
    (urlToDomain domain.bytes url.bytes).any (· = 0) = true ∧
      ((AntSend.urls domain.bytes).item url.bytes).domain = host url.bytes := by
  show _ ∧ cstr (urlToDomain domain.bytes url.bytes) = host url.bytes
  obtain ⟨hlen,hwritten⟩ := h
  by_cases hhost : host url.bytes ≠ [] ∧ ¬CapitalS url.bytes
  · obtain ⟨-,hnul,hcstr⟩ :=
      AntUrl.holdsHost_of_host (n := 511) (by decide) hhost.1 hhost.2 domain.bytes domain.length
    rw [List.take_of_length_le hlen] at hcstr
    exact ⟨CString.any_nul hnul,hcstr⟩
  · obtain ⟨hnul,hcstr⟩ := hwritten.resolve_left hhost
    have hempty : AntUrl.hostOf (AntUrl.start url.bytes) = [] := by
      by_cases hcap : CapitalS url.bytes
      · exact AntUrl.hostOf_start_capital hcap
      · rw [AntUrl.hostOf_start hcap]
        by_contra hne
        exact hhost ⟨hne,hcap⟩
    rw [AntUrl.urlToDomain_zero (.inl hempty)]
    exact ⟨CString.any_nul hnul,hcstr⟩

/-! ### The invariant -/

/-- The item is to read the address in the entry of its host. -/
def Waits (domain : Bytes) (x : Queued) : Prop :=
  host x.url = domain ∧ x.down.ip2 = 0 ∧ x.down.ip = some (.cacheVal domain)

/-- An entry has no address yet, and items that wait for it, or one that was received. -/
inductive Entry (ops : List Op) (domain : Bytes) (val : CacheVal) : Prop
  | waiting (q : List Queued) : val.flags ≠ 1 → val.ip = List.replicate ipLen 0 → val.down = some q →
      (∀ x ∈ q,Waits domain x) → Entry ops domain val
  | resolved (a : ℕ) : val.flags = 1 → val.first = .ok a → a ≠ 0 → Received ops domain a →
      Entry ops domain val

structure Inv (ops : List Op) (s : State) : Prop where
  entry : ∀ domain val,s.cacheDns domain = some val → Entry ops domain val
  served : Served ops s

theorem inv_init : Inv [] State.init where
  entry domain val h := by cases h
  served x hx := by cases hx

section Step
variable {ops : List Op} {s t : State}

theorem Received.mono {ops' : List Op} {domain : Bytes} {a : ℕ} (h : Received ops domain a)
    (hsub : ops ⊆ ops') : Received ops' domain a := by
  obtain ⟨r,hr,hflags,hname,ha⟩ := h
  exact ⟨r,hsub hr,hflags,hname,ha⟩

theorem Inv.mono {ops' : List Op} (h : Inv ops s) (hsub : ops ⊆ ops') : Inv ops' s where
  entry domain val hval := by
    cases h.entry domain val hval with
    | waiting q hflags hip hdown hq => exact .waiting q hflags hip hdown hq
    | resolved a hflags hfirst ha hr => exact .resolved a hflags hfirst ha (hr.mono hsub)
  served x hx := by
    obtain ⟨a,hpick,ha,hr⟩ := h.served x hx
    exact ⟨a,hpick,ha,hr.imp_left fun hr => hr.mono hsub⟩

/-- An address that was picked stays, as long as the entries with an address do. -/
theorem Inv.pick_eq (h : Inv ops s)
    (hkeep : ∀ domain val,s.cacheDns domain = some val → val.flags = 1 → t.cacheDns domain = some val)
    {d : Down} {a : ℕ} (hpick : pick s d = .ok a) (ha : a ≠ 0) : pick t d = .ok a := by
  rw [pick] at hpick ⊢
  split_ifs at hpick ⊢ with hip2
  · rcases hip : d.ip with _ | domain | _
    · rw [hip] at hpick
      cases hpick
    · rw [hip,deref] at hpick
      cases hval : s.cacheDns domain with
      | none => rw [hval] at hpick; cases hpick
      | some val =>
        rw [hval] at hpick
        dsimp only at hpick
        cases h.entry domain val hval with
        | waiting q _ hzero _ _ =>
          have hfirst : val.first = .ok 0 := by rw [CacheVal.first,hzero]; rfl
          rw [hfirst] at hpick
          cases hpick
          exact absurd rfl ha
        | resolved b hflags _ _ _ =>
          rw [deref,hkeep domain val hval hflags]
          exact hpick
    · rw [hip] at hpick
      cases hpick
  · exact hpick

/-- An item with a known address. -/
theorem served_append (h : Served ops s) {x : Queued} {a : ℕ} (hpick : pick s x.down = .ok a)
    (ha : a ≠ 0) (hx : Received ops (host x.url) a ∨ ∃ port,literal x.url = some (a,port)) :
    Served ops { s with down := s.down++[x] } := by
  intro y hy
  rcases List.mem_append.mp hy with hy | hy
  · exact h y hy
  · rw [List.mem_singleton.mp hy]
    exact ⟨a,hpick,ha,hx⟩

theorem downAdd_zero (ip : Pointer) (port : UInt16) (url : Bytes) :
    (downAdd ip 0 port url).ip2 = 0 ∧ (downAdd ip 0 port url).ip = some ip := by
  rw [downAdd,if_pos rfl]
  exact ⟨rfl,rfl⟩

theorem pick_downAdd {ip : Pointer} {value : ℕ} (hvalue : value ≠ 0) (port : UInt16) (url : Bytes) :
    pick s (downAdd ip value port url) = .ok value := by
  rw [downAdd,if_neg hvalue,pick,if_neg hvalue]

/-- One entry is written. -/
theorem Inv.entry_update (h : Inv ops s) {domain : Bytes} {val : CacheVal}
    (hval : Entry ops domain val) (d : Bytes) (v : CacheVal)
    (hv : Function.update s.cacheDns domain (some val) d = some v) : Entry ops d v := by
  by_cases hd : d = domain
  · subst hd
    rw [Function.update_self] at hv
    cases hv
    exact hval
  · rw [Function.update_of_ne hd] at hv
    exact h.entry d v hv

/-- Where the entry had no address, what was picked before stays. -/
theorem Inv.served_update (h : Inv ops s) {domain : Bytes} {val : CacheVal}
    (hwait : ∀ v,s.cacheDns domain = some v → v.flags ≠ 1) (l : List Queued) :
    ∀ x ∈ s.down,∃ a,pick ⟨Function.update s.cacheDns domain (some val),l⟩ x.down = .ok a ∧ a ≠ 0 ∧
      (Received ops (host x.url) a ∨ ∃ port,literal x.url = some (a,port)) := by
  intro x hx
  obtain ⟨a,hpick,ha,hr⟩ := h.served x hx
  refine ⟨a,h.pick_eq (fun d v hv hflags => ?_) hpick ha,ha,hr⟩
  have hd : d ≠ domain := fun hd => hwait v (hd ▸ hv) hflags
  exact (Function.update_of_ne hd _ _).trans hv

/-- An entry without an address is made, or gets one more item. -/
theorem Inv.update (h : Inv ops s) {domain : Bytes} {val : CacheVal} (hval : Entry ops domain val)
    (hwait : ∀ v,s.cacheDns domain = some v → v.flags ≠ 1) :
    Inv ops { s with cacheDns := Function.update s.cacheDns domain (some val) } :=
  ⟨h.entry_update hval,h.served_update hwait s.down⟩

/-- `url_add` puts an item that waits, or one that has the address of the entry. -/
theorem Inv.urlAdd (h : Inv ops s) {domain : Domain} {url : Text} (hd : Holds domain.bytes url.bytes) :
    ∃ t,urlAdd domain.bytes url.bytes s = .ok t ∧ Inv ops t := by
  obtain ⟨hnul,hdomain⟩ := hd.domain_eq
  rw [AntAddress.urlAdd]
  dsimp only
  rw [if_pos hnul,hdomain]
  generalize ((AntSend.urls domain.bytes).item url.bytes).url = stored
  obtain ⟨hip2,hip⟩ := downAdd_zero (.cacheVal (host url.bytes)) 0 stored
  cases hval : s.cacheDns (host url.bytes) with
  | none =>
    refine ⟨_,rfl,h.update (.waiting _ (show (0 : ℤ) ≠ 1 by decide) rfl rfl ?_) ?_⟩
    · intro x hx
      rw [List.mem_singleton.mp hx]
      exact ⟨rfl,hip2,hip⟩
    · intro v hv
      rw [hval] at hv
      cases hv
  | some val =>
    cases h.entry _ val hval with
    | waiting q hflags hzero hdown hq =>
      have hfirst : val.first = .ok 0 := by rw [CacheVal.first,hzero]; rfl
      simp only [hfirst,ok_bind,if_neg hflags,hdown]
      refine ⟨_,rfl,h.update (.waiting _ hflags hzero rfl ?_) ?_⟩
      · intro x hx
        rcases List.mem_append.mp hx with hx | hx
        · exact hq x hx
        · rw [List.mem_singleton.mp hx]
          exact ⟨rfl,hip2,hip⟩
      · intro v hv
        rw [hval] at hv
        cases hv
        exact hflags
    | resolved a hflags hfirst ha hr =>
      simp only [hfirst,ok_bind,if_pos hflags]
      exact ⟨_,rfl,h.entry,served_append h.served (pick_downAdd ha 0 stored) ha (.inl hr)⟩

/-- A response moves the items that wait for its addresses. -/
theorem Inv.response (h : Inv ops s) {r : Response} (hr : .response r ∈ ops)
    (hcond : Admits s (.response r)) :
    ∃ t,processCacheDns r.toDnsResponse s = .ok t ∧ Inv ops t := by
  have hnul : r.hostName.any (· = 0) = true := CString.any_nul r.nul
  rw [processCacheDns,if_pos hnul]
  cases hval : s.cacheDns (cstr r.hostName) with
  | none => exact ⟨s,rfl,h⟩
  | some val =>
    dsimp only
    by_cases hflags : val.flags = 1
    · exact ⟨s,if_pos hflags,h⟩
    by_cases hresponse : r.flags = 0x8180
    · rw [if_neg hflags,if_neg (not_not.mpr hresponse)]
      cases h.entry _ val hval with
      | resolved a hone _ _ _ => exact absurd hone hflags
      | waiting q _ _ hdown hq =>
        rw [hdown]
        obtain ⟨a,rest,hip⟩ := List.exists_cons_of_length_pos (r.ip_length ▸ (by decide : 0 < ipLen))
        have ha : a ≠ 0 := by
          rintro rfl
          exact hcond val hval hflags hresponse (by rw [hip]; rfl)
        have hreceived : Received ops (cstr r.hostName) a :=
          ⟨r,hr,hresponse,rfl,by rw [hip]; exact List.mem_cons_self⟩
        have hfirst : CacheVal.first ⟨1,r.ip,none⟩ = .ok a := by rw [CacheVal.first,hip]
        have hwait : ∀ v,s.cacheDns (cstr r.hostName) = some v → v.flags ≠ 1 := fun v hv => by
          rw [hval] at hv
          cases hv
          exact hflags
        refine ⟨_,rfl,h.entry_update (.resolved a rfl hfirst ha hreceived),fun x hx => ?_⟩
        rcases List.mem_append.mp hx with hx | hx
        · exact h.served_update hwait _ x hx
        · obtain ⟨hhost,hip2,hpointer⟩ := hq x hx
          refine ⟨a,?_,ha,.inl (hhost ▸ hreceived)⟩
          rw [pick,if_pos hip2,hpointer,deref]
          dsimp only
          rw [Function.update_self]
          exact hfirst
    · rw [if_neg hflags,if_pos hresponse]
      exact ⟨s,rfl,h⟩

/-- The step lemma. -/
theorem Inv.exec (h : Inv ops s) {op : Op} (hop : Admits s op) :
    ∃ t,exec op s = .ok t ∧ Inv (ops++[op]) t := by
  have h' : Inv (ops++[op]) s := h.mono (List.subset_append_left _ _)
  cases op with
  | urlAdd domain url => exact h'.urlAdd hop
  | response r => exact h'.response (List.mem_append_right _ List.mem_cons_self) hop
  | filterAdd domain url =>
    show ∃ t,filterAdd domain.bytes url.bytes s = .ok t ∧ _
    rw [Admits] at hop
    rw [filterAdd]
    cases hliteral : literal url.bytes with
    | none =>
      rw [hliteral] at hop
      exact h'.urlAdd hop
    | some r =>
      obtain ⟨ip,port⟩ := r
      rw [hliteral] at hop
      exact ⟨_,rfl,h'.entry,served_append h'.served (pick_downAdd hop port url.bytes) hop
        (.inr ⟨port,hliteral⟩)⟩

/-- The run lemma. -/
theorem Inv.run {op : List Op} (h : Inv ops s) (hop : Admitted op s) :
    ∃ t,run op s = .ok t ∧ Inv (ops++op) t := by
  induction op generalizing ops s with
  | nil => exact ⟨s,rfl,by rwa [List.append_nil]⟩
  | cons op rest ih =>
    obtain ⟨t,hexec,ht⟩ := h.exec hop.1
    obtain ⟨u,hrun,hu⟩ := ih ht (hop.2 t hexec)
    refine ⟨u,by rw [AntAddress.run,hexec,ok_bind,hrun],?_⟩
    rwa [List.append_assoc] at hu

theorem Admitted.start {pre : List Op} (h : Admitted ops s) (hpre : pre <+: ops) : Admitted pre s := by
  induction pre generalizing ops s with
  | nil => trivial
  | cons op pre ih =>
    obtain ⟨rest,rfl⟩ := hpre
    exact ⟨h.1,fun t ht => ih (h.2 t ht) (List.prefix_append _ _)⟩

end Step

/-- In a run whose steps all meet the condition, every download has an address after each step. -/
theorem run_served {ops : List Op} (h : Admitted ops State.init) {pre : List Op} (hpre : pre <+: ops) :
    ∃ s,run pre State.init = .ok s ∧ Served pre s := by
  obtain ⟨s,hrun,hs⟩ := inv_init.run (h.start hpre)
  exact ⟨s,hrun,hs.served⟩

def zeros : Domain := ⟨List.replicate 512 0,List.length_replicate⟩

def page : Text := ⟨CString.ascii "a.org",by decide⟩

theorem holds_page : Holds zeros.bytes page.bytes :=
  ⟨by decide,.inl ⟨by decide,fun hcap => absurd hcap.1 (by decide)⟩⟩

/-- A response for `a.org` with these addresses. -/
def answer (ip : List ℕ) (h : ip.length = ipLen) : Response :=
  ⟨⟨CString.ascii "a.org"++[0],ip,0x8180⟩,List.mem_append_right _ List.mem_cons_self,h⟩

theorem admitted_answered : Admitted [.urlAdd zeros page,.response (answer [1,0,0,0] rfl)] State.init :=
  ⟨holds_page,fun _ _ => ⟨fun _ _ _ _ => by decide,fun _ _ => trivial⟩⟩

theorem run_served_answered :
    ∃ s,run [.urlAdd zeros page,.response (answer [1,0,0,0] rfl)] State.init = .ok s ∧
      Served [.urlAdd zeros page,.response (answer [1,0,0,0] rfl)] s :=
  run_served admitted_answered (List.prefix_refl _)

/-- The first URL of a host waits for its address. -/
theorem urlAdd_init {domain : Domain} {url : Text} (h : Holds domain.bytes url.bytes) :
    ∃ x,Waits (host url.bytes) x ∧ urlAdd domain.bytes url.bytes State.init =
      .ok ⟨Function.update (fun _ => none) (host url.bytes)
        (some ⟨0,List.replicate ipLen 0,some [x]⟩),[]⟩ := by
  obtain ⟨hnul,hdomain⟩ := h.domain_eq
  obtain ⟨hip2,hip⟩ := downAdd_zero (.cacheVal (host url.bytes)) 0
    ((AntSend.urls domain.bytes).item url.bytes).url
  refine ⟨⟨url.bytes,_⟩,⟨rfl,hip2,hip⟩,?_⟩
  rw [urlAdd]
  dsimp only
  rw [if_pos hnul,hdomain]
  rfl

/-- A response without an address marks the entry all the same. -/
theorem not_served_unanswered :
    ∃ s,run [.urlAdd zeros page,.response (answer [0,0,0,0] rfl)] State.init = .ok s ∧
      ¬Served [.urlAdd zeros page,.response (answer [0,0,0,0] rfl)] s := by
  obtain ⟨x,⟨-,hip2,hip⟩,hadd⟩ := urlAdd_init holds_page
  have hfirst : exec (.urlAdd zeros page) State.init = _ := hadd
  rw [run,hfirst,ok_bind]
  refine ⟨⟨_,[x]⟩,rfl,fun h => ?_⟩
  obtain ⟨a,hpick,ha,-⟩ := h x List.mem_cons_self
  rw [pick,if_pos hip2,hip] at hpick
  cases hpick
  exact ha rfl

end AntAddress
end RecycleBin
