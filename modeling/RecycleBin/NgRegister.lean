import RecycleBin.NgUpstream

/-! How the `upstream` blocks of a configuration are registered. Pointers go into the
objects allocated so far; the list of upstreams holds its elements by value. -/
namespace RecycleBin.NgUpstream
open NgPeer

def UPSTREAM_CREATE : BitVec 64 := 0x0001
def UPSTREAM_WEIGHT : BitVec 64 := 0x0002
def UPSTREAM_MAX_FAILS : BitVec 64 := 0x0004
def UPSTREAM_FAIL_TIMEOUT : BitVec 64 := 0x0008
def UPSTREAM_DOWN : BitVec 64 := 0x0010
def UPSTREAM_BACKUP : BitVec 64 := 0x0020
def UPSTREAM_MAX_CONNS : BitVec 64 := 0x0100

/-- `core.URL` without the fields that only `ParseUrl` uses. -/
structure URL where
  Url : String := ""
  Host : String := ""
  Port : ℤ := 0
  NoResolve : Bool := false
  NoPort : Bool := false
  Addrs : List String := []
  Err : String := ""
  deriving DecidableEq,Repr

/-- What an element of a `SrvConf` slice holds: a pointer to an upstream, or the
configuration of another module. -/
inductive Conf
  | upstream (p : ℕ)
  | module (i : ℕ)
  deriving DecidableEq,Repr

/-- What the registration uses: `core.ParseUrl`, `strconv.Atoi` and `core.ParseTime`,
whatever they do, the name of the file, the stream modules that create a server
configuration (their `CtxIndex`, and whether they succeed), the `CtxIndex` of the upstream
module and the length of a `SrvConf` slice. -/
structure Env where
  ParseUrl : URL → ℤ × URL
  Atoi : String → Option ℤ
  ParseTime : String → Bool → ℤ
  fileName : String
  modules : List (ℕ × Bool)
  CtxIndex : ℕ
  srvConfs : ℕ

/-- The objects, the list `umcf.upstreams` and the `SrvConf` slices. -/
structure World where
  objs : List UpstreamSrvConf := []
  upstreams : List UpstreamSrvConf := []
  slices : List (List (Option Conf)) := []
  deriving DecidableEq,Repr

/-- Write to `*p`. -/
def World.write (w : World) (p : ℕ) (f : UpstreamSrvConf → UpstreamSrvConf) : World :=
  { w with objs := w.objs.modify p f }

/-- What the loop of `upstreamAdd` ends with: no entry, an error, or its copy of an entry. -/
inductive Found
  | none
  | error
  | copy (v : UpstreamSrvConf)

def findUpstream (u : URL) (flags : BitVec 64) : List UpstreamSrvConf → Found
  | [] => .none
  | v::rest =>
    if v.Host ≠ u.Host then findUpstream u flags rest
    else if (flags &&& UPSTREAM_CREATE) > 0 ∧ (v.Flags &&& UPSTREAM_CREATE) > 0 then .error
    else if (v.Flags &&& UPSTREAM_CREATE) > 0 ∧ ¬u.NoPort then .error
    else if (flags &&& UPSTREAM_CREATE) > 0 ∧ v.NoPort then .error
    else if v.Port ≠ u.Port then findUpstream u flags rest
    else if (flags &&& UPSTREAM_CREATE) > 0 then .copy { v with Flags := flags }
    else .copy v

def upstreamAdd (env : Env) (w : World) (line : ℕ) (u : URL) (flags : BitVec 64) :
    World × URL × Option ℕ :=
  let (rc,u) := if (flags &&& UPSTREAM_CREATE) = 0 then env.ParseUrl u else (OK,u)
  if rc ≠ OK then (w,u,none)
  else
    match findUpstream u flags w.upstreams with
    | .error => (w,u,none)
    -- the variable of the loop, not the element of the list
    | .copy v => ({ w with objs := w.objs++[v] },u,some w.objs.length)
    | .none =>
      let uscf : UpstreamSrvConf := {
        Flags := flags
        Host := u.Host
        FileName := env.fileName
        Line := line
        Port := u.Port
        NoPort := u.NoPort
        servers := if u.Addrs.length = 1 then [{ addrs := u.Addrs }] else [] }
      -- `append` copies `*uscf` into the list
      ({ w with objs := w.objs++[uscf],upstreams := w.upstreams++[uscf] },u,some w.objs.length)

/-- A `server` directive: the address and the parameters. -/
structure ServerLine where
  url : String
  params : List String
  deriving DecidableEq,Repr

/-- The variables of the loop of `UpstreamServer`. -/
structure Params where
  weight : ℤ := 1
  maxConns : ℤ := 0
  maxFails : ℤ := 1
  failTimeout : ℤ := 10
  backup : Bool := false
  down : Bool := false

/-- The text behind `key`, if there is one. -/
def keyed (key value : String) : Option String :=
  if value.toList.length > key.toList.length ∧ value.toList.take key.toList.length = key.toList then
    some (String.ofList (value.toList.drop key.toList.length))
  else none

def invalid (value : String) : String := "invalid parameter \""++value++"\""

def notSupported (value : String) : String :=
  "balancing method does not support parameter \""++value++"\""

/-- A parameter the balancer has to support. -/
def supported (flags flag : BitVec 64) (value : String) (p : Option Params) : Except String Params :=
  if (flags &&& flag) ≠ flag then .error (notSupported value)
  else
    match p with
    | some p => .ok p
    | none => .error (invalid value)

/-- One round of the loop of `UpstreamServer`. -/
def parseParam (env : Env) (flags : BitVec 64) (p : Params) (value : String) :
    Except String Params :=
  match keyed "weight=" value with
  | some text => supported flags UPSTREAM_WEIGHT value
    ((env.Atoi text).bind fun n => if n = 0 then none else some { p with weight := n })
  | none =>
  match keyed "max_conns=" value with
  | some text => supported flags UPSTREAM_MAX_CONNS value
    ((env.Atoi text).map fun n => { p with maxConns := n })
  | none =>
  match keyed "max_fails=" value with
  | some text => supported flags UPSTREAM_MAX_FAILS value
    ((env.Atoi text).map fun n => { p with maxFails := n })
  | none =>
  match keyed "fail_timeout=" value with
  | some text => supported flags UPSTREAM_FAIL_TIMEOUT value
    (if env.ParseTime text true = ERROR then none
      else some { p with failTimeout := env.ParseTime text true })
  | none =>
    if value = "backup" then supported flags UPSTREAM_BACKUP value (some { p with backup := true })
    else if value = "down" then supported flags UPSTREAM_DOWN value (some { p with down := true })
    else .error (invalid value)

/-- The server that a directive describes. -/
def parseServer (env : Env) (flags : BitVec 64) (line : ServerLine) :
    Except String UpstreamServer := do
  let p ← line.params.foldlM (parseParam env flags) { }
  let (rc,u) := env.ParseUrl { Url := line.url }
  if rc ≠ OK then .error u.Err
  else if u.NoPort then .error ("no port in upstream \""++line.url++"\"")
  else .ok {
    name := u.Url
    addrs := u.Addrs
    weight := uint p.weight
    maxConns := uint p.maxConns
    maxFails := uint p.maxFails
    failTimeout := uint p.failTimeout
    backup := p.backup
    down := p.down }

/-- `UpstreamServer` on the configuration it is given; without a pointer to an upstream there
it panics. -/
def upstreamServer (env : Env) (w : World) (conf : Option Conf) (line : ServerLine) :
    Except String World :=
  match conf with
  | some (.upstream p) =>
    match w.objs[p]? with
    | some uscf => do
      let us ← parseServer env uscf.Flags line
      .ok (w.write p fun uscf => { uscf with servers := uscf.servers++[us] })
    | none => .error "invalid memory address or nil pointer dereference"
  | _ => .error "invalid memory address or nil pointer dereference"

/-- The flags of a block. -/
def blockFlags : BitVec 64 :=
  UPSTREAM_CREATE ||| UPSTREAM_WEIGHT ||| UPSTREAM_MAX_CONNS ||| UPSTREAM_MAX_FAILS |||
    UPSTREAM_FAIL_TIMEOUT ||| UPSTREAM_DOWN ||| UPSTREAM_BACKUP

/-- An `upstream` block. -/
structure Block where
  name : String
  line : ℕ
  servers : List ServerLine
  deriving DecidableEq,Repr

/-- The slice once every module has put its configuration into it. -/
def createSrvConfs (slice : List (Option Conf)) : List (ℕ × Bool) → Except String (List (Option Conf))
  | [] => .ok slice
  | (i,true)::rest => createSrvConfs (slice.set i (some (.module i))) rest
  | (_,false)::_ => .error "module create srv conf fail"

def upstreamCmd (env : Env) (w : World) (block : Block) : Except String World := do
  let u : URL := { Host := block.name,NoResolve := true,NoPort := true }
  match upstreamAdd env w block.line u blockFlags with
  | (_,_,none) => .error "upstream add fail"
  | (w,_,some p) =>
    let slice := (List.replicate env.srvConfs none).set env.CtxIndex (some (.upstream p))
    let w := w.write p fun uscf => { uscf with SrvConf := some w.slices.length }
    let slice ← createSrvConfs slice env.modules
    let w := { w with slices := w.slices++[slice] }
    -- `ConfParse` hands every directive of the block the configuration at its module's index
    let w ← block.servers.foldlM (fun w line => upstreamServer env w (slice[env.CtxIndex]?.join) line) w
    if (w.objs[p]?.map fun uscf => uscf.servers.length) = some 0 then
      .error "no servers are inside upstream"
    else .ok w

/-- The blocks of a configuration, all of them accepted. -/
def runBlocks (env : Env) (blocks : List Block) : Except String World :=
  blocks.foldlM (upstreamCmd env) { }

/-- The list has an entry for every block, with its servers in order and its slice of
configurations; a later lookup finds the entry, and what is written through its pointer is
written to the entry. -/
structure Registered (env : Env) (blocks : List Block) (w : World) : Prop where
  entries : ∀ i block, blocks[i]? = some block → ∃ entry ∈ w.upstreams, entry.Host = block.name ∧
    block.servers.mapM (parseServer env blockFlags) = .ok entry.servers ∧ entry.SrvConf = some i
  lookups : ∀ line u w' u' p, upstreamAdd env w line u 0 = (w',u',some p) →
    ∀ k entry, w.upstreams[k]? = some entry → entry.Host = u'.Host → entry.Port = u'.Port →
    w'.objs[p]? = some entry ∧ ∀ f, (w'.write p f).upstreams = w.upstreams.modify k f

/-- An entry as `upstreamAdd` appends it for a block. -/
structure Bare (entry : UpstreamSrvConf) : Prop where
  servers : entry.servers = []
  SrvConf : entry.SrvConf = none
  Port : entry.Port = 0

@[simp] theorem World.write_upstreams (w : World) (p : ℕ) (f : UpstreamSrvConf → UpstreamSrvConf) :
    (w.write p f).upstreams = w.upstreams := rfl

theorem upstreamServer_upstreams {env : Env} {w w' : World} {conf : Option Conf} {line : ServerLine}
    (h : upstreamServer env w conf line = .ok w') : w'.upstreams = w.upstreams := by
  rcases conf with _ | ⟨p | i⟩
  · cases h
  · rw [upstreamServer] at h
    cases hp : w.objs[p]? with
    | none =>
      rw [hp] at h
      cases h
    | some uscf =>
      rw [hp] at h
      obtain ⟨us,-,h⟩ := bind_eq_ok.mp h
      cases h
      rfl
  · cases h

theorem upstreamServers_upstreams {env : Env} {w w' : World} {conf : Option Conf}
    {lines : List ServerLine}
    (h : lines.foldlM (fun w line => upstreamServer env w conf line) w = .ok w') :
    w'.upstreams = w.upstreams := by
  induction lines generalizing w with
  | nil =>
    cases h
    rfl
  | cons line lines ih =>
    rw [List.foldlM_cons] at h
    obtain ⟨w₁,h₁,h⟩ := bind_eq_ok.mp h
    rw [ih h,upstreamServer_upstreams h₁]

/-- What the list gains from a block is a bare entry. -/
theorem upstreamAdd_bare {env : Env} {w w' : World} {line : ℕ} {u u' : URL} {p : Option ℕ}
    (hu : u.Addrs = []) (hport : u.Port = 0) (h : upstreamAdd env w line u blockFlags = (w',u',p))
    (hw : ∀ entry ∈ w.upstreams, Bare entry) : ∀ entry ∈ w'.upstreams, Bare entry := by
  have hflags : ¬(blockFlags &&& UPSTREAM_CREATE) = 0 := by decide
  rw [upstreamAdd,if_neg hflags] at h
  dsimp only at h
  rw [if_neg (fun h => h rfl)] at h
  split at h
  · cases h
    exact hw
  · cases h
    exact hw
  · cases h
    intro entry he
    rcases List.mem_append.mp he with he | he
    · exact hw entry he
    · rw [List.mem_singleton.mp he]
      exact ⟨by simp [hu],rfl,hport⟩

/-- A block, its servers included, leaves only bare entries in the list. -/
theorem upstreamCmd_bare {env : Env} {w w' : World} {block : Block}
    (h : upstreamCmd env w block = .ok w') (hw : ∀ entry ∈ w.upstreams, Bare entry) :
    ∀ entry ∈ w'.upstreams, Bare entry := by
  rw [upstreamCmd] at h
  split at h
  · cases h
  · rename_i w₁ u₁ p hadd
    obtain ⟨slice,-,h⟩ := bind_eq_ok.mp h
    obtain ⟨w₂,hlines,h⟩ := bind_eq_ok.mp h
    split_ifs at h
    cases h
    have hbare := upstreamAdd_bare rfl rfl hadd hw
    rw [upstreamServers_upstreams hlines]
    exact hbare

theorem runBlocks_bare {env : Env} {blocks : List Block} {w w' : World}
    (h : blocks.foldlM (upstreamCmd env) w = .ok w') (hw : ∀ entry ∈ w.upstreams, Bare entry) :
    ∀ entry ∈ w'.upstreams, Bare entry := by
  induction blocks generalizing w with
  | nil =>
    cases h
    exact hw
  | cons block blocks ih =>
    rw [List.foldlM_cons] at h
    obtain ⟨w₁,h₁,h⟩ := bind_eq_ok.mp h
    exact ih h (upstreamCmd_bare h₁ hw)

/-- What `upstreamInitMainConf` is given: it asserts the main configuration itself, while
`upstreamCreateMainConf` makes a pointer to one. -/
inductive MainConf
  | pointer (upstreams : List UpstreamSrvConf)
  | value (upstreams : List UpstreamSrvConf)

def initUpstreams : List UpstreamSrvConf → ℤ
  | [] => OK
  | us::rest => if (upstreamInitRoundRobin us).1 ≠ OK then ERROR else initUpstreams rest

def upstreamInitMainConf : MainConf → Except Fault ℤ
  | .pointer _ => .error .panic
  | .value upstreams => .ok (initUpstreams upstreams)

theorem upstreamAdd_ne_nil {env : Env} {w w' : World} {line : ℕ} {u u' : URL} {p : ℕ}
    {flags : BitVec 64} (h : upstreamAdd env w line u flags = (w',u',some p)) :
    w'.upstreams ≠ [] := by
  rw [upstreamAdd] at h
  generalize (if (flags &&& UPSTREAM_CREATE) = 0 then env.ParseUrl u else (OK,u)) = r at h
  dsimp only at h
  by_cases hrc : r.1 ≠ OK
  · rw [if_pos hrc] at h
    cases h
  · rw [if_neg hrc] at h
    split at h
    · cases h
    · rename_i v hfind
      cases h
      intro hnil
      rw [show w.upstreams = [] from hnil] at hfind
      cases hfind
    · cases h
      simp

theorem upstreamCmd_ne_nil {env : Env} {w w' : World} {block : Block}
    (h : upstreamCmd env w block = .ok w') : w'.upstreams ≠ [] := by
  rw [upstreamCmd] at h
  split at h
  · cases h
  · rename_i w₁ u₁ p hadd
    obtain ⟨slice,-,h⟩ := bind_eq_ok.mp h
    obtain ⟨w₂,hlines,h⟩ := bind_eq_ok.mp h
    split_ifs at h
    cases h
    have hne := upstreamAdd_ne_nil hadd
    rw [upstreamServers_upstreams hlines]
    exact hne

/-- No balancer is ever made for a configuration with a block. -/
theorem upstreamInitMainConf_error {env : Env} {blocks : List Block} {w : World}
    (h : runBlocks env blocks = .ok w) (hne : blocks ≠ []) :
    upstreamInitMainConf (.value w.upstreams) = .ok ERROR := by
  have hw : w.upstreams ≠ [] := by
    rcases List.eq_nil_or_concat' blocks with rfl | ⟨blocks,block,rfl⟩
    · exact absurd rfl hne
    · rw [runBlocks,List.foldlM_append] at h
      obtain ⟨w₁,-,h⟩ := bind_eq_ok.mp h
      obtain ⟨w₂,h₂,h⟩ := bind_eq_ok.mp h
      cases h
      exact upstreamCmd_ne_nil h₂
  obtain ⟨us,rest,hus⟩ := List.exists_cons_of_ne_nil hw
  have hbare := runBlocks_bare h (by simp) us (by simp [hus])
  have hinit : upstreamInitRoundRobin us = (ERROR,us) := by
    simp [upstreamInitRoundRobin,hbare.servers,hbare.Port]
  rw [upstreamInitMainConf,hus,initUpstreams,hinit,if_pos ERROR_ne_OK]

/-- A sequence of blocks, however long, registers none of them. -/
theorem registered_iff (env : Env) (blocks : List Block) (w : World)
    (h : runBlocks env blocks = .ok w) : Registered env blocks w ↔ blocks = [] := by
  constructor
  · intro hr
    cases blocks with
    | nil => rfl
    | cons block blocks =>
      obtain ⟨entry,hmem,-,-,hslice⟩ := hr.entries 0 block rfl
      have hbare := runBlocks_bare h (by simp) entry hmem
      rw [hbare.SrvConf] at hslice
      cases hslice
  · rintro rfl
    cases h
    exact ⟨by simp,by simp⟩

/-- One block with one server that is written as an address and a port. -/
def oneServer : Block := { name := "u",line := 3,servers := [⟨"10.0.0.1:80",["weight=2"]⟩] }

def oneServerEnv : Env where
  ParseUrl u := if u.Url = "10.0.0.1:80" then
      (OK,{ u with Host := "10.0.0.1",Port := 80,Addrs := ["10.0.0.1:80"] })
    else if u.Url = "u" then (OK,{ u with Host := "u",NoPort := true })
    else (ERROR,u)
  Atoi text := if text = "2" then some 2 else none
  ParseTime _ _ := ERROR
  fileName := "nginx.conf"
  modules := []
  CtxIndex := 0
  srvConfs := 1

theorem registered_iff_two : ∃ w,
    runBlocks oneServerEnv [oneServer,{ oneServer with name := "v" }] = .ok w ∧
      ¬Registered oneServerEnv [oneServer,{ oneServer with name := "v" }] w := by
  obtain ⟨w,h⟩ : ∃ w, runBlocks oneServerEnv [oneServer,{ oneServer with name := "v" }] = .ok w :=
    ⟨_,rfl⟩
  exact ⟨w,h,fun hr => List.cons_ne_nil _ _ ((registered_iff oneServerEnv _ w h).mp hr)⟩

/-- The server went to the object, the entry of the list has none. -/
theorem servers_not_in_list :
    ∃ w, runBlocks oneServerEnv [oneServer] = .ok w ∧ ¬Registered oneServerEnv [oneServer] w := by
  refine ⟨_,rfl,fun hr => ?_⟩
  obtain ⟨entry,hmem,-,-,hslice⟩ := hr.entries 0 oneServer rfl
  rw [List.mem_singleton.mp hmem] at hslice
  cases hslice

end RecycleBin.NgUpstream
