import RecycleBin.NgInet
import RecycleBin.NgParseTime
import RecycleBin.NgRegister

/-! The `server` directive of an upstream, with the functions of the core that it calls. A
string holds a byte per character. -/
namespace RecycleBin
namespace NgServer
open CString (ascii)
open GurlCal (Bytes atoi isDigit)
open NgParse (MAX_INT_T_VALUE Written VisitedSum parseTime)
open NgPeer (OK ERROR)
open NgUpstream

/-- The string of these bytes. -/
def text (s : Bytes) : String := String.ofList (s.map fun b => Char.ofNat b.toNat)

/-- `core.ParseUrl` as the directive calls it. Without `UriPart` it does not panic. -/
def parseUrl (u : URL) : ℤ × URL :=
  match NgInet.parseUrl (.request (ascii u.Url) 0 false false u.NoResolve) with
  | .ok (rc,v) => (rc,{ u with
      Host := text v.Host,Port := v.Port,NoPort := v.NoPort,Addrs := v.Addrs.map text,Err := v.Err })
  | .error _ => (ERROR,u)

/-- The functions that the directive calls. -/
def env : Env where
  ParseUrl := parseUrl
  Atoi t := atoi (ascii t)
  ParseTime t isSec := parseTime (ascii t) isSec
  fileName := ""
  modules := []
  CtxIndex := 0
  srvConfs := 0

/-- `UpstreamServer` on the words of a directive: the message of an error, if there is one,
and the upstream. -/
def upstreamServer (uscf : UpstreamSrvConf) : List String → Except Fault (Option String × UpstreamSrvConf)
  | _::url::params =>
    match parseServer env uscf.Flags ⟨url,params⟩ with
    | .error msg => .ok (some msg,uscf)
    | .ok us => .ok (none,{ uscf with servers := uscf.servers++[us] })
  -- `value[1]`
  | _ => .error .panic

/-! ### What a directive says -/

/-- What stands behind the key, if the parameter begins with it. -/
def behind (key v : String) : Option String := (v.toList.dropPrefix? key.toList).map String.ofList

/-- The values of the key, in order. -/
def given (key : String) (params : List String) : List String := params.filterMap (behind key)

/-- The values of the key are all well formed, and `n` is the last of them, or the default. -/
structure LastGiven (reads : String → ℤ → Prop) (key : String) (absent : ℤ) (params : List String)
    (n : ℤ) : Prop where
  wellFormed : ∀ t ∈ given key params, ∃ m, reads t m
  last : (given key params).getLast?.elim (n = absent) fun t => reads t n

/-- A number that is not negative. -/
def ReadsNumber (t : String) (n : ℤ) : Prop := atoi (ascii t) = some n ∧ 0 ≤ n

/-- A time, in seconds. -/
def ReadsTime (t : String) (n : ℤ) : Prop :=
  ∃ m ≤ MAX_INT_T_VALUE, Written true 0 (ascii t) m ∧ n = m

/-- The server is the one that the parameters describe. -/
structure Described (params : List String) (us : UpstreamServer) : Prop where
  weight : LastGiven ReadsNumber "weight=" 1 params us.weight
  weight_pos : 1 ≤ us.weight
  maxConns : LastGiven ReadsNumber "max_conns=" 0 params us.maxConns
  maxFails : LastGiven ReadsNumber "max_fails=" 1 params us.maxFails
  failTimeout : LastGiven ReadsTime "fail_timeout=" 10 params us.failTimeout
  backup : us.backup = true ↔ "backup" ∈ params
  down : us.down = true ↔ "down" ∈ params

/-- An error leaves the servers alone; otherwise there is one more, as it is described. -/
def Right (uscf : UpstreamSrvConf) (args : List String) : Prop :=
  ∃ err uscf', upstreamServer uscf args = .ok (err,uscf') ∧
    (err ≠ none → uscf' = uscf) ∧
    (err = none → ∃ us, uscf' = { uscf with servers := uscf.servers++[us] } ∧
      Described (args.drop 2) us)

/-! ### The parameters that are taken -/

/-- `ParseTime` takes the text for this time. -/
def TakesTime (t : String) (n : ℤ) : Prop :=
  ∃ m ≤ MAX_INT_T_VALUE, VisitedSum true (ascii t) m ∧ n = m

/-- The parameters that are taken, and what they do. -/
inductive Takes (flags : BitVec 64) : String → (Params → Params) → Prop
  | weight {t : String} {n : ℤ} (hflag : flags &&& UPSTREAM_WEIGHT = UPSTREAM_WEIGHT)
      (ht : atoi (ascii t) = some n) (hn : n ≠ 0) :
      Takes flags ("weight="++t) fun p => { p with weight := n }
  | maxConns {t : String} {n : ℤ} (hflag : flags &&& UPSTREAM_MAX_CONNS = UPSTREAM_MAX_CONNS)
      (ht : atoi (ascii t) = some n) : Takes flags ("max_conns="++t) fun p => { p with maxConns := n }
  | maxFails {t : String} {n : ℤ} (hflag : flags &&& UPSTREAM_MAX_FAILS = UPSTREAM_MAX_FAILS)
      (ht : atoi (ascii t) = some n) : Takes flags ("max_fails="++t) fun p => { p with maxFails := n }
  | failTimeout {t : String} {n : ℤ}
      (hflag : flags &&& UPSTREAM_FAIL_TIMEOUT = UPSTREAM_FAIL_TIMEOUT) (ht : TakesTime t n) :
      Takes flags ("fail_timeout="++t) fun p => { p with failTimeout := n }
  | backup (hflag : flags &&& UPSTREAM_BACKUP = UPSTREAM_BACKUP) :
      Takes flags "backup" fun p => { p with backup := true }
  | down (hflag : flags &&& UPSTREAM_DOWN = UPSTREAM_DOWN) :
      Takes flags "down" fun p => { p with down := true }

/-- The address is one with a port, and the parameters are all taken. -/
structure Accepted (flags : BitVec 64) (url : String) (params : List String) : Prop where
  address : (parseUrl { Url := url }).1 = OK
  port : (parseUrl { Url := url }).2.NoPort = false
  params : ∀ v ∈ params, ∃ f, Takes flags v f

/-- No number is negative, every time is written as one, and the last time is the sum of the
characters that `ParseTime` reads. -/
structure Plain (params : List String) : Prop where
  numbers : ∀ key ∈ ["weight=","max_conns=","max_fails="], ∀ t ∈ given key params, ∀ n,
    atoi (ascii t) = some n → 0 ≤ n
  times : ∀ t ∈ given "fail_timeout=" params, ∃ n, ReadsTime t n
  last : ∀ t ∈ (given "fail_timeout=" params).getLast?, ∃ n, ReadsTime t n ∧ TakesTime t n

theorem parseUrl_ok (url : String) : ∃ rc v, NgInet.parseUrl (.request (ascii url) 0 false false false) =
    .ok (rc,v) := by
  obtain ⟨⟨rc,v⟩,h⟩ := (NgInet.parseUrl_returns_iff (ascii url) 0 false false false).mpr
    fun h => Bool.false_ne_true h.2.1
  exact ⟨rc,v,h⟩

theorem behind_iff {key v t : String} : behind key v = some t ↔ v = key++t := by
  rw [behind,Option.map_eq_some_iff]
  constructor
  · rintro ⟨s,hs,rfl⟩
    obtain ⟨p,hp,hkey⟩ := List.dropPrefix?_eq_some_iff.mp hs
    rw [← String.toList_inj,hp,String.toList_append,String.toList_ofList,LawfulBEq.eq_of_beq hkey]
  · rintro rfl
    refine ⟨t.toList,?_,String.ofList_toList⟩
    rw [String.toList_append]
    exact List.dropPrefix?_append_of_beq _ (BEq.refl _)

def keys : List String := ["weight=","max_conns=","max_fails=","fail_timeout="]

/-- The keys differ in the first five characters. -/
theorem keys_distinct : ∀ key ∈ keys, ∀ key' ∈ keys, key ≠ key' →
    key.toList.take 5 ≠ key'.toList.take 5 ∧ 5 ≤ key.toList.length ∧ 5 ≤ key'.toList.length := by
  decide

theorem behind_other {key key' : String} (h : key ∈ keys) (h' : key' ∈ keys) (hne : key ≠ key')
    (t : String) : behind key (key'++t) = none := by
  obtain ⟨hfive,hlen,hlen'⟩ := keys_distinct key h key' h' hne
  rw [Option.eq_none_iff_forall_ne_some]
  intro s hs
  have heq := congrArg (fun v => v.toList.take 5) (behind_iff.mp hs)
  simp only [String.toList_append,List.take_append_of_le_length hlen,
    List.take_append_of_le_length hlen'] at heq
  exact hfive heq.symm

theorem keyed_iff {key v t : String} : keyed key v = some t ↔ behind key v = some t ∧ t ≠ "" := by
  rw [keyed,behind_iff]
  constructor
  · intro h
    split_ifs at h with hk
    cases h
    refine ⟨?_,?_⟩
    · have hcut := List.take_append_drop key.toList.length v.toList
      rw [hk.2] at hcut
      rw [← String.toList_inj,String.toList_append,String.toList_ofList]
      exact hcut.symm
    · intro hnil
      have hlen := congrArg (fun s => s.toList.length) hnil
      simp only [String.toList_ofList,List.length_drop] at hlen
      have h0 : "".toList.length = 0 := rfl
      omega
  · rintro ⟨rfl,ht⟩
    have hne : t.toList ≠ [] := fun h => ht (String.toList_inj.mp (h.trans rfl))
    have hlen := List.length_pos_of_ne_nil hne
    rw [String.toList_append,List.take_left,List.drop_left,String.ofList_toList,if_pos]
    exact ⟨by rw [List.length_append]; omega,rfl⟩

theorem eq_of_keyed {key v t : String} (h : keyed key v = some t) : v = key++t :=
  behind_iff.mp (keyed_iff.mp h).1

/-- A parameter with a key has no other one. -/
theorem keyed_key {key key' : String} (h : key ∈ keys) (h' : key' ∈ keys) {t : String} (ht : t ≠ "") :
    keyed key (key'++t) = if key = key' then some t else none := by
  split_ifs with hkey
  · subst hkey
    exact keyed_iff.mpr ⟨behind_iff.mpr rfl,ht⟩
  · rw [Option.eq_none_iff_forall_ne_some]
    intro s hs
    have hbehind := (keyed_iff.mp hs).1
    rw [behind_other h h' hkey] at hbehind
    cases hbehind

theorem takesTime_iff {t : String} {n : ℤ} :
    TakesTime t n ↔ parseTime (ascii t) true = n ∧ parseTime (ascii t) true ≠ ERROR := by
  constructor
  · rintro ⟨m,hm,hsum,rfl⟩
    have htime := NgParse.parseTime_eq_natCast.mpr ⟨hsum,hm⟩
    refine ⟨htime,?_⟩
    rw [htime,ERROR]
    omega
  · rintro ⟨rfl,hne⟩
    obtain ⟨m,hm⟩ := (NgParse.parseTime_cases (ascii t) true).resolve_left hne
    obtain ⟨hsum,hle⟩ := NgParse.parseTime_eq_natCast.mp hm
    exact ⟨m,hle,hsum,hm⟩

theorem atoi_ne_empty {t : String} {n : ℤ} (h : atoi (ascii t) = some n) : t ≠ "" := by
  rintro rfl
  cases h

theorem TakesTime.ne_empty {t : String} {n : ℤ} (h : TakesTime t n) : t ≠ "" := by
  rintro rfl
  exact (takesTime_iff.mp h).2 rfl

theorem supported_iff {flags flag : BitVec 64} {v : String} {p : Option Params} {p' : Params} :
    supported flags flag v p = .ok p' ↔ flags &&& flag = flag ∧ p = some p' := by
  unfold supported
  by_cases hflag : flags &&& flag = flag
  · rw [if_neg (not_not.mpr hflag)]
    rcases p with _ | p
    · simp
    · simp [hflag]
  · rw [if_pos hflag]
    simp [hflag]

/-- A round of the loop takes the parameter, if it does not end it. -/
theorem takes_of_parseParam {flags : BitVec 64} {p p' : Params} {v : String}
    (h : parseParam env flags p v = .ok p') : ∃ f, Takes flags v f ∧ f p = p' := by
  unfold parseParam at h
  split at h
  · rename_i t hkey
    obtain rfl := eq_of_keyed hkey
    obtain ⟨hflag,h⟩ := supported_iff.mp h
    obtain ⟨n,hn,h⟩ := Option.bind_eq_some_iff.mp h
    split_ifs at h with h0
    exact ⟨_,.weight hflag hn h0,Option.some.inj h⟩
  split at h
  · rename_i t hkey
    obtain rfl := eq_of_keyed hkey
    obtain ⟨hflag,h⟩ := supported_iff.mp h
    obtain ⟨n,hn,h⟩ := Option.map_eq_some_iff.mp h
    exact ⟨_,.maxConns hflag hn,h⟩
  split at h
  · rename_i t hkey
    obtain rfl := eq_of_keyed hkey
    obtain ⟨hflag,h⟩ := supported_iff.mp h
    obtain ⟨n,hn,h⟩ := Option.map_eq_some_iff.mp h
    exact ⟨_,.maxFails hflag hn,h⟩
  split at h
  · rename_i t hkey
    obtain rfl := eq_of_keyed hkey
    obtain ⟨hflag,h⟩ := supported_iff.mp h
    split_ifs at h with herr
    exact ⟨_,.failTimeout hflag (takesTime_iff.mpr ⟨rfl,herr⟩),Option.some.inj h⟩
  split_ifs at h with hb hd
  · obtain ⟨hflag,hp⟩ := supported_iff.mp h
    subst hb
    exact ⟨_,.backup hflag,Option.some.inj hp⟩
  · obtain ⟨hflag,hp⟩ := supported_iff.mp h
    subst hd
    exact ⟨_,.down hflag,Option.some.inj hp⟩

theorem Takes.parseParam {flags : BitVec 64} {v : String} {f : Params → Params}
    (h : Takes flags v f) (p : Params) : parseParam env flags p v = .ok (f p) := by
  cases h with
  | @weight t n hflag ht hn =>
    have hkeyed : ∀ k ∈ keys, keyed k ("weight="++t) = if k = "weight=" then some t else none :=
      fun k hk => keyed_key hk (by decide) (atoi_ne_empty ht)
    simp only [NgUpstream.parseParam,hkeyed "weight=" (by decide),if_true]
    refine supported_iff.mpr ⟨hflag,?_⟩
    change (atoi (ascii t)).bind _ = _
    rw [ht,Option.bind_some,if_neg hn]
  | @maxConns t n hflag ht =>
    have hkeyed : ∀ k ∈ keys, keyed k ("max_conns="++t) = if k = "max_conns=" then some t else none :=
      fun k hk => keyed_key hk (by decide) (atoi_ne_empty ht)
    simp only [NgUpstream.parseParam,hkeyed "weight=" (by decide),hkeyed "max_conns=" (by decide),
      String.reduceEq,if_true,if_false]
    refine supported_iff.mpr ⟨hflag,?_⟩
    change (atoi (ascii t)).map _ = _
    rw [ht,Option.map_some]
  | @maxFails t n hflag ht =>
    have hkeyed : ∀ k ∈ keys, keyed k ("max_fails="++t) = if k = "max_fails=" then some t else none :=
      fun k hk => keyed_key hk (by decide) (atoi_ne_empty ht)
    simp only [NgUpstream.parseParam,hkeyed "weight=" (by decide),hkeyed "max_conns=" (by decide),
      hkeyed "max_fails=" (by decide),String.reduceEq,if_true,if_false]
    refine supported_iff.mpr ⟨hflag,?_⟩
    change (atoi (ascii t)).map _ = _
    rw [ht,Option.map_some]
  | @failTimeout t n hflag ht =>
    have hkeyed : ∀ k ∈ keys, keyed k ("fail_timeout="++t) = if k = "fail_timeout=" then some t else none :=
      fun k hk => keyed_key hk (by decide) ht.ne_empty
    simp only [NgUpstream.parseParam,hkeyed "weight=" (by decide),hkeyed "max_conns=" (by decide),
      hkeyed "max_fails=" (by decide),hkeyed "fail_timeout=" (by decide),String.reduceEq,if_true,
      if_false]
    refine supported_iff.mpr ⟨hflag,?_⟩
    obtain ⟨htime,herr⟩ := takesTime_iff.mp ht
    change (if parseTime (ascii t) true = ERROR then none else _) = _
    rw [if_neg herr,← htime]
    rfl
  | backup hflag => exact supported_iff.mpr ⟨hflag,rfl⟩
  | down hflag => exact supported_iff.mpr ⟨hflag,rfl⟩

/-! ### The loop -/

namespace LastGiven
variable {reads reads' : String → ℤ → Prop} {key v : String} {absent m n : ℤ} {params : List String}

theorem nil (n : ℤ) : LastGiven reads key n [] n := ⟨by simp [given],rfl⟩

/-- A parameter without the key. -/
theorem other (h : LastGiven reads key absent params n) (hv : behind key v = none) :
    LastGiven reads key absent (params++[v]) n := by
  have heq : given key (params++[v]) = given key params := by
    simp [given,hv]
  exact ⟨by rw [heq]; exact h.wellFormed,by rw [heq]; exact h.last⟩

/-- A parameter with the key. -/
theorem concat {t : String} (h : LastGiven reads key absent params m) (ht : reads t n) :
    LastGiven reads key absent (params++[key++t]) n := by
  have heq : given key (params++[key++t]) = given key params++[t] := by
    simp [given,behind_iff.mpr rfl]
  constructor
  · rw [heq]
    intro s hs
    rcases List.mem_append.mp hs with hs | hs
    · exact h.wellFormed s hs
    · rw [List.mem_singleton.mp hs]
      exact ⟨n,ht⟩
  · rw [heq,List.getLast?_concat]
    exact ht

/-- What is true of the default and of every value. -/
theorem holds (h : LastGiven reads key absent params n) {Q : ℤ → Prop} (habsent : Q absent)
    (hreads : ∀ t n, reads t n → Q n) : Q n := by
  have hlast := h.last
  rcases hg : (given key params).getLast? with _ | t
  · rw [hg,Option.elim_none] at hlast
    rwa [hlast]
  · rw [hg] at hlast
    exact hreads t n hlast

theorem imp (h : LastGiven reads key absent params n)
    (hreads : ∀ t ∈ given key params, ∀ n, reads t n → reads' t n) :
    LastGiven reads' key absent params n := by
  constructor
  · intro t ht
    obtain ⟨m,hm⟩ := h.wellFormed t ht
    exact ⟨m,hreads t ht m hm⟩
  · have hlast := h.last
    rcases hg : (given key params).getLast? with _ | t
    · rwa [hg] at hlast
    · rw [hg] at hlast
      exact hreads t (List.mem_of_getLast? hg) n hlast

end LastGiven

/-- `strconv.Atoi`. -/
def TakesNumber (t : String) (n : ℤ) : Prop := atoi (ascii t) = some n

/-- The variables behind these parameters. -/
structure Parsed (flags : BitVec 64) (params : List String) (p : Params) : Prop where
  taken : ∀ v ∈ params, ∃ f, Takes flags v f
  weight : LastGiven TakesNumber "weight=" 1 params p.weight
  weight_ne : p.weight ≠ 0
  maxConns : LastGiven TakesNumber "max_conns=" 0 params p.maxConns
  maxFails : LastGiven TakesNumber "max_fails=" 1 params p.maxFails
  failTimeout : LastGiven TakesTime "fail_timeout=" 10 params p.failTimeout
  backup : p.backup = true ↔ "backup" ∈ params
  down : p.down = true ↔ "down" ∈ params

theorem Parsed.nil (flags : BitVec 64) : Parsed flags [] { } where
  taken := by simp
  weight := .nil 1
  weight_ne := one_ne_zero
  maxConns := .nil 0
  maxFails := .nil 1
  failTimeout := .nil 10
  backup := by simp
  down := by simp

theorem behind_words : ∀ key ∈ keys, ∀ v ∈ ["backup","down"], behind key v = none := by decide

theorem mem_concat_key {word key t : String} {params : List String} (hkey : key ∈ keys)
    (hw : word ∈ ["backup","down"]) : word ∈ params++[key++t] ↔ word ∈ params := by
  have hne : word ≠ key++t := by
    rintro rfl
    have hnone := behind_words key hkey _ hw
    rw [behind_iff.mpr rfl] at hnone
    cases hnone
  simp [hne]

theorem Parsed.concat {flags : BitVec 64} {params : List String} {p : Params} {v : String}
    {f : Params → Params} (h : Parsed flags params p) (hv : Takes flags v f) :
    Parsed flags (params++[v]) (f p) := by
  have htaken : ∀ w ∈ params++[v], ∃ f, Takes flags w f := by
    intro w hw
    rcases List.mem_append.mp hw with hw | hw
    · exact h.taken w hw
    · rw [List.mem_singleton.mp hw]
      exact ⟨f,hv⟩
  cases hv with
  | @weight t n hflag ht hn => exact {
      taken := htaken
      weight := h.weight.concat ht
      weight_ne := hn
      maxConns := h.maxConns.other (behind_other (by decide) (by decide) (by decide) t)
      maxFails := h.maxFails.other (behind_other (by decide) (by decide) (by decide) t)
      failTimeout := h.failTimeout.other (behind_other (by decide) (by decide) (by decide) t)
      backup := h.backup.trans (mem_concat_key (by decide) (by decide)).symm
      down := h.down.trans (mem_concat_key (by decide) (by decide)).symm }
  | @maxConns t n hflag ht => exact {
      taken := htaken
      weight := h.weight.other (behind_other (by decide) (by decide) (by decide) t)
      weight_ne := h.weight_ne
      maxConns := h.maxConns.concat ht
      maxFails := h.maxFails.other (behind_other (by decide) (by decide) (by decide) t)
      failTimeout := h.failTimeout.other (behind_other (by decide) (by decide) (by decide) t)
      backup := h.backup.trans (mem_concat_key (by decide) (by decide)).symm
      down := h.down.trans (mem_concat_key (by decide) (by decide)).symm }
  | @maxFails t n hflag ht => exact {
      taken := htaken
      weight := h.weight.other (behind_other (by decide) (by decide) (by decide) t)
      weight_ne := h.weight_ne
      maxConns := h.maxConns.other (behind_other (by decide) (by decide) (by decide) t)
      maxFails := h.maxFails.concat ht
      failTimeout := h.failTimeout.other (behind_other (by decide) (by decide) (by decide) t)
      backup := h.backup.trans (mem_concat_key (by decide) (by decide)).symm
      down := h.down.trans (mem_concat_key (by decide) (by decide)).symm }
  | @failTimeout t n hflag ht => exact {
      taken := htaken
      weight := h.weight.other (behind_other (by decide) (by decide) (by decide) t)
      weight_ne := h.weight_ne
      maxConns := h.maxConns.other (behind_other (by decide) (by decide) (by decide) t)
      maxFails := h.maxFails.other (behind_other (by decide) (by decide) (by decide) t)
      failTimeout := h.failTimeout.concat ht
      backup := h.backup.trans (mem_concat_key (by decide) (by decide)).symm
      down := h.down.trans (mem_concat_key (by decide) (by decide)).symm }
  | backup hflag => exact {
      taken := htaken
      weight := h.weight.other (by decide)
      weight_ne := h.weight_ne
      maxConns := h.maxConns.other (by decide)
      maxFails := h.maxFails.other (by decide)
      failTimeout := h.failTimeout.other (by decide)
      backup := by simp
      down := by simp [h.down] }
  | down hflag => exact {
      taken := htaken
      weight := h.weight.other (by decide)
      weight_ne := h.weight_ne
      maxConns := h.maxConns.other (by decide)
      maxFails := h.maxFails.other (by decide)
      failTimeout := h.failTimeout.other (by decide)
      backup := by simp [h.backup]
      down := by simp }

/-- The loop keeps its variables right. -/
theorem parsed_of_loop {flags : BitVec 64} {params : List String} {p : Params}
    (h : params.foldlM (parseParam env flags) { } = .ok p) : Parsed flags params p := by
  induction params using List.reverseRecOn generalizing p with
  | nil =>
    cases h
    exact .nil flags
  | append_singleton params v ih =>
    rw [List.foldlM_append] at h
    obtain ⟨q,hq,h⟩ := bind_eq_ok.mp h
    obtain ⟨p',hv,h⟩ := bind_eq_ok.mp h
    cases h
    obtain ⟨f,hf,rfl⟩ := takes_of_parseParam hv
    exact (ih hq).concat hf

theorem loop_of_taken {flags : BitVec 64} {params : List String}
    (h : ∀ v ∈ params, ∃ f, Takes flags v f) (p : Params) :
    ∃ p', params.foldlM (parseParam env flags) p = .ok p' := by
  induction params generalizing p with
  | nil => exact ⟨p,rfl⟩
  | cons v params ih =>
    obtain ⟨f,hf⟩ := h v List.mem_cons_self
    obtain ⟨p',hp⟩ := ih (fun w hw => h w (List.mem_cons_of_mem _ hw)) (f p)
    refine ⟨p',?_⟩
    rw [List.foldlM_cons,hf.parseParam]
    exact hp

/-- The server that is made of the address and the variables. -/
def serverOf (url : String) (p : Params) : UpstreamServer where
  name := (parseUrl { Url := url }).2.Url
  addrs := (parseUrl { Url := url }).2.Addrs
  weight := uint p.weight
  maxConns := uint p.maxConns
  maxFails := uint p.maxFails
  failTimeout := uint p.failTimeout
  backup := p.backup
  down := p.down

theorem parseServer_ok {flags : BitVec 64} {url : String} {params : List String}
    {us : UpstreamServer} (h : parseServer env flags ⟨url,params⟩ = .ok us) :
    Accepted flags url params ∧ ∃ p, Parsed flags params p ∧ us = serverOf url p := by
  rw [parseServer] at h
  obtain ⟨p,hp,h⟩ := bind_eq_ok.mp h
  have hparsed := parsed_of_loop hp
  change (if (parseUrl { Url := url }).1 ≠ OK then _ else if (parseUrl { Url := url }).2.NoPort then _
    else _) = _ at h
  split_ifs at h with hrc hport
  exact ⟨⟨not_not.mp hrc,Bool.not_eq_true _ ▸ hport,hparsed.taken⟩,p,hparsed,(Except.ok.inj h).symm⟩

theorem Accepted.parseServer {flags : BitVec 64} {url : String} {params : List String}
    (h : Accepted flags url params) : ∃ us, parseServer env flags ⟨url,params⟩ = .ok us := by
  obtain ⟨p,hp⟩ := loop_of_taken h.params { }
  refine ⟨serverOf url p,?_⟩
  rw [NgUpstream.parseServer,hp,ok_bind]
  change (if (parseUrl { Url := url }).1 ≠ OK then _ else if (parseUrl { Url := url }).2.NoPort then _
    else _) = _
  rw [if_neg (not_not.mpr h.address),if_neg (by rw [h.port]; decide)]
  rfl

/-- In the registration of the blocks the upstream is an object. -/
theorem upstreamServer_world {w : World} {p : ℕ} {uscf uscf' : UpstreamSrvConf} {url : String}
    {params : List String} (hp : w.objs[p]? = some uscf) (word : String)
    (h : upstreamServer uscf (word::url::params) = .ok (none,uscf')) :
    NgUpstream.upstreamServer env w (some (.upstream p)) ⟨url,params⟩ =
      .ok (w.write p fun _ => uscf') := by
  rw [upstreamServer] at h
  rw [NgUpstream.upstreamServer,hp]
  dsimp only
  cases hus : parseServer env uscf.Flags ⟨url,params⟩ with
  | error msg =>
    rw [hus] at h
    cases h
  | ok us =>
    rw [hus] at h
    cases h
    have hobjs : w.objs.modify p (fun uscf => { uscf with servers := uscf.servers++[us] }) =
        w.objs.modify p fun _ => { uscf with servers := uscf.servers++[us] } := by
      refine List.ext_getElem? fun i => ?_
      rw [List.getElem?_modify,List.getElem?_modify]
      by_cases hi : p = i
      · rw [← hi,hp]
        rfl
      · simp [hi]
    rw [ok_bind,World.write,World.write,hobjs]

/-! ### The conversion to `uint` -/

theorem uint_of_nonneg {n : ℤ} (h0 : 0 ≤ n) (hlt : n < 2^63) : (uint n : ℤ) = n := by
  rw [uint,Int.toNat_of_nonneg (Int.emod_nonneg n (by decide)),Int.emod_eq_of_lt h0 (by omega)]

theorem TakesNumber.lt {t : String} {n : ℤ} (h : TakesNumber t n) : n < 2^63 := by
  obtain ⟨a,-,rfl⟩ := NgParse.atoi_eq_some h
  exact a.lt_max

theorem TakesTime.bounds {t : String} {n : ℤ} (h : TakesTime t n) : 0 ≤ n ∧ n < 2^63 := by
  obtain ⟨m,hm,-,rfl⟩ := h
  rw [MAX_INT_T_VALUE] at hm
  omega

theorem TakesTime.unique {t : String} {m n : ℤ} (hm : TakesTime t m) (hn : TakesTime t n) : m = n :=
  (takesTime_iff.mp hm).1.symm.trans (takesTime_iff.mp hn).1

/-- Without negative values a number is stored as it is. -/
theorem LastGiven.stored {key : String} {absent n : ℤ} {params : List String}
    (h : LastGiven TakesNumber key absent params n) (habsent : 0 ≤ absent ∧ absent < 2^63)
    (hpos : ∀ t ∈ given key params, ∀ n, atoi (ascii t) = some n → 0 ≤ n) :
    (uint n : ℤ) = n ∧ LastGiven ReadsNumber key absent params n := by
  have hreads : LastGiven ReadsNumber key absent params n :=
    h.imp fun t ht n hn => ⟨hn,hpos t ht n hn⟩
  have hlt : n < 2^63 := h.holds habsent.2 fun t n hn => TakesNumber.lt hn
  have h0 : 0 ≤ n := hreads.holds habsent.1 fun t n hn => hn.2
  exact ⟨uint_of_nonneg h0 hlt,hreads⟩

theorem LastGiven.nonneg {key : String} {absent n : ℤ} {params : List String}
    (h : LastGiven ReadsNumber key absent params n) :
    ∀ t ∈ given key params, ∀ n, atoi (ascii t) = some n → 0 ≤ n := by
  intro t ht n hn
  obtain ⟨m,hm,h0⟩ := h.wellFormed t ht
  rw [hm] at hn
  cases hn
  exact h0

/-- The server is as it is described exactly when the parameters are plain. -/
theorem described_iff {flags : BitVec 64} {url : String} {params : List String} {p : Params}
    (h : Parsed flags params p) : Described params (serverOf url p) ↔ Plain params := by
  have hbounds : 0 ≤ p.failTimeout ∧ p.failTimeout < 2^63 :=
    h.failTimeout.holds (by decide) fun t n hn => hn.bounds
  have hstored : (uint p.failTimeout : ℤ) = p.failTimeout := uint_of_nonneg hbounds.1 hbounds.2
  constructor
  · intro hd
    refine ⟨?_,hd.failTimeout.wellFormed,?_⟩
    · intro key hkey
      fin_cases hkey
      · exact hd.weight.nonneg
      · exact hd.maxConns.nonneg
      · exact hd.maxFails.nonneg
    · intro t ht
      have htakes := h.failTimeout.last
      have hreads := hd.failTimeout.last
      rw [Option.mem_def.mp ht] at htakes hreads
      exact ⟨p.failTimeout,hstored ▸ hreads,htakes⟩
  · intro hp
    obtain ⟨hweight,hw⟩ := h.weight.stored (by decide) (hp.numbers "weight=" (by simp))
    obtain ⟨hmaxConns,hc⟩ := h.maxConns.stored (by decide) (hp.numbers "max_conns=" (by simp))
    obtain ⟨hmaxFails,hf⟩ := h.maxFails.stored (by decide) (hp.numbers "max_fails=" (by simp))
    have hpos : 0 ≤ p.weight := hw.holds (by decide) fun t n hn => hn.2
    have hne := h.weight_ne
    refine ⟨hweight.symm ▸ hw,?_,hmaxConns.symm ▸ hc,hmaxFails.symm ▸ hf,⟨hp.times,?_⟩,h.backup,h.down⟩
    · change 1 ≤ uint p.weight
      omega
    · change (given "fail_timeout=" params).getLast?.elim ((uint p.failTimeout : ℤ) = 10)
        fun t => ReadsTime t (uint p.failTimeout)
      rw [hstored]
      have htakes := h.failTimeout.last
      rcases hg : (given "fail_timeout=" params).getLast? with _ | t
      · rwa [hg] at htakes
      · rw [hg] at htakes
        obtain ⟨n,hreads,hn⟩ := hp.last t hg
        rwa [htakes.unique hn]

/-- `UpstreamServer` does what a directive says exactly when there is an address, and the
directive is not taken or its parameters are plain. -/
theorem upstreamServer_right_iff (uscf : UpstreamSrvConf) (args : List String) :
    Right uscf args ↔ ∃ word url params, args = word::url::params ∧
      (Accepted uscf.Flags url params → Plain params) := by
  constructor
  · rintro ⟨err,uscf',h,-,hok⟩
    rcases args with _ | ⟨word,_ | ⟨url,params⟩⟩
    · cases h
    · cases h
    refine ⟨word,url,params,rfl,fun hacc => ?_⟩
    obtain ⟨us,hus⟩ := hacc.parseServer
    obtain ⟨-,p,hp,rfl⟩ := parseServer_ok hus
    rw [upstreamServer,hus] at h
    cases h
    obtain ⟨us,hservers,hd⟩ := hok rfl
    have heq : us = serverOf url p := by
      have hlist := congrArg UpstreamSrvConf.servers hservers
      exact (List.cons.inj (List.append_cancel_left hlist)).1.symm
    rw [heq] at hd
    exact (described_iff hp).mp hd
  · rintro ⟨word,url,params,rfl,hplain⟩
    rcases hres : parseServer env uscf.Flags ⟨url,params⟩ with msg | us
    · exact ⟨some msg,uscf,by rw [upstreamServer,hres],fun _ => rfl,fun h => by cases h⟩
    · obtain ⟨hacc,p,hp,rfl⟩ := parseServer_ok hres
      exact ⟨none,_,by rw [upstreamServer,hres],fun h => absurd rfl h,
        fun _ => ⟨_,rfl,(described_iff hp).mpr (hplain hacc)⟩⟩

/-- `server localhost:80 weight=-1` -/
theorem not_right_negative :
    ¬Right { Flags := blockFlags } ["server","localhost:80","weight=-1"] := by
  have hweight : ∃ f, Takes blockFlags "weight=-1" f :=
    ⟨_,.weight (t:="-1") (n:=-1) (by decide) rfl (by decide)⟩
  have hacc : Accepted blockFlags "localhost:80" ["weight=-1"] :=
    ⟨rfl,rfl,fun v hv => List.mem_singleton.mp hv ▸ hweight⟩
  obtain ⟨us,hus⟩ := hacc.parseServer
  rintro ⟨err,uscf',h,-,hok⟩
  rw [upstreamServer,hus] at h
  cases h
  obtain ⟨us,-,hd⟩ := hok rfl
  have hneg := hd.weight.nonneg "-1" (by decide) (-1) rfl
  omega

end NgServer
end RecycleBin
