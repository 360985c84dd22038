import RecycleBin.NgListen

/-! Which sequences of `listen` directives have their duplicates detected. -/
namespace RecycleBin
namespace NgListen
open GurlCal (Bytes Literal atoi isDigit)
open GoSlice CString NgInet
open NgParse (ERROR parseTime)

/-- Where a directive listens. -/
inductive Place
  | bare (port : Port)
  | host (host : Host) (port : Port)
  | addr6 (a : Address6) (port : Port)

namespace Place

def text : Place → Bytes
  | bare port => port.num.digits
  | host h port => h.text++58::port.num.digits
  | addr6 a port => text6 a (some port) none

def port : Place → Port
  | bare port => port
  | host _ port => port
  | addr6 _ port => port

/-- A host, an IPv6 address, or for a port alone neither. -/
inductive Name
  | any
  | host (text : Bytes)
  | ip6 (ip : Bytes)

def name : Place → Name
  | bare _ => .any
  | host h _ => .host h.text
  | addr6 a _ => .ip6 a.ip

/-- What `u.Addr` is set to. -/
def addr : Place → Bytes
  | bare port => 58::port.num.digits
  | _ => []

def isAddr6 : Place → Bool
  | addr6 _ _ => true
  | _ => false

/-- Both are a host with a port, or they are the same port alone. -/
def Alike : Place → Place → Prop
  | bare port, bare port' => port.num.digits = port'.num.digits
  | host _ _, host _ _ => True
  | _, _ => False

end Place

/-- A directive whose parameters are accepted. -/
structure Directive where
  place : Place
  params : List Bytes
  accepted : ∀ addr wildcard, ∃ ls, listenParams (.new addr wildcard) params = .ok (ls,none)

def Directive.args (d : Directive) : List Bytes := ascii "listen"::d.place.text::d.params

/-- `coreListen` on a list of directives. -/
def listenAll (ds : List Directive) : Except Fault (List (Option ListenError) × List StreamListen) :=
  runs (fun (d : Directive) listen => coreListen listen d.args) ds []

/-- The results keep `u.Addr` and the type of the listener. -/
def Keeps (ls : StreamListen) (r : Except Fault Result) : Prop :=
  ∀ p, r = .ok p → p.1.addr = ls.addr ∧ p.1.sockType = ls.sockType

theorem keeps_bind {β : Type} {ls : StreamListen} {x : Except Fault β} {f : β → Except Fault Result}
    (h : ∀ b, Keeps ls (f b)) : Keeps ls (x >>= f) := by
  intro p hp
  obtain ⟨b,-,hb⟩ := bind_eq_ok.mp hp
  exact h b p hb

theorem keeps_ok {ls ls' : StreamListen} (h : ls'.addr = ls.addr) (ht : ls'.sockType = ls.sockType)
    (e : Option ListenError) : Keeps ls (.ok (ls',e)) := by
  intro p hp
  cases hp
  exact ⟨h,ht⟩

theorem Keeps.trans {ls ls' : StreamListen} {r : Except Fault Result} (h : Keeps ls' r)
    (ha : ls'.addr = ls.addr) (ht : ls'.sockType = ls.sockType) : Keeps ls r := by
  intro p hp
  exact ⟨(h p hp).1.trans ha,(h p hp).2.trans ht⟩

section Keeps
variable (ls : StreamListen) (value : Bytes)

theorem keeps_invalid : Keeps ls (invalidKeepalive ls value) :=
  keeps_bind fun s => keeps_ok rfl rfl (some (.soKeepalive s))

theorem keeps_done : Keeps ls (keepaliveDone ls value) := by
  rw [keepaliveDone]
  split_ifs
  · exact keeps_invalid ls value
  · exact keeps_ok rfl rfl none

theorem keeps_cnt (spos p : ℤ) : Keeps ls (keepaliveCnt ls value spos p) := by
  rw [keepaliveCnt]
  refine keeps_bind fun s => ?_
  split_ifs
  · exact (keeps_invalid _ value).trans rfl rfl
  · exact (keeps_done _ value).trans rfl rfl
  · exact keeps_done ls value

theorem keeps_intvl (p : ℤ) : Keeps ls (keepaliveIntvl ls value p) := by
  rw [keepaliveIntvl]
  generalize (if p < value.length then p+1 else (value.length : ℤ)) = spos
  refine keeps_bind fun s => ?_
  dsimp only
  split_ifs
  · refine keeps_bind fun t => ?_
    split_ifs
    · exact (keeps_invalid _ value).trans rfl rfl
    · exact (keeps_cnt _ value _ _).trans rfl rfl
  · exact keeps_cnt ls value _ _

theorem keeps_soKeepalive : Keeps ls (soKeepalive ls value) := by
  rw [soKeepalive]
  refine keeps_bind fun s => ?_
  split_ifs
  · exact keeps_ok rfl rfl none
  · exact keeps_ok rfl rfl none
  rw [keepaliveIdle]
  refine keeps_bind fun s => ?_
  dsimp only
  split_ifs
  · refine keeps_bind fun t => ?_
    split_ifs
    · exact (keeps_invalid _ value).trans rfl rfl
    · exact (keeps_intvl _ value _).trans rfl rfl
  · exact keeps_intvl ls value _

theorem keeps_param : Keeps ls (listenParam ls value) := by
  unfold listenParam
  split
  · exact keeps_ok rfl rfl none
  split
  · exact keeps_ok rfl rfl _
  split
  · split_ifs
    · exact keeps_ok rfl rfl none
    · exact keeps_ok rfl rfl none
    · exact keeps_ok rfl rfl _
  · split_ifs
    · exact keeps_ok rfl rfl none
    · exact keeps_ok rfl rfl none
    · exact keeps_soKeepalive ls value
    · exact keeps_ok rfl rfl none
    · exact keeps_ok rfl rfl _

theorem keeps_params (values : List Bytes) : Keeps ls (listenParams ls values) := by
  induction values generalizing ls with
  | nil => exact keeps_ok rfl rfl none
  | cons value values ih =>
    intro p hp
    rw [listenParams] at hp
    obtain ⟨r,hr,hp⟩ := bind_eq_ok.mp hp
    have hfirst := keeps_param ls value r hr
    split_ifs at hp
    · cases hp
      exact hfirst
    · exact (ih r.1).trans hfirst.1 hfirst.2 p hp

end Keeps

/-! ### One directive -/

/-- A host named `unix` is a socket whose path is the port. -/
theorem parseUrl_unix (h : Host) (p : Port) (hunix : isUnix (h.text++[58]) = true) :
    ∃ u, parseUrl (.request (h.text++58::p.num.digits) 0 true false false) = .ok (OK,u) ∧
      u.Addr = [] ∧ u.Url = h.text++58::p.num.digits := by
  generalize hu : URL.request (h.text++58::p.num.digits) 0 true false false = u
  have hurl : u.Url = (h.text++[58])++p.num.digits := by rw [← hu]; simp [URL.request]
  have hscheme : isUnix u.Url = true := by
    rw [hurl]
    exact isUnix_append hunix _
  have hword := isUnix_length hunix
  have hdigits := List.length_pos_of_ne_nil p.num.ne_nil
  have hlen : 5 < u.Url.length := by
    rw [hurl,List.length_append]
    omega
  have hpart : ¬u.UriPart = true := by rw [← hu]; exact Bool.false_ne_true
  have hslice : sliceFrom u.Url 5 = .ok (u.Url.drop 5) := sliceFrom_ok (by omega) (by omega)
  have haddr : u.Addr = [] := by rw [← hu]; rfl
  rw [parseUrl,if_pos hscheme,parseUnixDomainUrl,unixUri,if_neg hpart,pure_bind]
  dsimp only
  rw [if_neg (by omega),hslice]
  exact ⟨_,rfl,haddr,by rw [← hu]; rfl⟩

/-- A host with a port has no `u.Addr`, a port alone has its text. -/
theorem parseUrl_place {d : Place} (h6 : d.isAddr6 = false) :
    ∃ u, parseUrl { Url := d.text,Listen := true } = .ok (OK,u) ∧ u.Addr = d.addr ∧ u.Url = d.text := by
  cases d with
  | addr6 a p => cases h6
  | bare p => exact ⟨_,parseUrl_bare p 0 false false,rfl,rfl⟩
  | host h p =>
    cases hunix : isUnix (h.text++[58]) with
    | true => exact parseUrl_unix h p hunix
    | false =>
      obtain ⟨wildcard,addrs,family,hok⟩ := parseUrl_port h p 0 true false false hunix
      rw [text_port] at hok
      exact ⟨_,hok,rfl,rfl⟩

/-- An address in brackets is an invalid host. -/
theorem parseUrl_addr6 {d : Place} (h6 : d.isAddr6 = true) :
    ∃ u, parseUrl { Url := d.text,Listen := true } = .ok (ERROR,u) ∧ u.Err = "invalid host" := by
  cases d with
  | bare p => cases h6
  | host h p => cases h6
  | addr6 a p =>
    generalize hu : ({ Url := text6 a (some p) none,Listen := true } : URL) = u
    have hurl : u.Url = 91::(a.text++93::58::p.num.digits) := by rw [← hu]; simp [text6,portText]
    have hslash : 47 ∉ 93::58::p.num.digits := by simp [p.notMem (b:=47) rfl]
    have helem : elem u.Url ((a.text.length : ℤ)+1) = .ok 93 := by
      rw [hurl,← List.cons_append]
      exact elem_append (by simp)
    have hlen : (a.text.length : ℤ)+1 < u.Url.length := by
      rw [hurl,List.length_cons,List.length_append,List.length_cons]
      omega
    have htext : u.Url = text6 a (some p) none := by rw [← hu]
    have hparse : parseUrl u = u.fail "invalid host" := by
      rw [parseUrl_text6 htext,parseInet6Url_eq hurl (parseIP_bracket a.parses),index_of_notMem hslash,if_neg (by omega),
        inet6Port,if_pos hlen,helem,ok_bind,if_pos (by decide)]
    exact ⟨_,by rw [Place.text,hu]; exact hparse,rfl⟩

/-- What one directive adds to the addresses of the listeners. -/
def listenSpec (d : Directive) (addrs : List Bytes) : Option ListenError × List Bytes :=
  if d.place.isAddr6 then (some (.url "invalid host"),addrs)
  else (if addrs.any fun a => a = d.place.addr then some (.duplicate d.place.text) else none,
    addrs++[d.place.addr])

theorem any_addr {a : Bytes} {addrs : List Bytes} : (addrs.any fun b => b = a) = true ↔ a ∈ addrs := by
  simp

/-- The list of the listeners has these addresses. -/
def Listed (listen : List StreamListen) (addrs : List Bytes) : Prop :=
  listen.map (fun ls => ls.addr) = addrs ∧ ∀ ls ∈ listen, ls.sockType = SOCK_STREAM

theorem coreListen_refines :
    Refines (fun (d : Directive) listen => coreListen listen d.args) listenSpec (fun _ _ => True) Listed := by
  intro d listen addrs hl _
  have hurl : elem d.args 1 = .ok d.place.text := rfl
  have hdrop : d.args.drop 2 = d.params := rfl
  dsimp only
  rw [coreListen,hurl,ok_bind,listenSpec,hdrop]
  cases h6 : d.place.isAddr6 with
  | true =>
    obtain ⟨u,hu,herr⟩ := parseUrl_addr6 h6
    rw [hu,ok_bind,if_pos rfl]
    dsimp only
    rw [if_pos (by decide),herr]
    exact ⟨listen,rfl,hl⟩
  | false =>
    obtain ⟨u,hu,haddr,htext⟩ := parseUrl_place h6
    obtain ⟨ls,hls⟩ := d.accepted u.Addr u.Wildcard
    obtain ⟨ha,ht⟩ := keeps_params _ _ _ hls
    have hsame : ls.addr = d.place.addr := ha.trans haddr
    have hnew : Listed (listen++[ls]) (addrs++[d.place.addr]) := by
      constructor
      · rw [List.map_append,hl.1,List.map_singleton,hsame]
      · intro l hl'
        rcases List.mem_append.mp hl' with hl' | hl'
        · exact hl.2 l hl'
        · rw [List.mem_singleton.mp hl']
          exact ht
    have hany : (listen.any fun l => l.sockType = ls.sockType ∧ l.addr = ls.addr) = true ↔
        d.place.addr ∈ addrs := by
      rw [List.any_eq_true,← hl.1,List.mem_map]
      constructor
      · rintro ⟨l,hmem,hl'⟩
        exact ⟨l,hmem,(decide_eq_true_iff.mp hl').2.trans hsame⟩
      · rintro ⟨l,hmem,hl'⟩
        exact ⟨l,hmem,decide_eq_true ⟨(hl.2 l hmem).trans ht.symm,hl'.trans hsame.symm⟩⟩
    rw [if_neg Bool.false_ne_true,hu,ok_bind]
    dsimp only
    rw [if_neg (not_not.mpr rfl),hls,ok_bind]
    dsimp only
    rw [if_neg (by simp)]
    by_cases hdup : d.place.addr ∈ addrs
    · rw [if_pos (hany.mpr hdup),if_pos (any_addr.mpr hdup),htext]
      exact ⟨_,rfl,hnew⟩
    · rw [if_neg (mt hany.mp hdup),if_neg (mt any_addr.mp hdup)]
      exact ⟨_,rfl,hnew⟩

/-! ### Which lists of directives are told apart -/

/-- `return core.ERROR` for a duplicate. -/
def IsDuplicate (e : Option ListenError) : Prop := ∃ url, e = some (.duplicate url)

section Told
variable {A : Type*}

/-- The address and the port of a directive; which names are one address is left open. -/
def endpoint (address : Place.Name → A) (d : Directive) : A × ℤ :=
  (address d.place.name,d.place.port.num.val)

/-- Every directive is accepted or a duplicate, and it is a duplicate exactly if an earlier one
with its address and port was accepted. -/
def Detects (address : Place.Name → A) (ds : List Directive) : Prop :=
  ∃ (es : List (Option ListenError)) (listen : List StreamListen), listenAll ds = .ok (es,listen) ∧
    ∀ (i : ℕ) d, ds[i]? = some d → ∃ e, es[i]? = some e ∧ (e = none ∨ IsDuplicate e) ∧
      (IsDuplicate e ↔ ∃ j < i, ∃ d', ds[j]? = some d' ∧ es[j]? = some none ∧
        endpoint address d' = endpoint address d)

/-- No directive is for an IPv6 address, and one is written like an earlier one exactly if it
has the address and port of an earlier one. -/
structure Told (address : Place.Name → A) (ds : List Directive) : Prop where
  no6 : ∀ d ∈ ds, d.place.isAddr6 = false
  told : ∀ (i : ℕ) d, ds[i]? = some d → ((∃ d' ∈ ds.take i, d'.place.Alike d.place) ↔
    ∃ d' ∈ ds.take i, endpoint address d' = endpoint address d)

theorem mem_take_iff {α : Type*} {l : List α} {a : α} {i : ℕ} :
    a ∈ l.take i ↔ ∃ j < i, l[j]? = some a := by
  rw [List.mem_iff_getElem?]
  refine exists_congr fun j => ?_
  rw [List.getElem?_take]
  split_ifs with h <;> simp [h]

theorem Place.addr_eq_iff {p q : Place} (hp : p.isAddr6 = false) (hq : q.isAddr6 = false) :
    p.addr = q.addr ↔ p.Alike q := by
  cases p with
  | addr6 => cases hp
  | bare p =>
    cases q with
    | addr6 => cases hq
    | bare q => exact List.cons.injEq _ _ _ _ ▸ and_iff_right rfl
    | host h q => exact iff_of_false (List.cons_ne_nil _ _) id
  | host h p =>
    cases q with
    | addr6 => cases hq
    | bare q => exact iff_of_false (List.cons_ne_nil _ _).symm id
    | host h' q => exact iff_of_true rfl trivial

/-- The verdict on a directive behind these. -/
def verdict (earlier : List Directive) (d : Directive) : Option ListenError :=
  (listenSpec d ((earlier.filter fun d => !d.place.isAddr6).map fun d => d.place.addr)).1

theorem replay_listen (ds : List Directive) (addrs : List Bytes) {i : ℕ} {d : Directive}
    (h : ds[i]? = some d) :
    (replay listenSpec ds addrs).1[i]? = some (listenSpec d
      (addrs++((ds.take i).filter fun d => !d.place.isAddr6).map fun d => d.place.addr)).1 := by
  induction ds generalizing addrs i with
  | nil => cases h
  | cons c ds ih =>
    rw [replay]
    rcases i with _ | i
    · cases h
      simp
    · have hi := ih (listenSpec c addrs).2 h
      rw [List.getElem?_cons_succ,hi,listenSpec.eq_def c]
      cases h6 : c.place.isAddr6 with
      | true => simp [h6]
      | false => simp [h6]

/-- The run gives every directive its verdict. -/
theorem listenAll_eq (ds : List Directive) : ∃ (es : List (Option ListenError))
    (listen : List StreamListen), listenAll ds = .ok (es,listen) ∧
      ∀ (i : ℕ) d, ds[i]? = some d → es[i]? = some (verdict (ds.take i) d) := by
  obtain ⟨listen,hrun,-⟩ := coreListen_refines.runs ds [] [] ⟨rfl,by simp⟩ (legalRun_true ds [])
  exact ⟨_,listen,hrun,fun i d hd => replay_listen ds [] hd⟩

theorem verdict_addr6 {d : Directive} (h : d.place.isAddr6 = true) (earlier : List Directive) :
    ¬(verdict earlier d = none ∨ IsDuplicate (verdict earlier d)) := by
  rw [verdict,listenSpec,if_pos h]
  rintro (h | ⟨url,h⟩)
  · cases h
  · cases h

/-- Without IPv6 addresses a directive is a duplicate if an earlier one is written alike. -/
theorem verdict_plain {d : Directive} (h : d.place.isAddr6 = false) {earlier : List Directive}
    (he : ∀ d' ∈ earlier, d'.place.isAddr6 = false) :
    (verdict earlier d = none ∨ IsDuplicate (verdict earlier d)) ∧
      (IsDuplicate (verdict earlier d) ↔ ∃ d' ∈ earlier, d'.place.Alike d.place) := by
  have hmem : d.place.addr ∈ (earlier.filter fun d => !d.place.isAddr6).map (fun d => d.place.addr) ↔
      ∃ d' ∈ earlier, d'.place.Alike d.place := by
    have hall : (earlier.filter fun d => !d.place.isAddr6) = earlier := by
      rw [List.filter_eq_self]
      intro d' hd'
      rw [he d' hd']
      rfl
    rw [hall,List.mem_map]
    refine exists_congr fun d' => and_congr_right fun hd' => ?_
    exact Place.addr_eq_iff (he d' hd') h
  rw [verdict,listenSpec,if_neg (by rw [h]; exact Bool.false_ne_true)]
  by_cases hdup : d.place.addr ∈ (earlier.filter fun d => !d.place.isAddr6).map fun d => d.place.addr
  · rw [if_pos (any_addr.mpr hdup)]
    exact ⟨.inr ⟨_,rfl⟩,iff_of_true ⟨_,rfl⟩ (hmem.mp hdup)⟩
  · rw [if_neg (mt any_addr.mp hdup)]
    refine ⟨.inl rfl,iff_of_false ?_ (mt hmem.mpr hdup)⟩
    rintro ⟨url,hu⟩
    cases hu

theorem verdict_at {ds : List Directive} (h : ∀ d ∈ ds, d.place.isAddr6 = false) {i : ℕ}
    {d : Directive} (hd : ds[i]? = some d) :
    (verdict (ds.take i) d = none ∨ IsDuplicate (verdict (ds.take i) d)) ∧
      (IsDuplicate (verdict (ds.take i) d) ↔ ∃ d' ∈ ds.take i, d'.place.Alike d.place) :=
  verdict_plain (h d (List.mem_of_getElem? hd)) fun d' hd' => h d' (List.mem_of_mem_take hd')

theorem Detects.told {address : Place.Name → A} {ds : List Directive} (h : Detects address ds) :
    Told address ds := by
  obtain ⟨es,listen,hrun,hes⟩ := listenAll_eq ds
  obtain ⟨es',listen',hrun',h⟩ := h
  rw [hrun] at hrun'
  cases hrun'
  have hno6 : ∀ d ∈ ds, d.place.isAddr6 = false := by
    intro d hd
    rw [Bool.eq_false_iff]
    intro h6
    obtain ⟨i,hi⟩ := List.getElem?_of_mem hd
    obtain ⟨e,he,hok,-⟩ := h i d hi
    rw [hes i d hi] at he
    cases he
    exact verdict_addr6 h6 _ hok
  refine ⟨hno6,fun i d hd => ?_⟩
  obtain ⟨e,he,-,hdup⟩ := h i d hd
  rw [hes i d hd] at he
  cases he
  rw [← (verdict_at hno6 hd).2,hdup]
  constructor
  · rintro ⟨j,hj,d',hd',-,hsame⟩
    exact ⟨d',mem_take_iff.mpr ⟨j,hj,hd'⟩,hsame⟩
  · rintro ⟨d',hmem,hsame⟩
    obtain ⟨j,hj,hd'⟩ := mem_take_iff.mp hmem
    obtain ⟨e',he',hok,hdup'⟩ := h j d' hd'
    -- a duplicate has its like among the accepted ones
    rcases hok with rfl | hbad
    · exact ⟨j,hj,d',hd',he',hsame⟩
    · obtain ⟨k,hk,d'',hd'',hacc,hsame'⟩ := hdup'.mp hbad
      exact ⟨k,hk.trans hj,d'',hd'',hacc,hsame'.trans hsame⟩

/-- The first directive with an address and port is accepted. -/
theorem Told.first_accepted {address : Place.Name → A} {ds : List Directive} (h : Told address ds)
    {i : ℕ} {x : A × ℤ} (hx : ∃ d ∈ ds.take i, endpoint address d = x) :
    ∃ j < i, ∃ d, ds[j]? = some d ∧ verdict (ds.take j) d = none ∧ endpoint address d = x := by
  have hfirst : ∃ j, j < i ∧ ∃ d, ds[j]? = some d ∧ endpoint address d = x := by
    obtain ⟨d,hmem,hd⟩ := hx
    obtain ⟨j,hj,hdj⟩ := mem_take_iff.mp hmem
    exact ⟨j,hj,d,hdj,hd⟩
  classical
  obtain ⟨hj,c,hc,hcx⟩ := Nat.find_spec hfirst
  obtain ⟨hok,hdup⟩ := verdict_at h.no6 hc
  refine ⟨_,hj,c,hc,hok.resolve_right fun hbad => ?_,hcx⟩
  obtain ⟨b,hb,hbc⟩ := (h.told _ c hc).mp (hdup.mp hbad)
  obtain ⟨k,hk,hkb⟩ := mem_take_iff.mp hb
  exact Nat.find_min hfirst hk ⟨hk.trans hj,b,hkb,hbc.trans hcx⟩

theorem Told.detects {address : Place.Name → A} {ds : List Directive} (h : Told address ds) :
    Detects address ds := by
  obtain ⟨es,listen,hrun,hes⟩ := listenAll_eq ds
  refine ⟨es,listen,hrun,fun i d hd => ?_⟩
  obtain ⟨hok,hdup⟩ := verdict_at h.no6 hd
  refine ⟨_,hes i d hd,hok,?_⟩
  rw [hdup,h.told i d hd]
  constructor
  · intro hmem
    obtain ⟨j,hj,c,hc,hacc,hsame⟩ := h.first_accepted hmem
    exact ⟨j,hj,c,hc,by rw [hes j c hc,hacc],hsame⟩
  · rintro ⟨j,hj,d',hd',-,hsame⟩
    exact ⟨d',mem_take_iff.mpr ⟨j,hj,hd'⟩,hsame⟩

/-- A list of directives is judged right exactly if its directives are told apart as they
are written. -/
theorem detects_iff (address : Place.Name → A) (ds : List Directive) :
    Detects address ds ↔ Told address ds :=
  ⟨Detects.told,Told.detects⟩

/-- With the names as addresses: all hosts with a port are one host with one port, and a port
alone is always spelled alike. -/
structure OneHost (ds : List Directive) : Prop where
  no6 : ∀ d ∈ ds, d.place.isAddr6 = false
  host : ∀ d ∈ ds, ∀ d' ∈ ds, ∀ h p h' p', d.place = .host h p → d'.place = .host h' p' →
    h.text = h'.text ∧ p.num.val = p'.num.val
  bare : ∀ d ∈ ds, ∀ d' ∈ ds, ∀ p p', d.place = .bare p → d'.place = .bare p' →
    p.num.val = p'.num.val → p.num.digits = p'.num.digits

/-- Written alike and at one address and port are the same for a list with one host. -/
theorem OneHost.alike_iff {ds : List Directive} (h : OneHost ds) {d d' : Directive} (hd : d ∈ ds)
    (hd' : d' ∈ ds) : d'.place.Alike d.place ↔ endpoint id d' = endpoint id d := by
  have h6 := h.no6 d hd
  have h6' := h.no6 d' hd'
  rw [endpoint,endpoint,Prod.mk.injEq]
  cases hp : d.place with
  | addr6 => rw [hp] at h6; cases h6
  | bare p =>
    cases hp' : d'.place with
    | addr6 => rw [hp'] at h6'; cases h6'
    | bare p' =>
      constructor
      · intro ha
        have hdigits : p'.num.digits = p.num.digits := ha
        exact ⟨rfl,by rw [Place.port,Place.port,Literal.val,Literal.val,hdigits]⟩
      · rintro ⟨-,hv⟩
        exact h.bare d' hd' d hd p' p hp' hp hv
    | host h' p' => exact iff_of_false id fun hcon => by cases hcon.1
  | host g p =>
    cases hp' : d'.place with
    | addr6 => rw [hp'] at h6'; cases h6'
    | bare p' => exact iff_of_false id fun hcon => by cases hcon.1
    | host g' p' =>
      obtain ⟨ht,hv⟩ := h.host d' hd' d hd g' p' g p hp' hp
      exact iff_of_true trivial ⟨congrArg Place.Name.host ht,hv⟩

/-- Where an element with an earlier one of its class has an earlier one of its finer class,
all elements of a class are of one finer class. -/
theorem eq_of_earlier {α β γ : Type*} {xs : List α} {K : α → Prop} {f : α → β} {g : α → γ}
    (hfine : ∀ c d, K c → K d → g c = g d → f c = f d)
    (hstep : ∀ (j : ℕ) d, xs[j]? = some d → K d → (∃ c ∈ xs.take j, K c ∧ f c = f d) →
      ∃ c ∈ xs.take j, K c ∧ g c = g d) :
    ∀ c ∈ xs, ∀ d ∈ xs, K c → K d → f c = f d → g c = g d := by
  have hle : ∀ (j i : ℕ) c d, i ≤ j → xs[i]? = some c → xs[j]? = some d → K c → K d → f c = f d →
      g c = g d := by
    intro j
    induction j using Nat.strong_induction_on with
    | _ j ih =>
      intro i c d hij hi hj hc hd hcd
      rcases hij.lt_or_eq with hlt | rfl
      · obtain ⟨e,he,hKe,hed⟩ := hstep j d hj hd ⟨c,mem_take_iff.mpr ⟨i,hlt,hi⟩,hc,hcd⟩
        obtain ⟨k,hk,hek⟩ := mem_take_iff.mp he
        have hce : f c = f e := hcd.trans (hfine e d hKe hd hed).symm
        rcases Nat.le_total i k with hik | hki
        · exact (ih k hk i c e hik hi hek hc hKe hce).trans hed
        · exact (ih i hlt k e c hki hek hi hKe hc hce.symm).symm.trans hed
      · rw [hi] at hj
        cases hj
        rfl
  intro c hcmem d hdmem hc hd hcd
  obtain ⟨i,hi⟩ := List.getElem?_of_mem hcmem
  obtain ⟨j,hj⟩ := List.getElem?_of_mem hdmem
  rcases Nat.le_total i j with hij | hji
  · exact hle j i c d hij hi hj hc hd hcd
  · exact (hle i j d c hji hj hi hd hc hcd.symm).symm

/-- A host with a port that is told apart has the endpoint of every other one. -/
theorem Told.host_eq {ds : List Directive} (h : Told id ds) : ∀ c ∈ ds, ∀ d ∈ ds,
    (∃ g p, c.place = .host g p) → (∃ g p, d.place = .host g p) → endpoint id c = endpoint id d := by
  intro c hc d hd hKc hKd
  refine eq_of_earlier (f:=fun _ => ()) (g:=endpoint id) (K:=fun d => ∃ g p, d.place = .host g p)
    (fun _ _ _ _ _ => rfl) ?_ c hc d hd hKc hKd rfl
  rintro j d hj ⟨g',p',hp'⟩ ⟨c,hc,⟨g,p,hp⟩,-⟩
  obtain ⟨e,he,hsame⟩ := (h.told j d hj).mp ⟨c,hc,by rw [hp,hp']; trivial⟩
  have hname : e.place.name = .host g'.text := by
    have hfst := congrArg Prod.fst hsame
    rw [endpoint,endpoint,hp'] at hfst
    exact hfst
  refine ⟨e,he,?_,hsame⟩
  cases hq : e.place with
  | bare q => rw [hq] at hname; cases hname
  | addr6 a q => rw [hq] at hname; cases hname
  | host g q => exact ⟨g,q,rfl⟩

/-- A bare port that is told apart is spelled as every other one of its number. -/
theorem Told.bare_eq {ds : List Directive} (h : Told id ds) : ∀ c ∈ ds, ∀ d ∈ ds,
    (∃ p, c.place = .bare p) → (∃ p, d.place = .bare p) → c.place.port.num.val = d.place.port.num.val →
    c.place.port.num.digits = d.place.port.num.digits := by
  refine eq_of_earlier (fun c d _ _ hdigits => by rw [Literal.val,Literal.val,hdigits]) ?_
  rintro j d hj ⟨p',hp'⟩ ⟨c,hc,⟨p,hp⟩,hv⟩
  have hend : endpoint id c = endpoint id d := by
    rw [endpoint,endpoint,hv,hp,hp']
    rfl
  obtain ⟨e,he,halike⟩ := (h.told j d hj).mpr ⟨c,hc,hend⟩
  refine ⟨e,he,?_⟩
  rw [hp'] at halike ⊢
  cases hq : e.place with
  | bare q => rw [hq] at halike; exact ⟨⟨q,rfl⟩,halike⟩
  | host g q => rw [hq] at halike; exact halike.elim
  | addr6 a q => rw [hq] at halike; exact halike.elim

theorem told_id_iff (ds : List Directive) : Told id ds ↔ OneHost ds := by
  constructor
  · intro h
    refine ⟨h.no6,fun d hd d' hd' g p g' p' hp hp' => ?_,fun d hd d' hd' p p' hp hp' hv => ?_⟩
    · have hsame := h.host_eq d hd d' hd' ⟨g,p,hp⟩ ⟨g',p',hp'⟩
      rw [endpoint,endpoint,hp,hp',Prod.mk.injEq] at hsame
      exact ⟨Place.Name.host.inj hsame.1,hsame.2⟩
    · have hdigits := h.bare_eq d hd d' hd' ⟨p,hp⟩ ⟨p',hp'⟩
      rw [hp,hp'] at hdigits
      exact hdigits hv
  · intro h
    refine ⟨h.no6,fun i d hd => exists_congr fun d' => and_congr_right fun hd' => ?_⟩
    exact h.alike_iff (List.mem_of_getElem? hd) (List.mem_of_mem_take hd')

end Told

def example80 : Host := ⟨ascii "example",by decide,by decide,by decide,by decide,by decide⟩

/-- `localhost:80` and `example:80`. -/
theorem not_detects_two_hosts :
    ¬Detects id [⟨.host localhost port80,[],fun _ _ => ⟨_,rfl⟩⟩,⟨.host example80 port80,[],fun _ _ => ⟨_,rfl⟩⟩] := by
  rintro ⟨es,listen,hrun,h⟩
  obtain ⟨e,he,-,hdup⟩ := h 1 _ rfl
  cases hrun
  cases he
  obtain ⟨j,hj,d',hd',-,hsame⟩ := hdup.mp ⟨_,rfl⟩
  obtain rfl : j = 0 := by omega
  cases hd'
  have hname := Place.Name.host.inj (congrArg Prod.fst hsame)
  revert hname
  decide

end NgListen
end RecycleBin
