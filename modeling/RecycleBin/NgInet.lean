import RecycleBin.CString
import RecycleBin.GoSlice
import RecycleBin.NgParse

/-! `ParseUrl` of `core/inet.go` and the parsers of the three address families, with every
slice expression they evaluate. -/
namespace RecycleBin
namespace NgInet
open GurlCal (Bytes atoi decimal isDigit)
open GoSlice CString
open NgParse (ERROR)

def OK : ℤ := 0

/-! ### `net.ParseIP` -/

/-- The numbers of a dotted address with `n` more behind the next one. -/
def parseOctets : ℕ → Bytes → Option Bytes
  | n, s =>
    let ds := s.takeWhile isDigit
    -- a number with a leading zero is rejected
    if ds = [] ∨ 255 < decimal ds ∨ (ds.head? = some 48 ∧ 1 < ds.length) then none
    else
      match n, s.drop ds.length with
      | 0, [] => some [UInt8.ofNat (decimal ds)]
      | n+1, 46::s => (parseOctets n s).map (UInt8.ofNat (decimal ds)::·)
      | _, _ => none

def parseIPv4 (s : Bytes) : Option Bytes := parseOctets 3 s

/-- The groups of an address behind the bytes `ip`, with the position of `::` among these.
At most `n` groups are left. -/
def parseGroups : ℕ → Bytes → Option ℕ → Bytes → Option (Bytes × Option ℕ × Bytes)
  | 0, ip, ellipsis, s => some (ip,ellipsis,s)
  | n+1, ip, ellipsis, s =>
    let h := s.takeWhile fun b => (hexDigit b).isSome
    if h = [] ∨ 4 < h.length then none
    else
      let v := hexValue 0 h
      let ip' := ip++[UInt8.ofNat (v/256),UInt8.ofNat v]
      match s.drop h.length with
      | [] => some (ip',ellipsis,[])
      | 46::_ =>
        if ellipsis = none ∧ ip.length ≠ 12 ∨ 12 < ip.length then none
        else (parseIPv4 s).map fun ip4 => (ip++ip4,ellipsis,[])
      | 58::58::t =>
        if ellipsis.isSome then none
        else if t = [] then some (ip',some ip'.length,[])
        else parseGroups n ip' (some ip'.length) t
      | 58::c::t => parseGroups n ip' ellipsis (c::t)
      | _ => none

/-- The zero bytes of `::` are put in. -/
def expand : Bytes × Option ℕ × Bytes → Option Bytes
  | (ip,ellipsis,s) =>
    if s ≠ [] then none
    else
      match ellipsis with
      | some k =>
        if ip.length < 16 then some (ip.take k++(List.replicate (16-ip.length) 0++ip.drop k)) else none
      | none => if ip.length = 16 then some ip else none

def parseIPv6 : Bytes → Option Bytes
  | [58,58] => some (List.replicate 16 0)
  | 58::58::s => (parseGroups 8 [] (some 0) s).bind expand
  | s => (parseGroups 8 [] none s).bind expand

/-- `net.ParseIP`, by the first dot or colon. -/
def parseIP (s : Bytes) : Option Bytes :=
  match s.find? fun b => b = 46 ∨ b = 58 with
  | some b =>
    if b = 46 then (parseIPv4 s).map (List.replicate 10 0++[255,255]++·) else parseIPv6 s
  | none => none

/-! ### `ParseUrl` -/

inductive Family
  | unset | unix | tcp | tcp6
  deriving DecidableEq

structure URL where
  Url : Bytes := []
  Host : Bytes := []
  PortText : Bytes := []
  Uri : Bytes := []
  Port : ℤ := 0
  DefaultPort : ℤ := 0
  Family : Family := .unset
  Listen : Bool := false
  UriPart : Bool := false
  NoResolve : Bool := false
  NoPort : Bool := false
  Wildcard : Bool := false
  Addr : Bytes := []
  Addrs : List Bytes := []
  Err : String := ""
  deriving DecidableEq

/-- The number `strconv.Atoi` returns, also beside an error: 0 for a text that is no number,
and the nearest `int` to a number out of range. -/
def atoiNumber (s : Bytes) : ℤ :=
  let ds := if s.head? = some 45 ∨ s.head? = some 43 then s.tail else s
  match atoi s with
  | some n => n
  | none =>
    if ds ≠ [] ∧ ds.all isDigit then (if s.head? = some 45 then -2^63 else 2^63-1) else 0

/-- `Atoi`, and the test of the ports. -/
def portNumber (s : Bytes) : Option ℤ := (atoi s).filter fun n => 1 ≤ n ∧ n ≤ 65535

/-- `fmt.Sprintf("%s:%d", host, port)`. -/
def hostPort (host : Bytes) (port : ℤ) : Bytes := host++58::ascii (toString port)

/-- `return ERROR` with a message. -/
def URL.fail (u : URL) (err : String) : Except Fault (ℤ × URL) := .ok (ERROR,{ u with Err := err })

/-- The branch of `UriPart`: `length` and `u`. -/
def unixUri (u : URL) : Except Fault (ℤ × URL) := do
  let path : ℤ := 5
  if u.UriPart then
    let s ← sliceFrom u.Url path
    let uri := index s 58
    if uri ≠ -1 then
      -- the slice is of the field to be set
      let s ← sliceFrom u.Uri (uri+1)
      pure (uri-path,{ u with Uri := s })
    else pure (u.Url.length-5,u)
  else pure (u.Url.length-5,u)

def parseUnixDomainUrl (u : URL) : Except Fault (ℤ × URL) := do
  let (length,u) ← unixUri u
  if length = 0 then u.fail "no path in the unix domain socket"
  else
    let host ← sliceFrom u.Url 5
    pure (OK,{ u with Host := host,Family := .unix,Addrs := [u.Url] })

/-- `parseInet6Url` from `length := p - host` on. -/
def inet6Host (u : URL) (p : ℤ) : Except Fault (ℤ × URL) := do
  let host : ℤ := 1
  if p-host = 0 then u.fail "no host"
  else
    let s ← sliceFrom u.Url (host-1)
    let u := { u with Host := s }
    let s ← sliceFrom u.Url host
    if parseIP s = none then u.fail "invalid IPv6 address"
    else pure (OK,{ u with Family := .tcp6,Addrs := [hostPort u.Host u.Port] })

/-- `parseInet6Url` from `if port < last` on. -/
def inet6Port (u : URL) (p port last : ℤ) : Except Fault (ℤ × URL) := do
  if port < last then
    let c ← elem u.Url port
    if c ≠ 58 then u.fail "invalid host"
    else
      let text ← sliceFrom u.Url (port+1)
      match portNumber text with
      | none => u.fail "invalid port"
      | some n => inet6Host { u with Port := n,PortText := text } p
  else inet6Host { u with NoPort := true,Port := u.DefaultPort } p

def parseInet6Url (u : URL) : Except Fault (ℤ × URL) := do
  let host : ℤ := 1
  let s ← sliceFrom u.Url host
  let p := index s 93
  if p = -1 then u.fail "invalid host"
  else
    -- `p` and `uri` are offsets in the slices
    let port := p+1
    let s ← sliceFrom u.Url port
    let uri := index s 47
    if uri ≠ -1 then
      if u.Listen ∨ !u.UriPart then u.fail "invalid host"
      else
        let s ← sliceFrom u.Url uri
        inet6Port { u with Uri := s } p port uri
    else inet6Port u p port u.Url.length

/-- `parseInetUrl` from `length = last - host` on. -/
def inetHost (u : URL) (last : ℤ) : Except Fault (ℤ × URL) := do
  if last = 0 then u.fail "no host"
  else
    let s ← sliceTo u.Url last
    let u := { u with Host := s }
    let s ← sliceFrom u.Url 0
    if u.Listen ∧ last = 1 ∧ s = [42] then pure (OK,{ u with Wildcard := true })
    else if parseIP u.Host ≠ none then pure (OK,{ u with Addrs := [hostPort u.Host u.Port] })
    else if u.NoResolve then pure (OK,u)
    else pure (OK,{ u with Family := .tcp })

/-- `parseInetUrl` from `if port != -1` on. -/
def inetPort (u : URL) (port uri last : ℤ) : Except Fault (ℤ × URL) := do
  if port ≠ -1 then
    -- up to the end of the text, not to `last`
    let text ← sliceFrom u.Url (port+1)
    match portNumber text with
    | none => u.fail "invalid port"
    | some n => inetHost { u with Port := n,PortText := text } port
  else if uri = -1 ∧ u.Listen then
    let text ← sliceFrom u.Url 0
    let n := atoiNumber text
    if n ≠ ERROR then
      if n < 1 ∨ n > 65535 then u.fail "invalid port"
      else pure (OK,{ u with Port := n,Addr := 58::text,PortText := text,Wildcard := true })
    else inetHost { u with NoPort := true,Port := u.DefaultPort } last
  else inetHost { u with NoPort := true,Port := u.DefaultPort } last

def parseInetUrl (u : URL) : Except Fault (ℤ × URL) := do
  let u := { u with Family := .tcp }
  let s ← sliceFrom u.Url 0
  let port := index s 58
  let uri := index s 47
  let args := index s 63
  let uri := if args ≠ -1 ∧ (uri = -1 ∨ args < uri) then args else uri
  if uri ≠ -1 then
    if u.Listen ∨ !u.UriPart then u.fail "invalid host"
    else
      let s ← sliceFrom u.Url uri
      inetPort { u with Uri := s } (if uri < port then -1 else port) uri uri
  else inetPort u port uri u.Url.length

/-- `strings.EqualFold(s[:5], "unix:")`. -/
def isUnix (s : Bytes) : Bool := strcaseeq (s.take 5) (ascii "unix:")

def parseUrl (u : URL) : Except Fault (ℤ × URL) :=
  if isUnix u.Url then parseUnixDomainUrl u
  else if u.Url.head? = some 91 then parseInet6Url u
  else parseInetUrl u

/-! ### Which slice expressions are out of range -/

/-- The request of a caller that sets nothing else. -/
def URL.request (url : Bytes) (defaultPort : ℤ) (listen uriPart noResolve : Bool) : URL where
  Url := url
  DefaultPort := defaultPort
  Listen := listen
  UriPart := uriPart
  NoResolve := noResolve

theorem URL.fail_returns (u : URL) (err : String) : ∃ r, u.fail err = .ok r := ⟨_,rfl⟩

theorem inet6Host_returns {u : URL} (h : u.Url ≠ []) (p : ℤ) : ∃ r, inet6Host u p = .ok r := by
  have hlen := List.length_pos_of_ne_nil h
  rw [inet6Host]
  split_ifs
  · exact u.fail_returns _
  rw [sub_self,sliceFrom_zero,ok_bind]
  dsimp only
  rw [sliceFrom_ok (by omega) (by omega),ok_bind]
  split_ifs
  · exact URL.fail_returns _ _
  · exact ⟨_,rfl⟩

theorem inet6Port_returns {u : URL} {port : ℤ} (h0 : 0 ≤ port) (hlt : port < u.Url.length)
    (p last : ℤ) : ∃ r, inet6Port u p port last = .ok r := by
  have hne : u.Url ≠ [] := by
    intro h
    rw [h,List.length_nil] at hlt
    omega
  rw [inet6Port]
  split_ifs
  · obtain ⟨c,hc⟩ : ∃ c, elem u.Url port = .ok c := by
      rw [elem,if_pos h0,List.getElem?_eq_getElem (by omega)]
      exact ⟨_,rfl⟩
    rw [hc,ok_bind]
    split_ifs
    · exact u.fail_returns _
    rw [sliceFrom_ok (by omega) (by omega),ok_bind]
    split
    · exact u.fail_returns _
    · refine inet6Host_returns ?_ p
      exact hne
  · refine inet6Host_returns ?_ p
    exact hne

theorem parseInet6Url_returns {u : URL} (h : u.Url ≠ []) : ∃ r, parseInet6Url u = .ok r := by
  have hlen := List.length_pos_of_ne_nil h
  have hp := index_lt (u.Url.drop (1 : ℤ).toNat) 93
  rw [parseInet6Url,sliceFrom_ok (by omega) (by omega),ok_bind]
  generalize index (u.Url.drop (1 : ℤ).toNat) 93 = p at hp ⊢
  rw [List.length_drop] at hp
  dsimp only
  by_cases h1 : p = -1
  · rw [if_pos h1]
    exact u.fail_returns _
  have huri := index_lt (u.Url.drop (p+1).toNat) 47
  rw [if_neg h1,sliceFrom_ok (by omega) (by omega),ok_bind]
  generalize index (u.Url.drop (p+1).toNat) 47 = uri at huri ⊢
  rw [List.length_drop] at huri
  split_ifs
  · exact u.fail_returns _
  · rw [sliceFrom_ok (by omega) (by omega),ok_bind]
    exact inet6Port_returns (by omega) (by dsimp only; omega) _ _
  · exact inet6Port_returns (by omega) (by omega) _ _

/-- With a host the rest of the parser fails no more; it goes on to fill other fields. -/
theorem inetHost_spec {u : URL} {last : ℤ} (h0 : 0 < last) (hle : last ≤ u.Url.length) :
    ∃ family wildcard addrs, inetHost u last = .ok (OK,{ u with
      Host := u.Url.take last.toNat,Family := family,Wildcard := wildcard,Addrs := addrs }) := by
  rw [inetHost,if_neg (by omega),sliceTo_ok (by omega) hle,ok_bind]
  dsimp only
  rw [sliceFrom_zero,ok_bind]
  split_ifs <;> exact ⟨_,_,_,rfl⟩

theorem inetHost_returns {u : URL} {last : ℤ} (h0 : 0 ≤ last) (hle : last ≤ u.Url.length) :
    ∃ r, inetHost u last = .ok r := by
  rcases h0.lt_or_eq with hlt | heq
  · obtain ⟨family,wildcard,addrs,h⟩ := inetHost_spec hlt hle
    exact ⟨_,h⟩
  · rw [inetHost,if_pos heq.symm]
    exact u.fail_returns _

theorem inetPort_returns {u : URL} {port last : ℤ}
    (hport : port = -1 ∨ 0 ≤ port ∧ port < u.Url.length) (uri : ℤ) (h0 : 0 ≤ last)
    (hle : last ≤ u.Url.length) : ∃ r, inetPort u port uri last = .ok r := by
  rw [inetPort]
  by_cases hp : port ≠ -1
  · rw [if_pos hp,sliceFrom_ok (by omega) (by omega),ok_bind]
    split
    · exact u.fail_returns _
    · exact inetHost_returns (by omega) (by dsimp only; omega)
  rw [if_neg hp]
  split_ifs
  · rw [sliceFrom_zero,ok_bind]
    dsimp only
    split_ifs
    · exact u.fail_returns _
    · exact ⟨_,rfl⟩
    · refine inetHost_returns h0 ?_
      exact hle
  · refine inetHost_returns h0 ?_
    exact hle

theorem parseInetUrl_returns (u : URL) : ∃ r, parseInetUrl u = .ok r := by
  have hport := index_lt u.Url 58
  have hslash := index_lt u.Url 47
  have hargs := index_lt u.Url 63
  rw [parseInetUrl,sliceFrom_zero,ok_bind]
  dsimp only
  generalize huri : (if index u.Url 63 ≠ -1 ∧ (index u.Url 47 = -1 ∨ index u.Url 63 < index u.Url 47)
    then index u.Url 63 else index u.Url 47) = uri
  have hrange : uri = -1 ∨ 0 ≤ uri ∧ uri < u.Url.length := by
    rw [← huri]
    split_ifs
    · exact hargs
    · exact hslash
  by_cases hu : uri ≠ -1
  · obtain ⟨h0,hlt⟩ := hrange.resolve_left hu
    rw [if_pos hu]
    split_ifs
    · exact URL.fail_returns _ _
    · rw [sliceFrom_ok h0 hlt.le,ok_bind]
      refine inetPort_returns (.inl rfl) uri h0 ?_
      exact hlt.le
    · rw [sliceFrom_ok h0 hlt.le,ok_bind]
      refine inetPort_returns ?_ uri h0 ?_
      · exact hport
      · exact hlt.le
  · rw [if_neg hu]
    refine inetPort_returns ?_ uri (Int.natCast_nonneg _) le_rfl
    exact hport

/-- Behind `unix:` there is a colon, and the URI is wanted. -/
def ColonInPath (u : URL) : Prop := isUnix u.Url = true ∧ u.UriPart = true ∧ 58 ∈ u.Url.drop 5

theorem isUnix_length {s : Bytes} (h : isUnix s = true) : 5 ≤ s.length := by
  rw [isUnix,strcaseeq,decide_eq_true_eq] at h
  have hlen := congrArg List.length h
  rw [List.length_map,List.length_map,List.length_take] at hlen
  have h5 : (ascii "unix:").length = 5 := rfl
  omega

/-- The slice of the empty `Uri` is always out of range. -/
theorem parseUnixDomainUrl_iff {u : URL} (h : isUnix u.Url = true) (huri : u.Uri = []) :
    (∃ r, parseUnixDomainUrl u = .ok r) ↔ ¬ColonInPath u := by
  have hlen := isUnix_length h
  have hslice : sliceFrom u.Url 5 = .ok (u.Url.drop 5) := sliceFrom_ok (by omega) (by omega)
  have hend : ∀ n : ℤ, ∃ r, (if n = 0 then u.fail "no path in the unix domain socket"
      else (do
        let host ← sliceFrom u.Url 5
        pure (OK,{ u with Host := host,Family := .unix,Addrs := [u.Url] }))) = .ok r := by
    intro n
    split_ifs
    · exact u.fail_returns _
    · rw [hslice]
      exact ⟨_,rfl⟩
  rw [parseUnixDomainUrl,unixUri,ColonInPath]
  by_cases hpart : u.UriPart = true
  · rw [if_pos hpart,hslice,ok_bind]
    rcases index_cases (u.Url.drop 5) 58 with ⟨hc,hi⟩ | ⟨a,b,hab,-,hi⟩
    · rw [if_neg (not_not.mpr hi)]
      exact iff_of_true (hend _) fun hcon => hc hcon.2.2
    · have hmem : (58 : UInt8) ∈ u.Url.drop 5 := by
        rw [hab]
        simp
      have hbad : sliceFrom u.Uri (index (u.Url.drop 5) 58+1) = .error .panic := by
        rw [huri,hi,sliceFrom,slice,if_neg]
        simp only [List.length_nil]
        omega
      rw [if_pos (by omega),hbad]
      refine iff_of_false ?_ (not_not.mpr ⟨h,hpart,hmem⟩)
      rintro ⟨r,hr⟩
      cases hr
  · rw [if_neg hpart]
    exact iff_of_true (hend _) fun hcon => hpart hcon.2.1

/-- `ParseUrl` panics on the texts of this kind and on no others. -/
theorem parseUrl_returns_iff (url : Bytes) (defaultPort : ℤ) (listen uriPart noResolve : Bool) :
    (∃ r, parseUrl (.request url defaultPort listen uriPart noResolve) = .ok r) ↔
      ¬ColonInPath (.request url defaultPort listen uriPart noResolve) := by
  generalize hu : URL.request url defaultPort listen uriPart noResolve = u
  have huri : u.Uri = [] := by rw [← hu]; rfl
  rw [parseUrl]
  by_cases hunix : isUnix u.Url = true
  · rw [if_pos hunix]
    exact parseUnixDomainUrl_iff hunix huri
  · rw [if_neg hunix]
    refine iff_of_true ?_ fun hcon => hunix hcon.1
    split_ifs with hhead
    · exact parseInet6Url_returns fun hnil => by simp [hnil] at hhead
    · exact parseInetUrl_returns u

/-- A path with a colon. -/
theorem parseUrl_panics :
    ¬∃ r, parseUrl (.request (ascii "unix:/tmp/a.sock:/x") 80 false true false) = .ok r := by
  have h : parseUrl (.request (ascii "unix:/tmp/a.sock:/x") 80 false true false) = .error .panic := rfl
  rintro ⟨r,hr⟩
  rw [h] at hr
  cases hr

end NgInet
end RecycleBin
