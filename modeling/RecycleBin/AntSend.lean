import RecycleBin.AntUrl
import RecycleBin.UrlHandoff

/-! From `url_add` to `http_send_head`: the host whose address is looked up, and the host and
the path of the request. -/
namespace RecycleBin
namespace AntSend
open AntHash AntVisited AntUrl CString

def MAX_URL_SIZE : ℕ := 4096

/-- `snprintf` of this text into a buffer of `n` bytes. -/
def snprintf (n : ℕ) (s : Bytes) : Bytes := s.take (n-1)

/-- `url_modify` into a buffer of `MAX_URL_SIZE` bytes; none is -1. -/
def urlModify (url : Bytes) : Option Bytes :=
  if skipHead url = 0 then some (snprintf MAX_URL_SIZE (http++url)) else none

/-- The functions `url_add` calls, with what its array `domain` holds before. -/
def urls (domain : Bytes) : UrlHandoff.Urls Bytes Bytes where
  toDomain url := cstr (urlToDomain domain url)
  modify := urlModify

/-- The length of the scheme in `http_send_head`. -/
def schemeLength (url : Bytes) : ℕ :=
  if http <+: url ∨ https <+: url then (if url[4]? = some 115 then 8 else 7) else 0

/-- "/?#;" -/
def stops : Bytes := [47,63,35,59]

/-- The front of the text that `strcspn(domain, "/?#;")` measures. -/
def authority (s : Bytes) : Bytes := s.takeWhile fun b => !stops.contains b

/-- What `http_send_head` formats. -/
structure Request where
  path : Bytes
  host : Bytes
  deriving DecidableEq

def Request.of (url : Bytes) : Request :=
  let domain := url.drop (schemeLength url)
  ⟨domain.drop (authority domain).length,authority domain⟩

/-- The request line and the `Host` header. -/
def Request.lines (r : Request) : Bytes :=
  ascii "GET /"++((if r.path.head? = some 47 then r.path.tail else r.path)++
    (ascii " HTTP/1.1\r\nHost: "++(r.host++ascii "\r\n")))

/-- The other headers. -/
def headers : Bytes := ascii ("User-Agent: Mozilla/5.0 Firefox/22.0\r\n"++
  "Accept: text/html,application/xhtml+xml,application/xml;q=0.9,q=0.8\r\n"++
  "DNT: 1\r\nConnection: keep-alive\r\n\r\n")

/-- What `http_send_head` sends for the stored URL. -/
def httpSendHead (url : Bytes) : Bytes := snprintf 4095 ((Request.of url).lines++headers)

/-! ### The host that is resolved and the host that is sent -/

/-- An optional `:port`. -/
def IsPort (s : Bytes) : Prop := s = [] ∨ ∃ ds, s = 58::ds ∧ ∀ b ∈ ds, isdigit b = true

/-- The request is made of the domain, a port, and the rest of the URL, and its two lines are
sent. -/
def SendsHost (url : Bytes) : Prop :=
  ∀ domain : Bytes, domain.length = 512 → 0 ∈ urlToDomain domain url ∧
    ∃ port rest, IsPort port ∧
      withoutScheme (url.dropWhile isspace) = ((urls domain).item url).domain++(port++rest) ∧
      Request.of ((urls domain).item url).url = ⟨rest,((urls domain).item url).domain++port⟩ ∧
      (Request.of ((urls domain).item url).url).lines <+: httpSendHead ((urls domain).item url).url

/-- The request for the text behind a scheme. -/
def wanted (url : Bytes) : Request :=
  ⟨(withoutScheme url).drop (authority (withoutScheme url)).length,authority (withoutScheme url)⟩

/-- No blank and no capital letter in front of the host, a host that fits into the array, at
most a port behind it, and two lines that fit into the buffer. -/
structure Clean (url : Bytes) : Prop where
  blank : url.dropWhile isspace = url
  scheme : startsWith http url = true ∨ startsWith https url = true → http <+: url ∨ https <+: url
  host : hostOf (withoutScheme url) ≠ []
  short : (hostOf (withoutScheme url)).length < 512
  port : IsPort ((authority (withoutScheme url)).dropWhile (· ≠ 58))
  fits : (wanted url).lines.length ≤ 4094

/-! ### The lines -/

theorem lines_length (r : Request) : r.path.length+r.host.length+23 ≤ r.lines.length := by
  have hget : (ascii "GET /").length = 5 := rfl
  have hhost : (ascii " HTTP/1.1\r\nHost: ").length = 17 := rfl
  have hend : (ascii "\r\n").length = 2 := rfl
  have hpath : r.path.length ≤ (if r.path.head? = some 47 then r.path.tail else r.path).length+1 := by
    split_ifs
    · rw [List.length_tail]
      omega
    · omega
  simp only [Request.lines,List.length_append,hget,hhost,hend]
  omega

/-- The two lines are sent exactly when they fit. -/
theorem lines_prefix_iff (url : Bytes) :
    (Request.of url).lines <+: httpSendHead url ↔ (Request.of url).lines.length ≤ 4094 := by
  rw [httpSendHead,snprintf,List.prefix_take_iff]
  exact and_iff_right (List.prefix_append _ _)

theorem authority_append (s : Bytes) : authority s++s.drop (authority s).length = s :=
  List.prefix_iff_eq_append.mp (List.takeWhile_prefix _)

/-- The delimiters of the host are those of the authority and the colon. -/
theorem hostOf_eq (s : Bytes) : hostOf s = (authority s).takeWhile (· ≠ 58) := by
  have hbyte : (fun b => !delims.contains b) =
      fun b : UInt8 => decide (decide (b ≠ 58) = true ∧ (!stops.contains b) = true) := by
    funext b
    by_cases hb : b = 58
    · subst hb
      rfl
    · simp [delims,stops,hb]
  rw [hostOf,authority,List.takeWhile_takeWhile,hbyte]

/-! ### The stored URL -/

theorem startsWith_of_isPrefix {word url : Bytes} (h : word <+: url) (hword : word.map tolower = word) :
    startsWith word url = true := by
  obtain ⟨r,rfl⟩ := h
  rw [startsWith,List.take_left,hword,decide_eq_true_eq]

theorem schemeLength_of_skipHead {url : Bytes} (h : skipHead url = 0) : schemeLength url = 0 := by
  have hnot : ¬(http <+: url ∨ https <+: url) := by
    intro hp
    rw [skipHead,if_pos (hp.imp (startsWith_of_isPrefix · rfl) (startsWith_of_isPrefix · rfl))] at h
    split_ifs at h
  rw [schemeLength,if_neg hnot]

/-- A URL that is not too long for the buffer is stored as it is, or with the scheme that
`http_send_head` cuts off again. -/
theorem request_stored {url : Bytes} (h : skipHead url = 0 → url.length ≤ 4088) :
    Request.of ((urlModify url).getD url) = Request.of url := by
  by_cases hskip : skipHead url = 0
  · have hlen : http.length = 7 := rfl
    have htake : snprintf MAX_URL_SIZE (http++url) = http++url := by
      rw [snprintf,MAX_URL_SIZE,List.take_of_length_le]
      rw [List.length_append,hlen]
      have := h hskip
      omega
    have hscheme : schemeLength (http++url) = 7 := by
      rw [schemeLength,if_pos (.inl (List.prefix_append _ _))]
      rfl
    have hdrop : (http++url).drop 7 = url := rfl
    rw [urlModify,if_pos hskip,Option.getD_some,htake,Request.of,Request.of,hscheme,hdrop,
      schemeLength_of_skipHead hskip,List.drop_zero]
  · rw [urlModify,if_neg hskip,Option.getD_none]

/-- A request has all of the URL behind the scheme. -/
theorem length_le_lines (url : Bytes) : url.length+15 ≤ (Request.of url).lines.length := by
  have hlines := lines_length (Request.of url)
  have happend := congrArg List.length (authority_append (url.drop (schemeLength url)))
  have hdrop : (url.drop (schemeLength url)).length = url.length-schemeLength url := List.length_drop
  have hscheme : schemeLength url ≤ 8 := by
    rw [schemeLength]
    split_ifs <;> omega
  rw [List.length_append,hdrop] at happend
  simp only [Request.of] at hlines ⊢
  omega

/-! ### The scheme -/

theorem not_blank_of_scheme {url : Bytes} (h : http <+: url ∨ https <+: url) :
    url.dropWhile isspace = url := by
  have hhead : ∃ r, url = 104::r := by
    rcases h with ⟨r,rfl⟩ | ⟨r,rfl⟩ <;> exact ⟨_,rfl⟩
  obtain ⟨r,rfl⟩ := hhead
  rfl

theorem startsWith_pos {word url : Bytes} (h : startsWith word url = true) (hword : word ≠ []) :
    0 < url.length := by
  rw [startsWith,decide_eq_true_eq] at h
  refine List.length_pos_of_ne_nil fun hnil => hword ?_
  rw [← h,hnil,List.take_nil,List.map_nil]

theorem withoutScheme_length (s : Bytes) : (withoutScheme s).length ≤ s.length ∧
    s.length ≤ (withoutScheme s).length+8 := by
  rw [withoutScheme]
  split_ifs
  · rw [List.length_drop]
    omega
  · rw [List.length_drop]
    omega
  · omega

/-- With the scheme in small letters all functions cut off the same. -/
theorem drop_schemeLength {url : Bytes}
    (h : startsWith http url = true ∨ startsWith https url = true → http <+: url ∨ https <+: url) :
    url.drop (schemeLength url) = withoutScheme url := by
  by_cases hp : http <+: url ∨ https <+: url
  · rcases hp with hp | hp
    · have hnot : ¬startsWith https url = true := by
        obtain ⟨r,rfl⟩ := hp
        exact fun hs => by cases hs
      rw [withoutScheme,if_neg hnot,if_pos (startsWith_of_isPrefix hp rfl),schemeLength,if_pos (.inl hp)]
      obtain ⟨r,rfl⟩ := hp
      rfl
    · rw [withoutScheme,if_pos (startsWith_of_isPrefix hp rfl),schemeLength,if_pos (.inr hp)]
      obtain ⟨r,rfl⟩ := hp
      rfl
  · have hnot := mt h hp
    rw [not_or] at hnot
    rw [schemeLength,if_neg hp,withoutScheme,if_neg hnot.2,if_neg hnot.1,List.drop_zero]

/-- And only then, without a blank in front. -/
theorem scheme_of_drop {url : Bytes}
    (h : url.drop (schemeLength url) = withoutScheme (url.dropWhile isspace)) :
    url.dropWhile isspace = url ∧
      (startsWith http url = true ∨ startsWith https url = true → http <+: url ∨ https <+: url) := by
  by_cases hp : http <+: url ∨ https <+: url
  · exact ⟨not_blank_of_scheme hp,fun _ => hp⟩
  rw [schemeLength,if_neg hp,List.drop_zero] at h
  -- the two texts have the same length only if nothing is cut off
  have hlen := congrArg List.length h
  have hle := (withoutScheme_length (url.dropWhile isspace)).1
  have hsuffix := List.dropWhile_suffix (l:=url) isspace
  have hblank : url.dropWhile isspace = url := hsuffix.eq_of_length_le (by omega)
  refine ⟨hblank,fun hs => ?_⟩
  have hpos : 0 < url.length := by
    rcases hs with hs | hs
    · exact startsWith_pos hs (by decide)
    · exact startsWith_pos hs (by decide)
  rw [hblank,withoutScheme] at hlen
  split_ifs at hlen with h1 h2
  · rw [List.length_drop] at hlen
    omega
  · rw [List.length_drop] at hlen
    omega
  · exact absurd hs (not_or.mpr ⟨h2,h1⟩)

/-! ### The port -/

/-- What stands behind a host that is cut off is no port. -/
theorem port_of_take {a port : Bytes} {n : ℕ} (hport : IsPort port)
    (h : a = (a.takeWhile (· ≠ 58)).take n++port) :
    (a.takeWhile (· ≠ 58)).length ≤ n ∧ port = a.dropWhile (· ≠ 58) := by
  have hsplit : a.takeWhile (· ≠ 58)++a.dropWhile (· ≠ 58) = a := List.takeWhile_append_dropWhile
  have hcut : (a.takeWhile (· ≠ 58)).take n++port =
      (a.takeWhile (· ≠ 58)).take n++((a.takeWhile (· ≠ 58)).drop n++a.dropWhile (· ≠ 58)) := by
    rw [← List.append_assoc,List.take_append_drop,hsplit]
    exact h.symm
  have hrest := List.append_cancel_left hcut
  rcases hx : (a.takeWhile (· ≠ 58)).drop n with _ | ⟨b,r⟩
  · rw [hx,List.nil_append] at hrest
    exact ⟨List.drop_eq_nil_iff.mp hx,hrest⟩
  · have hmem : b ∈ a.takeWhile (· ≠ 58) := List.mem_of_mem_drop (hx ▸ List.mem_cons_self)
    have hb : b ≠ 58 := by simpa using List.mem_takeWhile_imp hmem
    rw [hx,List.cons_append] at hrest
    rcases hport with hnil | ⟨ds,hds,-⟩
    · rw [hnil] at hrest
      cases hrest
    · rw [hds] at hrest
      exact absurd (List.cons.inj hrest).1.symm hb

/-! ### Both ways -/

theorem not_capital {url : Bytes} (hblank : url.dropWhile isspace = url)
    (h : startsWith http url = true ∨ startsWith https url = true → http <+: url ∨ https <+: url) :
    ¬CapitalS url := by
  rw [CapitalS,hblank]
  rintro ⟨hs,h4⟩
  rcases h (.inr hs) with ⟨r,rfl⟩ | ⟨r,rfl⟩ <;> cases h4

theorem SendsHost.clean {url : Text} (h : SendsHost url.bytes) : Clean url.bytes := by
  obtain ⟨hnul,port,rest,hport,hsplit,hreq,hsent⟩ := h (List.replicate 512 1) List.length_replicate
  obtain ⟨hn,hhost,hcap⟩ := host_of_terminated hnul
  have hdomain := (holdsHost_of_host hn hhost hcap (List.replicate 512 1) List.length_replicate).2.2
  have hlen := (lines_prefix_iff _).mp hsent
  simp only [UrlHandoff.Urls.item,urls,hdomain] at hsplit hreq hlen
  -- a URL that is cut off by `url_modify` does not leave room for the headers
  have hshort : skipHead url.bytes = 0 → url.bytes.length ≤ 4088 := by
    intro hskip
    by_contra hlong
    have hlines := length_le_lines ((urlModify url.bytes).getD url.bytes)
    have hhttp : http.length = 7 := rfl
    have hstored : ((urlModify url.bytes).getD url.bytes).length = 4095 := by
      rw [urlModify,if_pos hskip,Option.getD_some,snprintf,List.length_take,List.length_append,hhttp,
        MAX_URL_SIZE]
      omega
    omega
  rw [request_stored hshort] at hreq hlen
  have hauthority : authority (url.bytes.drop (schemeLength url.bytes)) = (host url.bytes).take 511++port :=
    congrArg Request.host hreq
  have hrest : (url.bytes.drop (schemeLength url.bytes)).drop
      (authority (url.bytes.drop (schemeLength url.bytes))).length = rest := congrArg Request.path hreq
  have hdrop : url.bytes.drop (schemeLength url.bytes) =
      withoutScheme (url.bytes.dropWhile isspace) := by
    rw [hsplit,← List.append_assoc,← hauthority,← hrest,authority_append]
  obtain ⟨hblank,hscheme⟩ := scheme_of_drop hdrop
  rw [hblank] at hdrop
  rw [host,hblank] at hhost hauthority
  rw [hdrop,hostOf_eq] at hauthority
  obtain ⟨hfit,hp⟩ := port_of_take hport hauthority
  refine ⟨hblank,hscheme,hhost,?_,hp ▸ hport,?_⟩
  · rw [hostOf_eq]
    omega
  · rwa [Request.of,hdrop] at hlen

theorem Clean.sends {url : Text} (h : Clean url.bytes) : SendsHost url.bytes := by
  intro domain hdomain
  have hcap := not_capital h.blank h.scheme
  have hhost : AntUrl.host url.bytes = hostOf (withoutScheme url.bytes) := by
    rw [AntUrl.host,h.blank]
  obtain ⟨-,hnul,hcstr⟩ := holdsHost_of_host (by decide) (hhost ▸ h.host) hcap domain hdomain
  have hshort := h.short
  rw [hhost,List.take_of_length_le (by omega)] at hcstr
  have hsplit : authority (withoutScheme url.bytes) = hostOf (withoutScheme url.bytes)++
      (authority (withoutScheme url.bytes)).dropWhile (· ≠ 58) := by
    rw [hostOf_eq,List.takeWhile_append_dropWhile]
  have hreq : Request.of url.bytes = wanted url.bytes := by
    rw [Request.of,drop_schemeLength h.scheme]
    rfl
  have hlength : url.bytes.length ≤ 4088 := by
    have hlines := length_le_lines url.bytes
    have hfits := h.fits
    rw [hreq] at hlines
    omega
  have hstored : Request.of ((urlModify url.bytes).getD url.bytes) = Request.of url.bytes :=
    request_stored fun _ => hlength
  refine ⟨hnul,(authority (withoutScheme url.bytes)).dropWhile (· ≠ 58),
    (withoutScheme url.bytes).drop (authority (withoutScheme url.bytes)).length,h.port,?_,?_,?_⟩
  · rw [h.blank]
    change _ = cstr (urlToDomain domain url.bytes)++_
    rw [hcstr,← List.append_assoc,← hsplit,authority_append]
  · change Request.of ((urlModify url.bytes).getD url.bytes) =
      ⟨_,cstr (urlToDomain domain url.bytes)++_⟩
    rw [hstored,hreq,hcstr,← hsplit]
    rfl
  · rw [lines_prefix_iff]
    change (Request.of ((urlModify url.bytes).getD url.bytes)).lines.length ≤ 4094
    rw [hstored,hreq]
    exact h.fits

/-- The host that is resolved is the host that is sent exactly for the URLs of this kind. -/
theorem sendsHost_iff (url : Text) : SendsHost url.bytes ↔ Clean url.bytes :=
  ⟨SendsHost.clean,Clean.sends⟩

/-- `HTTP://x/` -/
theorem not_sendsHost_upper : ¬∀ url : Text, SendsHost url.bytes := by
  intro h
  have hclean := (h ⟨ascii "HTTP://x/",by decide⟩).clean
  have hscheme := hclean.scheme (by decide)
  revert hscheme
  decide

end AntSend
end RecycleBin
