import RecycleBin.NgInet

/-! Which addresses `ParseUrl` takes apart into the host, the port and the URI they are
written from. -/
namespace RecycleBin
namespace NgInet
open GurlCal (Bytes Literal IntLit Sign atoi decimal isDigit)
open GoSlice CString
open NgParse (ERROR)

structure Host where
  text : Bytes
  ne_nil : text ≠ []
  colon : 58 ∉ text
  slash : 47 ∉ text
  query : 63 ∉ text
  bracket : 91 ∉ text

structure Port where
  num : Literal
  one_le : 1 ≤ num.val
  le_max : num.val ≤ 65535

structure Uri where
  text : Bytes
  led : text.head? = some 47 ∨ text.head? = some 63

/-- `host[:port][uri]`, or a port alone. -/
inductive Target
  | host (host : Host) (port : Option Port) (uri : Option Uri)
  | bare (port : Port)

def portText : Option Port → Bytes
  | some port => 58::port.num.digits
  | none => []

def uriText : Option Uri → Bytes
  | some uri => uri.text
  | none => []

namespace Target

def text : Target → Bytes
  | host h port uri => h.text++(portText port++uriText uri)
  | bare port => port.num.digits

/-- A URI needs `UriPart`; a port alone is for `Listen`, which takes no URI. -/
def Allowed (listen uriPart : Bool) : Target → Prop
  | host _ _ uri => uri.isSome = true → uriPart = true ∧ listen = false
  | bare _ => listen = true

/-- The fields of the result are the components. -/
def Reads (defaultPort : ℤ) (t : Target) (r : Except Fault (ℤ × URL)) : Prop :=
  ∃ u, r = .ok (OK,u) ∧
    match t with
    | host h port uri => u.Host = h.text ∧ u.Port = port.elim defaultPort (fun p => p.num.val) ∧
        u.NoPort = port.isNone ∧ u.PortText = port.elim [] (fun p => p.num.digits) ∧
        u.Uri = uriText uri
    | bare port => u.Host = [] ∧ u.Port = port.num.val ∧ u.NoPort = false ∧
        u.PortText = port.num.digits ∧ u.Uri = []

/-- There is no URI behind a port, a host with a port is not `unix`, and a host without a
port that is to be listened on reads as `-1`. -/
def Readable (listen : Bool) : Target → Prop
  | host h port uri => (port.isSome = true → uri.isNone = true ∧ isUnix (h.text++[58]) = false) ∧
      (port.isNone = true → listen = true → atoiNumber h.text = -1)
  | bare _ => True

end Target

/-! ### The numbers of the ports -/

theorem Port.portNumber (p : Port) : portNumber p.num.digits = some p.num.val := by
  have h1 := p.one_le
  have h2 := p.le_max
  rw [NgInet.portNumber,p.num.atoi_digits,if_pos (by omega)]
  simp only [Option.filter,h1,h2,and_self,decide_true,if_true]

theorem Port.atoiNumber (p : Port) : atoiNumber p.num.digits = p.num.val := by
  have h2 := p.le_max
  rw [NgInet.atoiNumber,p.num.atoi_digits,if_pos (by omega)]

/-- A text `Atoi` takes is of digits and signs. -/
theorem atoi_bytes {s : Bytes} {v : ℤ} (h : atoi s = some v) : ∀ b ∈ s, isDigit b = true ∨ b = 43 ∨ b = 45 := by
  obtain ⟨a,rfl,-⟩ := NgParse.atoi_eq_some h
  intro b hb
  rw [IntLit.text] at hb
  rcases List.mem_append.mp hb with hb | hb
  · right
    cases hs : a.sign with
    | none =>
      rw [hs] at hb
      cases hb
    | plus =>
      rw [hs] at hb
      exact .inl (List.mem_singleton.mp hb)
    | minus =>
      rw [hs] at hb
      exact .inr (List.mem_singleton.mp hb)
  · exact .inl (a.abs.isDigit b hb)

theorem Uri.cons (w : Uri) : ∃ c t, w.text = c::t ∧ (c = 47 ∨ c = 63) := by
  have hled := w.led
  rcases h : w.text with _ | ⟨c,t⟩
  · simp [h] at hled
  · exact ⟨c,t,rfl,by simpa [h] using hled⟩

theorem portNumber_uri (p : Port) (w : Uri) : portNumber (p.num.digits++w.text) = none := by
  obtain ⟨c,t,hw,hc⟩ := w.cons
  have hnone : atoi (p.num.digits++w.text) = none := by
    by_contra hne
    obtain ⟨v,hv⟩ := Option.ne_none_iff_exists'.mp hne
    have hb := atoi_bytes hv c (by simp [hw])
    rcases hc with rfl | rfl <;> revert hb <;> decide
  rw [portNumber,hnone]
  rfl

theorem Port.notMem (p : Port) {b : UInt8} (hb : isDigit b = false) : b ∉ p.num.digits := by
  intro hmem
  rw [p.num.isDigit b hmem] at hb
  cases hb

/-! ### The schemes -/

theorem eq_colon_of_tolower {b : UInt8} (h : AntVisited.tolower b = 58) : b = 58 :=
  (tolower_cases h).resolve_right fun hc => absurd hc.1 (by decide)

/-- `unix:` is four bytes without a delimiter, and a colon. -/
theorem isUnix_split {s : Bytes} (h : isUnix s = true) : ∃ x y, s = x++58::y ∧ isUnix (x++[58]) = true ∧
    ∀ b ∈ x, b ≠ 58 ∧ b ≠ 47 ∧ b ≠ 63 ∧ b ≠ 91 := by
  have hlen := isUnix_length h
  have hword : (ascii "unix:").map AntVisited.tolower = [117,110,105,120,58] := by decide
  have hletter : ∀ b : UInt8, AntVisited.tolower b ∈ ([117,110,105,120] : Bytes) →
      b ≠ 58 ∧ b ≠ 47 ∧ b ≠ 63 ∧ b ≠ 91 := by
    intro b hb
    refine ⟨?_,?_,?_,?_⟩ <;> rintro rfl <;> revert hb <;> decide
  have htake := h
  rw [isUnix,strcaseeq,decide_eq_true_eq,hword] at h
  rcases s with _ | ⟨a,_ | ⟨b,_ | ⟨c,_ | ⟨d,_ | ⟨e,y⟩⟩⟩⟩⟩
  all_goals try simp at hlen
  simp only [List.take_succ_cons,List.take_zero,List.map_cons,List.map_nil,List.cons.injEq,
    and_true] at h
  obtain ⟨ha,hb,hc,hd,he⟩ := h
  obtain rfl := eq_colon_of_tolower he
  refine ⟨[a,b,c,d],y,rfl,htake,?_⟩
  intro l hl
  apply hletter
  simp only [List.mem_cons,List.not_mem_nil,or_false] at hl
  rcases hl with rfl | rfl | rfl | rfl <;> simp [*]

/-- What stands behind a host begins with a delimiter. -/
theorem isUnix_host (h : Host) {r : Bytes} (hr : ∀ c t, r = c::t → c = 58 ∨ c = 47 ∨ c = 63)
    (hu : isUnix (h.text++r) = true) : (∃ t, r = 58::t) ∧ isUnix (h.text++[58]) = true := by
  obtain ⟨x,y,hxy,hx,hplain⟩ := isUnix_split hu
  let p : UInt8 → Bool := fun b => b ≠ 58 ∧ b ≠ 47 ∧ b ≠ 63
  have hcut : ∀ {a t : Bytes}, (∀ b ∈ a, p b = true) → (∀ c t', t = c::t' → p c = false) →
      (a++t).takeWhile p = a := by
    intro a t ha ht
    rw [List.takeWhile_append_of_pos ha]
    rcases t with _ | ⟨c,t⟩
    · simp
    · rw [List.takeWhile_cons_of_neg (by simp [ht c t rfl]),List.append_nil]
  have hhost : (h.text++r).takeWhile p = h.text := by
    refine hcut (fun b hb => ?_) fun c t hct => ?_
    · refine decide_eq_true ⟨?_,?_,?_⟩ <;> rintro rfl
      · exact h.colon hb
      · exact h.slash hb
      · exact h.query hb
    · rcases hr c t hct with rfl | rfl | rfl <;> rfl
  have hword : (x++58::y).takeWhile p = x := by
    refine hcut (fun b hb => ?_) fun c t hct => ?_
    · obtain ⟨h1,h2,h3,-⟩ := hplain b hb
      exact decide_eq_true ⟨h1,h2,h3⟩
    · cases hct
      rfl
  have hsame : h.text = x := by rw [← hhost,hxy,hword]
  rw [hsame] at hxy ⊢
  exact ⟨⟨y,List.append_cancel_left hxy⟩,hx⟩

theorem isUnix_append {s : Bytes} (h : isUnix s = true) (t : Bytes) : isUnix (s++t) = true := by
  rw [isUnix,List.take_append_of_le_length (isUnix_length h)]
  exact h

/-- The parser of sockets sets no port. -/
theorem parseUnixDomainUrl_port {u : URL} {r : ℤ × URL} (h : parseUnixDomainUrl u = .ok r) :
    r.2.Port = u.Port := by
  rw [parseUnixDomainUrl] at h
  obtain ⟨⟨length,v⟩,hv,h⟩ := bind_eq_ok.mp h
  have hport : v.Port = u.Port := by
    rw [unixUri] at hv
    split_ifs at hv
    · obtain ⟨s,-,hv⟩ := bind_eq_ok.mp hv
      dsimp only at hv
      split_ifs at hv
      · obtain ⟨s',-,hv⟩ := bind_eq_ok.mp hv
        cases hv
        rfl
      · cases hv
        rfl
    · cases hv
      rfl
  rw [← hport]
  dsimp only at h
  split_ifs at h
  · cases h
    rfl
  · obtain ⟨s,-,h⟩ := bind_eq_ok.mp h
    cases h
    rfl

/-! ### The branches of `parseInetUrl` -/

/-- Without a slash and a question mark there is no URI. -/
theorem parseInetUrl_plain {u : URL} (hslash : 47 ∉ u.Url) (hquery : 63 ∉ u.Url) :
    parseInetUrl u = inetPort { u with Family := .tcp } (index u.Url 58) (-1) u.Url.length := by
  rw [parseInetUrl,sliceFrom_zero,ok_bind]
  dsimp only
  rw [index_of_notMem hslash,index_of_notMem hquery,if_neg (by omega),if_neg (by omega)]

/-- The URI begins at the first slash or question mark; a colon in it starts no port. -/
theorem parseInetUrl_uri {u : URL} {a b : Bytes} {c : UInt8} (hs : u.Url = a++c::b)
    (hslash : 47 ∉ a) (hquery : 63 ∉ a) (hc : c = 47 ∨ c = 63) (hlisten : u.Listen = false)
    (hpart : u.UriPart = true) :
    parseInetUrl u = inetPort { u with Family := .tcp,Uri := c::b }
      (if (a.length : ℤ) < index u.Url 58 then -1 else index u.Url 58) a.length a.length := by
  have hle : ∀ d : UInt8, d ∉ a → index u.Url d = -1 ∨ (a.length : ℤ) ≤ index u.Url d := by
    intro d hd
    rcases index_cases u.Url d with ⟨-,h⟩ | ⟨x,y,hxy,hx,h⟩
    · exact .inl h
    · right
      rw [hs] at hxy
      rw [h]
      by_contra hlt
      obtain ⟨w,hw⟩ : ∃ w, a = x++d::w := by
        rcases List.append_eq_append_iff.mp hxy with ⟨w,hw,hy⟩ | ⟨w,hw,hy⟩
        · rw [hw,List.length_append] at hlt
          omega
        · rcases w with _ | ⟨e,w⟩
          · rw [hw,List.append_nil] at hlt
            omega
          · rw [List.cons_append,List.cons.injEq] at hy
            exact ⟨w,by rw [hw,hy.1]⟩
      exact hd (by simp [hw])
  have hfirst : (if index u.Url 63 ≠ -1 ∧ (index u.Url 47 = -1 ∨ index u.Url 63 < index u.Url 47)
      then index u.Url 63 else index u.Url 47) = a.length := by
    have h47 := hle 47 hslash
    have h63 := hle 63 hquery
    rcases hc with rfl | rfl
    · have hi : index u.Url 47 = a.length := by rw [hs,index_append hslash]
      rw [if_neg (by omega),hi]
    · have hi : index u.Url 63 = a.length := by rw [hs,index_append hquery]
      by_cases heq : index u.Url 47 = a.length
      · -- one byte is not both
        exfalso
        rcases index_cases u.Url 47 with ⟨-,h⟩ | ⟨x,y,hxy,-,h⟩
        · omega
        · rw [hs] at hxy
          have hlen : a.length = x.length := by omega
          have hcons := (List.append_inj hxy hlen).2
          cases hcons
      · rw [if_pos (by omega),hi]
  rw [parseInetUrl,sliceFrom_zero,ok_bind]
  dsimp only
  rw [hfirst,if_pos (by omega),hlisten,hpart]
  have hslice : sliceFrom u.Url (a.length : ℤ) = .ok (c::b) := by
    rw [hs]
    exact sliceFrom_append rfl
  simp only [Bool.false_eq_true,Bool.not_true,or_self,if_false,hslice,ok_bind]

/-! ### The targets -/

theorem Host.length_pos (h : Host) : 0 < h.text.length := List.length_pos_of_ne_nil h.ne_nil

theorem Host.parseUrl_eq (h : Host) {r : Bytes} (hu : isUnix (h.text++r) = false) {u : URL}
    (hurl : u.Url = h.text++r) : parseUrl u = parseInetUrl u := by
  obtain ⟨b,t,ht⟩ := List.exists_cons_of_ne_nil h.ne_nil
  have hb : b ≠ 91 := by
    rintro rfl
    exact h.bracket (by simp [ht])
  rw [parseUrl,hurl,hu,if_neg Bool.false_ne_true,if_neg (by simp [ht,hb])]

/-- Cut at its end the host is found. -/
theorem Host.inetHost_eq (h : Host) {r : Bytes} {u : URL} (hurl : u.Url = h.text++r) :
    ∃ family wildcard addrs, inetHost u h.text.length = .ok (OK,{ u with
      Host := h.text,Family := family,Wildcard := wildcard,Addrs := addrs }) := by
  have hlen := h.length_pos
  have hle : (h.text.length : ℤ) ≤ u.Url.length := by
    rw [hurl,List.length_append]
    omega
  obtain ⟨family,wildcard,addrs,hok⟩ := inetHost_spec (Int.natCast_pos.mpr hlen) hle
  have htake : u.Url.take (h.text.length : ℤ).toNat = h.text := by
    rw [hurl,Int.toNat_natCast,List.take_left]
  rw [htake] at hok
  exact ⟨family,wildcard,addrs,hok⟩

/-- Only a host with a port can be taken for the scheme of a socket. -/
theorem Host.not_isUnix (h : Host) {r : Bytes} (hr : ∀ c t, r = c::t → c = 47 ∨ c = 63) :
    isUnix (h.text++r) = false := by
  rw [Bool.eq_false_iff]
  intro hu
  obtain ⟨t,ht⟩ := (isUnix_host h (fun c t hct => .inr (hr c t hct)) hu).1
  have h58 := hr 58 t ht
  revert h58
  decide

section Targets
variable (h : Host) (p : Port) (w : Uri) (defaultPort : ℤ) (listen uriPart noResolve : Bool)

theorem text_port : (Target.host h (some p) none).text = h.text++58::p.num.digits := by
  rw [Target.text,portText,uriText,List.append_nil]

theorem text_host : (Target.host h none none).text = h.text := by
  rw [Target.text,portText,uriText,List.append_nil,List.append_nil]

theorem parseUrl_port (hunix : isUnix (h.text++[58]) = false) :
    ∃ wildcard addrs family, parseUrl
      (.request (Target.host h (some p) none).text defaultPort listen uriPart noResolve) = .ok (OK,{
        URL.request (Target.host h (some p) none).text defaultPort listen uriPart noResolve with
          Host := h.text,Port := p.num.val,PortText := p.num.digits
          Family := family,Wildcard := wildcard,Addrs := addrs }) := by
  have hno : isUnix (h.text++58::p.num.digits) = false := by
    rw [Bool.eq_false_iff]
    intro hu
    have hx := (isUnix_host h (fun c t hct => .inl (List.cons.inj hct).1.symm) hu).2
    rw [hunix] at hx
    cases hx
  generalize hu : URL.request (Target.host h (some p) none).text defaultPort listen uriPart noResolve = u
  have hurl : u.Url = h.text++58::p.num.digits := by rw [← hu,← text_port]; rfl
  have hslash : 47 ∉ u.Url := by
    simp [hurl,h.slash,p.notMem (b:=47) rfl]
  have hquery : 63 ∉ u.Url := by
    simp [hurl,h.query,p.notMem (b:=63) rfl]
  have hindex : index u.Url 58 = h.text.length := by rw [hurl,index_append h.colon]
  have hslice : sliceFrom u.Url ((h.text.length : ℤ)+1) = .ok p.num.digits := by
    have happ : u.Url = (h.text++[58])++p.num.digits := by simp [hurl]
    rw [happ]
    exact sliceFrom_append (by simp)
  rw [h.parseUrl_eq hno hurl,parseInetUrl_plain hslash hquery,hindex,inetPort,if_pos (by omega),
    hslice,ok_bind,p.portNumber]
  obtain ⟨family,wildcard,addrs,hok⟩ := h.inetHost_eq
    (u:={ u with Family := .tcp,Port := p.num.val,PortText := p.num.digits }) hurl
  exact ⟨wildcard,addrs,family,hok⟩

/-- A host with a port and nothing behind it is taken apart. -/
theorem reads_port (hunix : isUnix (h.text++[58]) = false) :
    (Target.host h (some p) none).Reads defaultPort
      (parseUrl (.request (Target.host h (some p) none).text defaultPort listen uriPart noResolve)) := by
  obtain ⟨wildcard,addrs,family,hok⟩ :=
    parseUrl_port h p defaultPort listen uriPart noResolve hunix
  exact ⟨_,hok,rfl,rfl,rfl,rfl,rfl⟩

/-- So is a host with a URI; a colon in the URI does no harm. -/
theorem reads_uri :
    (Target.host h none (some w)).Reads defaultPort
      (parseUrl (.request (Target.host h none (some w)).text defaultPort false true noResolve)) := by
  obtain ⟨c,t,hw,hc⟩ := w.cons
  generalize hu : URL.request (Target.host h none (some w)).text defaultPort false true noResolve = u
  have hurl : u.Url = h.text++c::t := by rw [← hu,← hw]; rfl
  have hno : isUnix (h.text++c::t) = false := by
    refine h.not_isUnix fun d t' hdt => ?_
    rw [← (List.cons.inj hdt).1]
    exact hc
  have hport : (if (h.text.length : ℤ) < index u.Url 58 then -1 else index u.Url 58) = -1 := by
    rcases index_cases u.Url 58 with ⟨-,hi⟩ | ⟨x,y,hxy,hx,hi⟩
    · rw [hi,ite_self]
    · rw [if_pos]
      -- a colon is behind the first byte of the URI
      by_contra hlt
      have hcx : c ≠ 58 := by rcases hc with rfl | rfl <;> decide
      rw [hurl] at hxy
      rcases List.append_eq_append_iff.mp hxy with ⟨v,hv,hy⟩ | ⟨v,hv,hy⟩
      · rcases v with _ | ⟨d,v⟩
        · exact hcx (List.cons.inj hy).1
        · rw [hi,hv,List.length_append,List.length_cons] at hlt
          omega
      · rcases v with _ | ⟨d,v⟩
        · exact hcx (List.cons.inj hy).1.symm
        · rw [List.cons_append,List.cons.injEq] at hy
          exact h.colon (by simp [hv,hy.1])
  rw [h.parseUrl_eq hno hurl,parseInetUrl_uri hurl h.slash h.query hc (by rw [← hu]; rfl)
    (by rw [← hu]; rfl),hport,inetPort,if_neg (by omega),if_neg fun hcon => by omega]
  obtain ⟨family,wildcard,addrs,hok⟩ := h.inetHost_eq
    (u:={ u with Family := .tcp,Uri := c::t,NoPort := true,Port := u.DefaultPort }) hurl
  refine ⟨_,hok,rfl,?_,rfl,?_,?_⟩
  · rw [← hu]
    rfl
  · rw [← hu]
    rfl
  · rw [uriText,hw]

/-- A host named like the scheme of the sockets is taken for it. -/
theorem not_reads_unix (uri : Option Uri) (hunix : isUnix (h.text++[58]) = true) :
    ¬(Target.host h (some p) uri).Reads defaultPort
      (parseUrl (.request (Target.host h (some p) uri).text defaultPort listen uriPart noResolve)) := by
  have htext : (Target.host h (some p) uri).text = (h.text++[58])++(p.num.digits++uriText uri) := by
    simp [Target.text,portText]
  generalize hu : URL.request (Target.host h (some p) uri).text defaultPort listen uriPart noResolve = u
  have hurl : u.Url = (h.text++[58])++(p.num.digits++uriText uri) := by rw [← hu,← htext]; rfl
  have hscheme : isUnix u.Url = true := by
    rw [hurl]
    exact isUnix_append hunix _
  rw [parseUrl,if_pos hscheme]
  rintro ⟨v,hv,-,hport,-⟩
  have hzero : v.Port = u.Port := parseUnixDomainUrl_port hv
  have hnew : u.Port = 0 := by rw [← hu]; rfl
  have hpos := p.one_le
  rw [Option.elim_some] at hport
  omega

/-- What stands behind the port is read with it. -/
theorem not_reads_both :
    ¬(Target.host h (some p) (some w)).Reads defaultPort
      (parseUrl (.request (Target.host h (some p) (some w)).text defaultPort false true noResolve)) := by
  cases hunix : isUnix (h.text++[58]) with
  | true => exact not_reads_unix h p defaultPort false true noResolve (some w) hunix
  | false =>
    obtain ⟨c,t,hw,hc⟩ := w.cons
    have htext : (Target.host h (some p) (some w)).text = h.text++58::(p.num.digits++w.text) := rfl
    generalize hu :
      URL.request (Target.host h (some p) (some w)).text defaultPort false true noResolve = u
    have hurl : u.Url = h.text++58::(p.num.digits++w.text) := by rw [← hu,← htext]; rfl
    have hcut : u.Url = (h.text++58::p.num.digits)++c::t := by simp [hurl,hw]
    have hno : isUnix (h.text++58::(p.num.digits++w.text)) = false := by
      rw [Bool.eq_false_iff]
      intro hx
      have hy := (isUnix_host h (fun c t hct => .inl (List.cons.inj hct).1.symm) hx).2
      rw [hunix] at hy
      cases hy
    have hindex : index u.Url 58 = h.text.length := by rw [hurl,index_append h.colon]
    have hslice : sliceFrom u.Url ((h.text.length : ℤ)+1) = .ok (p.num.digits++w.text) := by
      have happ : u.Url = (h.text++[58])++(p.num.digits++w.text) := by simp [hurl]
      rw [happ]
      exact sliceFrom_append (by simp)
    have hslash : 47 ∉ h.text++58::p.num.digits := by simp [h.slash,p.notMem (b:=47) rfl]
    have hquery : 63 ∉ h.text++58::p.num.digits := by simp [h.query,p.notMem (b:=63) rfl]
    have hport : ¬((h.text++58::p.num.digits).length : ℤ) < h.text.length := by
      rw [List.length_append]
      omega
    rw [h.parseUrl_eq hno hurl,parseInetUrl_uri hcut hslash hquery hc (by rw [← hu]; rfl)
      (by rw [← hu]; rfl),hindex,if_neg hport,inetPort,if_pos (by omega),hslice,ok_bind,portNumber_uri]
    rintro ⟨v,hv,-⟩
    cases hv

/-- A host alone is taken apart, unless it is to be listened on and does not read as `-1`. -/
theorem reads_host (hlisten : listen = true → atoiNumber h.text = -1) :
    (Target.host h none none).Reads defaultPort
      (parseUrl (.request (Target.host h none none).text defaultPort listen uriPart noResolve)) := by
  generalize hu : URL.request (Target.host h none none).text defaultPort listen uriPart noResolve = u
  have hurl : u.Url = h.text++[] := by rw [← hu,List.append_nil,← text_host]; rfl
  have hurl' : u.Url = h.text := hurl.trans (List.append_nil _)
  have hno : isUnix (h.text++[]) = false := h.not_isUnix fun c t hct => by cases hct
  have hslash : 47 ∉ u.Url := by rw [hurl']; exact h.slash
  have hquery : 63 ∉ u.Url := by rw [hurl']; exact h.query
  have hindex : index u.Url 58 = -1 := by rw [hurl',index_of_notMem h.colon]
  have hparse : parseUrl u =
      inetHost { u with Family := .tcp,NoPort := true,Port := u.DefaultPort } h.text.length := by
    rw [h.parseUrl_eq hno hurl,parseInetUrl_plain hslash hquery,hindex,inetPort,if_neg (by omega)]
    by_cases hl : listen = true
    · have hul : u.Listen = true := by rw [← hu]; exact hl
      have hn : atoiNumber u.Url = ERROR := by rw [hurl']; exact hlisten hl
      rw [if_pos ⟨rfl,hul⟩,sliceFrom_zero,ok_bind]
      dsimp only
      rw [if_neg (not_not.mpr hn),hurl']
    · have hul : ¬((-1 : ℤ) = -1 ∧ u.Listen = true) := by
        rw [← hu]
        exact fun hcon => hl hcon.2
      rw [if_neg hul,hurl']
  obtain ⟨family,wildcard,addrs,hok⟩ := h.inetHost_eq
    (u:={ u with Family := .tcp,NoPort := true,Port := u.DefaultPort }) hurl
  refine ⟨_,hparse.trans hok,rfl,?_,rfl,?_,?_⟩
  · rw [← hu]
    rfl
  · rw [← hu]
    rfl
  · rw [← hu]
    rfl

/-- To be listened on it is read as a port. -/
theorem not_reads_host (hn : atoiNumber h.text ≠ -1) :
    ¬(Target.host h none none).Reads defaultPort
      (parseUrl (.request (Target.host h none none).text defaultPort true uriPart noResolve)) := by
  generalize hu : URL.request (Target.host h none none).text defaultPort true uriPart noResolve = u
  have hurl : u.Url = h.text++[] := by rw [← hu,List.append_nil,← text_host]; rfl
  have hurl' : u.Url = h.text := hurl.trans (List.append_nil _)
  have hno : isUnix (h.text++[]) = false := h.not_isUnix fun c t hct => by cases hct
  have hslash : 47 ∉ u.Url := by rw [hurl']; exact h.slash
  have hquery : 63 ∉ u.Url := by rw [hurl']; exact h.query
  have hindex : index u.Url 58 = -1 := by rw [hurl',index_of_notMem h.colon]
  have hul : u.Listen = true := by rw [← hu]; rfl
  have hhost : u.Host = [] := by rw [← hu]; rfl
  rw [h.parseUrl_eq hno hurl,parseInetUrl_plain hslash hquery,hindex,inetPort,if_neg (by omega),
    if_pos ⟨rfl,hul⟩,sliceFrom_zero,ok_bind]
  dsimp only
  have herr : atoiNumber h.text ≠ ERROR := hn
  rw [hurl',if_pos herr]
  split_ifs
  · rintro ⟨v,hv,-⟩
    cases hv
  · rintro ⟨v,hv,hv',-⟩
    cases hv
    exact h.ne_nil (hv'.symm.trans hhost)

theorem parseUrl_bare : parseUrl (.request p.num.digits defaultPort true uriPart noResolve) = .ok (OK,{
    URL.request p.num.digits defaultPort true uriPart noResolve with
      Family := .tcp,Port := p.num.val,PortText := p.num.digits,Addr := 58::p.num.digits
      Wildcard := true }) := by
  have hcolon : 58 ∉ p.num.digits := p.notMem rfl
  have hno : isUnix p.num.digits = false := by
    rw [Bool.eq_false_iff]
    intro hx
    obtain ⟨x,y,hxy,-⟩ := isUnix_split hx
    exact hcolon (by simp [hxy])
  have hhead : ¬p.num.digits.head? = some 91 := by
    intro hx
    exact p.notMem (b:=91) rfl (List.mem_of_mem_head? hx)
  have h1 := p.one_le
  have h2 := p.le_max
  have hn : p.num.val ≠ ERROR := by
    rw [ERROR]
    omega
  generalize hu : URL.request p.num.digits defaultPort true uriPart noResolve = u
  have hurl : u.Url = p.num.digits := by rw [← hu]; rfl
  have hul : u.Listen = true := by rw [← hu]; rfl
  have hslash : 47 ∉ u.Url := by rw [hurl]; exact p.notMem rfl
  have hquery : 63 ∉ u.Url := by rw [hurl]; exact p.notMem rfl
  have hindex : index u.Url 58 = -1 := by rw [hurl,index_of_notMem hcolon]
  rw [parseUrl,hurl,hno,if_neg Bool.false_ne_true,if_neg hhead,parseInetUrl_plain hslash hquery,hindex,
    inetPort,if_neg (by omega),if_pos ⟨rfl,hul⟩,sliceFrom_zero,ok_bind]
  dsimp only
  rw [hurl,p.atoiNumber,if_pos hn,if_neg (by omega)]
  rfl

end Targets

/-- `ParseUrl` gives the components of a target back exactly if it is readable. -/
theorem reads_iff (t : Target) (defaultPort : ℤ) (listen uriPart noResolve : Bool)
    (h : t.Allowed listen uriPart) :
    t.Reads defaultPort (parseUrl (.request t.text defaultPort listen uriPart noResolve)) ↔
      t.Readable listen := by
  cases t with
  | bare p =>
    cases h
    exact iff_of_true ⟨_,parseUrl_bare p defaultPort uriPart noResolve,rfl,rfl,rfl,rfl,rfl⟩ trivial
  | host h' port uri =>
    rcases port with _ | p <;> rcases uri with _ | w
    · by_cases hn : listen = true → atoiNumber h'.text = -1
      · exact iff_of_true (reads_host h' defaultPort listen uriPart noResolve hn)
          (And.intro (fun hp => by cases hp) fun _ => hn)
      · obtain ⟨hl,hne⟩ := Classical.not_imp.mp hn
        subst hl
        exact iff_of_false (not_reads_host h' defaultPort uriPart noResolve hne)
          fun hr => hn (hr.2 rfl)
    · obtain ⟨hpart,hl⟩ := h rfl
      subst hpart hl
      exact iff_of_true (reads_uri h' w defaultPort noResolve)
        (And.intro (fun hp => by cases hp) fun _ hl => by cases hl)
    · cases hunix : isUnix (h'.text++[58]) with
      | true =>
        refine iff_of_false (not_reads_unix h' p defaultPort listen uriPart noResolve none hunix)
          fun hr => ?_
        rw [(hr.1 rfl).2] at hunix
        cases hunix
      | false =>
        exact iff_of_true (reads_port h' p defaultPort listen uriPart noResolve hunix)
          (And.intro (fun _ => ⟨rfl,hunix⟩) fun hp => by cases hp)
    · obtain ⟨hpart,hl⟩ := h rfl
      subst hpart hl
      refine iff_of_false (not_reads_both h' p w defaultPort noResolve) fun hr => ?_
      cases (hr.1 rfl).1

/-- `localhost`, and port 80. -/
def localhost : Host := ⟨ascii "localhost",by decide,by decide,by decide,by decide,by decide⟩

def port80 : Port := ⟨⟨ascii "80",by decide,List.all_eq_true.mp (by decide)⟩,by decide,by decide⟩

theorem reads_iff_localhost : (Target.host localhost (some port80) none).Allowed false true ∧
    ((Target.host localhost (some port80) none).Reads 80
      (parseUrl (.request (Target.host localhost (some port80) none).text 80 false true false)) ↔
        (Target.host localhost (some port80) none).Readable false) := by
  have h : (Target.host localhost (some port80) none).Allowed false true := fun hu => by cases hu
  exact ⟨h,reads_iff _ 80 false true false h⟩

/-- `localhost:80/index`. -/
theorem not_reads_index : ¬(Target.host localhost (some port80) (some ⟨ascii "/index",.inl rfl⟩)).Reads 80
    (parseUrl (.request (ascii "localhost:80/index") 80 false true false)) :=
  not_reads_both localhost port80 ⟨ascii "/index",.inl rfl⟩ 80 false

/-! ### Addresses in brackets -/

/-- A run of digits at the front of a text, and what is left of it. -/
theorem notMem_takeWhile {f : UInt8 → Bool} {b : UInt8} (hb : f b = false) {s : Bytes}
    (h : b ∉ s.drop (s.takeWhile f).length) : b ∉ s := by
  have hs : s = s.takeWhile f++s.drop (s.takeWhile f).length := by
    conv_lhs => rw [← List.take_append_drop (s.takeWhile f).length s]
    rw [← List.prefix_iff_eq_take.mp (List.takeWhile_prefix f)]
  rw [hs]
  refine List.not_mem_append (fun hmem => ?_) h
  rw [List.mem_takeWhile_imp hmem] at hb
  cases hb

theorem parseOctets_bracket {n : ℕ} {s ip : Bytes} (h : parseOctets n s = some ip) : 93 ∉ s := by
  induction n generalizing s ip with
  | zero =>
    rw [parseOctets.eq_def] at h
    dsimp only at h
    split at h
    · cases h
    refine notMem_takeWhile (f:=isDigit) rfl ?_
    split at h
    · rename_i hnil
      rw [hnil]
      exact List.not_mem_nil
    · rename_i hn _
      cases hn
    · cases h
  | succ n ih =>
    rw [parseOctets.eq_def] at h
    dsimp only at h
    split at h
    · cases h
    refine notMem_takeWhile (f:=isDigit) rfl ?_
    split at h
    · rename_i hn _
      cases hn
    · rename_i m t hn ht
      cases hn
      obtain ⟨ip',hip,-⟩ := Option.map_eq_some_iff.mp h
      rw [ht]
      simpa using ih hip
    · cases h

theorem parseGroups_bracket {n : ℕ} {ip : Bytes} {e : Option ℕ} {s : Bytes}
    {r : Bytes × Option ℕ × Bytes} (h : parseGroups n ip e s = some r) (hr : r.2.2 = []) : 93 ∉ s := by
  induction n generalizing ip e s with
  | zero =>
    cases h
    rw [show s = [] from hr]
    exact List.not_mem_nil
  | succ n ih =>
    rw [parseGroups.eq_def] at h
    dsimp only at h
    split at h
    · cases h
    refine notMem_takeWhile (f:=fun b => (hexDigit b).isSome) rfl ?_
    split at h
    · rename_i hnil
      rw [hnil]
      exact List.not_mem_nil
    · -- the dotted end is read from its first number on
      split_ifs at h
      obtain ⟨ip4,hip,-⟩ := Option.map_eq_some_iff.mp h
      exact fun hmem => parseOctets_bracket hip (List.mem_of_mem_drop hmem)
    · rename_i t ht
      rw [ht]
      split_ifs at h with _ hnil
      · simp [hnil]
      · simpa using ih h
    · rename_i c t _ ht
      rw [ht]
      simpa using ih h
    · cases h

/-- No address has a bracket in it. -/
theorem parseIP_bracket {s ip : Bytes} (h : parseIP s = some ip) : 93 ∉ s := by
  have hgroups : ∀ {e : Option ℕ} {t : Bytes}, (parseGroups 8 [] e t).bind expand = some ip → 93 ∉ t := by
    intro e t ht
    obtain ⟨⟨ip',e',r⟩,hr,hx⟩ := Option.bind_eq_some_iff.mp ht
    refine parseGroups_bracket hr ?_
    by_contra hne
    have hnone : expand (ip',e',r) = none := if_pos hne
    rw [hnone] at hx
    cases hx
  rw [parseIP] at h
  split at h
  · split_ifs at h
    · obtain ⟨ip4,hip,-⟩ := Option.map_eq_some_iff.mp h
      exact parseOctets_bracket hip
    · rw [parseIPv6.eq_def] at h
      split at h
      · decide
      · simpa using hgroups h
      · exact hgroups h
  · cases h

/-- A textual IPv6 address. -/
structure Address6 where
  text : Bytes
  ip : Bytes
  parses : parseIP text = some ip
  colon : 58 ∈ text

/-- `[a][:port][uri]`, the URI from its slash on. -/
def text6 (a : Address6) (port : Option Port) (uri : Option Bytes) : Bytes :=
  91::(a.text++93::(portText port++uri.elim [] (47::·)))

/-- The address in a `Host`, with its brackets or without them. -/
def hostAddress (host : Bytes) : Option Bytes :=
  if host.head? = some 91 ∧ host.getLast? = some 93 then parseIP host.tail.dropLast else parseIP host

/-- The fields of the result are the components. -/
def Reads6 (a : Address6) (port : Option Port) (uri : Option Bytes) (defaultPort : ℤ)
    (r : Except Fault (ℤ × URL)) : Prop :=
  ∃ u, r = .ok (OK,u) ∧ u.Family = .tcp6 ∧ u.Port = port.elim defaultPort (fun p => p.num.val) ∧
    u.NoPort = port.isNone ∧ u.PortText = port.elim [] (fun p => p.num.digits) ∧
    u.Uri = uri.elim [] (47::·) ∧ hostAddress u.Host = some a.ip

/-- The port is looked for at the closing bracket. -/
theorem inet6Port_bracket {u : URL} {a r : Bytes} (hurl : u.Url = 91::(a++93::r)) (last : ℤ) :
    ∃ v, inet6Port u a.length (a.length+1) last = .ok (ERROR,v) := by
  have helem : elem u.Url ((a.length : ℤ)+1) = .ok 93 := by
    rw [hurl,← List.cons_append]
    exact elem_append (by simp)
  rw [inet6Port]
  split_ifs
  · rw [helem,ok_bind,if_pos (by decide)]
    exact ⟨_,rfl⟩
  · have hrest : sliceFrom u.Url 1 = .ok (a++93::r) := by
      rw [hurl]
      exact sliceFrom_append (a:=[91]) rfl
    have hip : parseIP (a++93::r) = none := by
      by_contra hne
      obtain ⟨ip,hip⟩ := Option.ne_none_iff_exists'.mp hne
      exact parseIP_bracket hip (by simp)
    rw [inet6Host]
    split_ifs
    · exact ⟨_,rfl⟩
    · dsimp only
      rw [sub_self,sliceFrom_zero,ok_bind,hrest,ok_bind,if_pos hip]
      exact ⟨_,rfl⟩

theorem parseInet6Url_eq {u : URL} {a r : Bytes} (hurl : u.Url = 91::(a++93::r)) (ha : 93 ∉ a) :
    parseInet6Url u =
      if index (93::r) 47 ≠ -1 then
        if u.Listen ∨ !u.UriPart then u.fail "invalid host"
        else inet6Port { u with Uri := u.Url.drop (index (93::r) 47).toNat } a.length (a.length+1)
          (index (93::r) 47)
      else inet6Port u a.length (a.length+1) u.Url.length := by
  have hrest : sliceFrom u.Url 1 = .ok (a++93::r) := by
    rw [hurl]
    exact sliceFrom_append (a:=[91]) rfl
  have hport : sliceFrom u.Url ((a.length : ℤ)+1) = .ok (93::r) := by
    rw [hurl,← List.cons_append]
    exact sliceFrom_append (by simp)
  have huri := index_lt (93::r) 47
  rw [parseInet6Url,hrest,ok_bind,index_append ha]
  dsimp only
  rw [if_neg (by omega),hport,ok_bind]
  by_cases h : index (93::r) 47 ≠ -1
  · have hlen : index (93::r) 47 ≤ u.Url.length := by
      rw [hurl,List.length_cons,List.length_append]
      omega
    rw [if_pos h,if_pos h,sliceFrom_ok (by omega) hlen,ok_bind]
  · rw [if_neg h,if_neg h]

theorem isUnix_bracket (s : Bytes) : isUnix (91::s) = false := by
  rw [Bool.eq_false_iff]
  intro hx
  obtain ⟨x,y,hxy,hunix,hplain⟩ := isUnix_split hx
  rcases x with _ | ⟨b,x⟩
  · have h5 := isUnix_length hunix
    simp at h5
  · rw [List.cons_append,List.cons.injEq] at hxy
    exact (hplain b List.mem_cons_self).2.2.2 hxy.1.symm

theorem parseUrl_text6 {a : Address6} {port : Option Port} {uri : Option Bytes} {u : URL}
    (hurl : u.Url = text6 a port uri) : parseUrl u = parseInet6Url u := by
  have hhead : u.Url.head? = some 91 := by rw [hurl]; rfl
  have hno : isUnix u.Url = false := by rw [hurl]; exact isUnix_bracket _
  rw [parseUrl,hno,if_neg Bool.false_ne_true,if_pos hhead]

theorem parseUrl_bracket {a : Address6} {port : Option Port} {uri : Option Bytes} {u : URL}
    (hurl : u.Url = text6 a port uri) : ∃ v, parseUrl u = .ok (ERROR,v) := by
  rw [parseUrl_text6 hurl,parseInet6Url_eq hurl (parseIP_bracket a.parses)]
  split_ifs
  · exact ⟨_,rfl⟩
  · refine inet6Port_bracket (r:=portText port++uri.elim [] (47::·)) ?_ _
    exact hurl
  · exact inet6Port_bracket hurl _

/-- No address in brackets is taken apart. -/
theorem not_reads6 (a : Address6) (port : Option Port) (uri : Option Bytes) (defaultPort : ℤ)
    (listen uriPart noResolve : Bool) :
    ¬Reads6 a port uri defaultPort
      (parseUrl (.request (text6 a port uri) defaultPort listen uriPart noResolve)) := by
  obtain ⟨v,hv⟩ := parseUrl_bracket
    (u:=.request (text6 a port uri) defaultPort listen uriPart noResolve) rfl
  rintro ⟨u,hu,-⟩
  rw [hv] at hu
  cases hu

def loopback : Address6 := ⟨ascii "::1",List.replicate 15 0++[1],rfl,by decide⟩

/-- `[::1]:80` is an invalid host. -/
theorem not_reads6_loopback : ¬Reads6 loopback (some port80) none 80
    (parseUrl (.request (text6 loopback (some port80) none) 80 false false false)) := by
  rintro ⟨u,hu,-⟩
  cases hu

end NgInet
end RecycleBin
