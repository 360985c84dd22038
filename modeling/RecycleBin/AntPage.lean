import RecycleBin.AntUrl
import RecycleBin.Bytes
import RecycleBin.CString

/-! The scan of a page for links, `ant_page.c`. A pointer into the page is the text from there to
the terminator, so that the pointer at the terminator is `[]`, and there is none behind it. -/
namespace RecycleBin
namespace AntPage
open AntHash AntVisited AntUrl CString RecycleBin.Bytes

/-- The types of `filter_type_url` with four characters. -/
def types : List Bytes := [".css",".ico",".xml",".gif",".jpg",".png",".exe",".chm"].map ascii

def filterTypeUrl (str : Bytes) (n : ℕ) : ℤ :=
  if startsWith http str = false ∨ strcaseeq str http then -1
  else if 3 ≤ n ∧ startsWith (ascii ".js") (str.drop (n-3)) then -1
  else if 4 ≤ n ∧ types.any fun p => startsWith p (str.drop (n-4)) then -1
  else 0

/-- `%*[" \t\r\n=']` -/
def blank (b : UInt8) : Bool := b = 34 ∨ b = 32 ∨ b = 9 ∨ b = 13 ∨ b = 10 ∨ b = 61 ∨ b = 39

/-- `%[^ \t'"<>)\r]` -/
def inValue (b : UInt8) : Bool :=
  ¬(b = 32 ∨ b = 9 ∨ b = 39 ∨ b = 34 ∨ b = 60 ∨ b = 62 ∨ b = 41 ∨ b = 13)

/-- What `sscanf(p, fmt, buf)` converts: at most 4096 bytes behind one or more blanks. -/
def scanValue (p : Bytes) : Option Bytes :=
  let v := ((p.dropWhile blank).take 4096).takeWhile inValue
  if p.takeWhile blank = [] ∨ v = [] then none else some v

/-- `p += n` -/
def advance (p : Bytes) (n : ℕ) : Except Fault Bytes :=
  if n ≤ p.length then .ok (p.drop n) else .error .undefined

/-- `!strncasecmp(p, "href", 4)` -/
def atHref (p : Bytes) : Bool := startsWith (ascii "href") p

/-- The body of the loop: `buf` and `p` behind it, and the URL `cb_func` is called with. -/
def body (buf p : Bytes) : Except Fault (Bytes × Bytes × Option Bytes) :=
  if atHref p then do
    let p ← advance p 4
    match scanValue p with
    | none => .ok (buf,p,none)
    | some v =>
      let buf ← writeAt buf 0 (v++[0])
      let n := (cstr buf).length
      if filterTypeUrl (cstr buf) n = 0 then
        let p ← advance p n
        .ok (buf,p,some (cstr buf))
      else .ok (buf,p,none)
  else .ok (buf,p,none)

theorem advance_eq_ok {p p' : Bytes} {n : ℕ} (h : advance p n = .ok p') :
    n ≤ p.length ∧ p' = p.drop n := by
  rw [advance] at h
  split_ifs at h with hn
  cases h
  exact ⟨hn,rfl⟩

theorem advance_length {p p' : Bytes} {n : ℕ} (h : advance p n = .ok p') : p'.length ≤ p.length := by
  rw [(advance_eq_ok h).2,List.length_drop]
  exact Nat.sub_le _ _

theorem body_length {buf p buf' p' : Bytes} {url : Option Bytes}
    (h : body buf p = .ok (buf',p',url)) : p'.length ≤ p.length := by
  rw [body] at h
  split_ifs at h with hhref
  · obtain ⟨q,hq,h⟩ := bind_eq_ok.mp h
    have hle := advance_length hq
    split at h
    next =>
      cases h
      exact hle
    next v _ =>
      obtain ⟨b,-,h⟩ := bind_eq_ok.mp h
      dsimp only at h
      split_ifs at h with haccept
      · obtain ⟨r,hr,h⟩ := bind_eq_ok.mp h
        cases h
        exact (advance_length hr).trans hle
      · cases h
        exact hle
  · cases h
    exact le_refl _

/-- `parse_page` from `p` on: the URLs it hands to `cb_func`. -/
def parsePage (buf p : Bytes) : Except Fault (List Bytes) :=
  if p = [] then .ok []
  else
    match _hbody : body buf p with
    | .error e => .error e
    | .ok (_,[],_) => .error .undefined
    | .ok (buf,_::q,url) => do
      let urls ← parsePage buf q
      .ok (url.toList++urls)
termination_by p.length
decreasing_by exact body_length _hbody

/-! ### Where the scan looks -/

/-- The URL the scan takes behind `href`. -/
def accepted (p : Bytes) : Option Bytes :=
  (scanValue (p.drop 4)).filter fun v => filterTypeUrl v v.length = 0

/-- How far the cursor moves in one turn: over `href`, the URL taken and one byte more, or over
one byte. -/
def stride (p : Bytes) : ℕ := if atHref p then 4+((accepted p).getD []).length+1 else 1

/-- The places of the page at which the loop starts a turn. -/
inductive Visits (page : Bytes) : Bytes → Prop
  | first : Visits page page
  | next {p : Bytes} : Visits page p → p ≠ [] → Visits page (p.drop (stride p))

/-- A byte stands behind the `href`, and the value and its terminator fit into the array. -/
def Fits (p : Bytes) : Prop := p.length ≠ 4 ∧ ∀ v ∈ scanValue (p.drop 4),v.length < 4096

/-- The scan returns, whatever the array holds before. -/
def Safe (page : Bytes) : Prop := ∀ buf : Bytes,buf.length = 4096 → ∃ urls,parsePage buf page = .ok urls

/-! ### The value behind an href -/

theorem scanValue_eq_some {p v : Bytes} (h : scanValue p = some v) :
    p.takeWhile blank ≠ [] ∧ v = ((p.dropWhile blank).take 4096).takeWhile inValue := by
  rw [scanValue] at h
  split_ifs at h with hnone
  cases h
  exact ⟨fun hblank => hnone (.inl hblank),rfl⟩

/-- A blank stands before the value. -/
theorem scanValue_length {p v : Bytes} (h : scanValue p = some v) : v.length < p.length := by
  obtain ⟨hblank,rfl⟩ := scanValue_eq_some h
  have hsplit := congrArg List.length (List.takeWhile_append_dropWhile (p := blank) (l := p))
  rw [List.length_append] at hsplit
  have hpos := List.length_pos_of_ne_nil hblank
  have hvalue : (((p.dropWhile blank).take 4096).takeWhile inValue).length ≤
      (p.dropWhile blank).length :=
    (List.takeWhile_sublist _).length_le.trans (List.length_take_le' _ _)
  omega

theorem scanValue_noNul {p v : Bytes} (hnul : 0 ∉ p) (h : scanValue p = some v) : 0 ∉ v := by
  obtain ⟨-,rfl⟩ := scanValue_eq_some h
  intro hmem
  have htake := (List.takeWhile_sublist _).subset hmem
  exact hnul ((List.dropWhile_sublist _).subset (List.mem_of_mem_take htake))

theorem atHref_length {p : Bytes} (h : atHref p = true) : 4 ≤ p.length := by
  rw [atHref,startsWith,decide_eq_true_eq] at h
  have hlen := congrArg List.length h
  have hword : (ascii "href").length = 4 := by decide
  rw [List.length_map,List.length_take,hword] at hlen
  omega

theorem advance_of_le {p : Bytes} {n : ℕ} (h : n ≤ p.length) : advance p n = .ok (p.drop n) := if_pos h

/-! ### One turn -/

/-- The value stored in the array is the string read from it. -/
theorem stored_value {buf v : Bytes} (hbuf : buf.length = 4096) (hnul : 0 ∉ v) (hv : v.length < 4096) :
    ∃ buf',writeAt buf 0 (v++[0]) = .ok buf' ∧ buf'.length = 4096 ∧ cstr buf' = v := by
  have hlen : (v++[0]).length = v.length+1 := List.length_append
  have hwrite : writeAt buf 0 (v++[0]) = _ := writeAt_zero (by omega)
  refine ⟨_,hwrite,(writeAt_length hwrite).trans hbuf,?_⟩
  rw [List.append_assoc]
  exact cstr_terminated hnul _

/-- Behind `href`: the cursor stops on the last byte of the stride. -/
theorem body_href {buf p : Bytes} (hbuf : buf.length = 4096) (hnul : 0 ∉ p) (hhref : atHref p = true)
    (hvalue : ∀ v ∈ scanValue (p.drop 4),v.length < 4096) :
    ∃ buf' url,body buf p = .ok (buf',p.drop (4+((accepted p).getD []).length),url) ∧
      buf'.length = 4096 := by
  rw [body,if_pos hhref,advance_of_le (atHref_length hhref),ok_bind]
  cases hscan : scanValue (p.drop 4) with
  | none =>
    have hnone : accepted p = none := by rw [accepted,hscan]; rfl
    rw [hnone]
    exact ⟨buf,none,rfl,hbuf⟩
  | some v =>
    have hv : 0 ∉ v := scanValue_noNul (fun h => hnul (List.mem_of_mem_drop h)) hscan
    obtain ⟨buf',hwrite,hbuf',hcstr⟩ := stored_value hbuf hv (hvalue v hscan)
    simp only [hwrite,ok_bind,hcstr]
    by_cases haccept : filterTypeUrl v v.length = 0
    · have hsome : accepted p = some v := by
        rw [accepted,hscan,Option.filter_some,if_pos (decide_eq_true haccept)]
      have hle : v.length ≤ (p.drop 4).length := (scanValue_length hscan).le
      rw [hsome,if_pos haccept,advance_of_le hle]
      refine ⟨buf',some v,?_,hbuf'⟩
      rw [Option.getD_some,← List.drop_drop]
      rfl
    · have hnone : accepted p = none := by
        rw [accepted,hscan,Option.filter_some,if_neg (by simpa using haccept)]
      rw [hnone,if_neg haccept]
      exact ⟨buf',none,rfl,hbuf'⟩

/-- A value of 4096 bytes has no room for its terminator. -/
theorem body_full {buf p v : Bytes} (hbuf : buf.length = 4096) (hhref : atHref p = true)
    (hscan : scanValue (p.drop 4) = some v) (hv : 4096 ≤ v.length) : body buf p = .error .undefined := by
  have hwrite : writeAt buf 0 (v++[0]) = .error .undefined := by
    rw [writeAt,if_neg]
    rw [List.length_append,List.length_singleton]
    omega
  rw [body,if_pos hhref,advance_of_le (atHref_length hhref),ok_bind,hscan]
  simp only [hwrite,error_bind]

theorem accepted_length (p : Bytes) (hp : 4 < p.length) : 4+((accepted p).getD []).length < p.length := by
  cases haccept : accepted p with
  | none => exact hp
  | some v =>
    rw [accepted,Option.filter_eq_some_iff] at haccept
    have hlt := scanValue_length haccept.1
    rw [List.length_drop] at hlt
    show 4+v.length < p.length
    omega

/-- Where the place fits, the turn ends on a byte of the page, and `p++` is the stride. -/
theorem body_fits {buf p : Bytes} (hbuf : buf.length = 4096) (hnul : 0 ∉ p) (hp : p ≠ [])
    (hfits : atHref p = true → Fits p) :
    ∃ buf' b url,body buf p = .ok (buf',b::p.drop (stride p),url) ∧ buf'.length = 4096 := by
  by_cases hhref : atHref p = true
  · obtain ⟨hend,hvalue⟩ := hfits hhref
    have h4 := atHref_length hhref
    obtain ⟨buf',url,hbody,hbuf'⟩ := body_href hbuf hnul hhref hvalue
    have hlt := accepted_length p (by omega)
    rw [List.drop_eq_getElem_cons hlt] at hbody
    rw [stride,if_pos hhref]
    exact ⟨buf',_,url,hbody,hbuf'⟩
  · obtain ⟨b,q,rfl⟩ := List.exists_cons_of_ne_nil hp
    rw [stride,if_neg hhref,body,if_neg hhref]
    exact ⟨buf,b,none,rfl,hbuf⟩

/-- Elsewhere it writes behind the array, or ends at the terminator, which `p++` steps over. -/
theorem body_not_fits {buf p : Bytes} (hbuf : buf.length = 4096) (hnul : 0 ∉ p) (hhref : atHref p = true)
    (hfits : ¬Fits p) :
    body buf p = .error .undefined ∨ ∃ buf' url,body buf p = .ok (buf',[],url) := by
  by_cases hvalue : ∀ v ∈ scanValue (p.drop 4),v.length < 4096
  · have hend : p.length = 4 := by
      by_contra hne
      exact hfits ⟨hne,hvalue⟩
    obtain ⟨buf',url,hbody,-⟩ := body_href hbuf hnul hhref hvalue
    rw [List.drop_of_length_le (by omega)] at hbody
    exact .inr ⟨buf',url,hbody⟩
  · push Not at hvalue
    obtain ⟨v,hscan,hv⟩ := hvalue
    exact .inl (body_full hbuf hhref hscan hv)

/-! ### The whole page -/

theorem parsePage_end (buf : Bytes) : parsePage buf [] = .ok [] := by
  rw [parsePage,if_pos rfl]

/-- A turn that ends on a byte leaves the scan to the bytes behind it. -/
theorem parsePage_returns {buf p buf' q : Bytes} {b : UInt8} {url : Option Bytes} (hp : p ≠ [])
    (hbody : body buf p = .ok (buf',b::q,url)) :
    (∃ urls,parsePage buf p = .ok urls) ↔ ∃ urls,parsePage buf' q = .ok urls := by
  have hstep : parsePage buf p = (parsePage buf' q).map (url.toList++·) := by
    rw [parsePage,if_neg hp]
    split
    next e he => rw [hbody] at he; cases he
    next he => rw [hbody] at he; cases he
    next he =>
      rw [hbody] at he
      cases he
      rfl
  rw [hstep]
  cases parsePage buf' q with
  | ok urls => exact iff_of_true ⟨_,rfl⟩ ⟨_,rfl⟩
  | error e =>
    constructor <;>
    · rintro ⟨urls,h⟩
      cases h

theorem parsePage_ne_ok {buf p : Bytes} (hp : p ≠ [])
    (hbody : body buf p = .error .undefined ∨ ∃ buf' url,body buf p = .ok (buf',[],url)) :
    ¬∃ urls,parsePage buf p = .ok urls := by
  rintro ⟨urls,h⟩
  rw [parsePage,if_neg hp] at h
  rcases hbody with hbody | ⟨buf',url,hbody⟩
  · split at h
    next => cases h
    next => cases h
    next he => rw [hbody] at he; cases he
  · split at h
    next => cases h
    next => cases h
    next he => rw [hbody] at he; cases he

theorem Visits.iff (page p : Bytes) :
    Visits page p ↔ p = page ∨ page ≠ [] ∧ Visits (page.drop (stride page)) p := by
  constructor
  · intro h
    induction h with
    | first => exact .inl rfl
    | next _ hp ih =>
      rcases ih with rfl | ⟨hpage,ih⟩
      · exact .inr ⟨hp,.first⟩
      · exact .inr ⟨hpage,ih.next hp⟩
  · rintro (rfl | ⟨hpage,h⟩)
    · exact .first
    · induction h with
      | first => exact Visits.first.next hpage
      | next _ hp ih => exact ih.next hp

theorem stride_pos (p : Bytes) : 0 < stride p := by
  rw [stride]
  split_ifs
  · exact Nat.succ_pos _
  · exact Nat.one_pos

/-- By induction on what is left of the page, turn by turn. -/
theorem parsePage_ok_iff {buf p : Bytes} (hbuf : buf.length = 4096) (hnul : 0 ∉ p) :
    (∃ urls,parsePage buf p = .ok urls) ↔ ∀ q,Visits p q → atHref q = true → Fits q := by
  induction hn : p.length using Nat.strong_induction_on generalizing p buf with
  | _ n ih =>
    by_cases hp : p = []
    · subst hp
      refine iff_of_true ⟨[],parsePage_end buf⟩ fun q hq hhref => ?_
      rcases (Visits.iff [] q).mp hq with rfl | ⟨hne,-⟩
      · exact absurd (atHref_length hhref) (by decide)
      · exact absurd rfl hne
    by_cases hfits : atHref p = true → Fits p
    · obtain ⟨buf',b,url,hbody,hbuf'⟩ := body_fits hbuf hnul hp hfits
      have hshort : (p.drop (stride p)).length < n := by
        have := stride_pos p
        have := List.length_pos_of_ne_nil hp
        rw [List.length_drop]
        omega
      rw [parsePage_returns hp hbody,
        ih _ hshort hbuf' (fun h => hnul (List.mem_of_mem_drop h)) rfl]
      constructor
      · intro h q hq
        rcases (Visits.iff p q).mp hq with rfl | ⟨-,hq⟩
        · exact hfits
        · exact h q hq
      · exact fun h q hq => h q ((Visits.iff p q).mpr (.inr ⟨hp,hq⟩))
    · obtain ⟨hhref,hnot⟩ := Classical.not_imp.mp hfits
      refine iff_of_false (parsePage_ne_ok hp (body_not_fits hbuf hnul hhref hnot)) fun h => ?_
      exact hfits (h p .first)

theorem safe_iff {page : Bytes} (hnul : 0 ∉ page) :
    Safe page ↔ ∀ p,Visits page p → atHref p = true → Fits p := by
  constructor
  · intro h
    have hzeros : (List.replicate 4096 (0 : UInt8)).length = 4096 := List.length_replicate
    exact (parsePage_ok_iff hzeros hnul).mp (h _ hzeros)
  · exact fun h buf hbuf => (parsePage_ok_iff hbuf hnul).mpr h

/-- The scan is safe exactly on the pages whose links, as it meets them, all fit. -/
theorem parsePage_safe_iff (page : Text) :
    Safe page.bytes ↔ ∀ p,Visits page.bytes p → atHref p = true → Fits p :=
  safe_iff page.noNul

theorem not_safe_href : ¬Safe (ascii "href") := by
  rw [safe_iff (by decide)]
  intro h
  exact (h _ .first (by decide)).1 (by decide)

end AntPage
end RecycleBin
