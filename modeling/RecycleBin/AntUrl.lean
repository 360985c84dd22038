import RecycleBin.CString

/-! `url_to_domain` of `ant_url.c`. -/
namespace RecycleBin
namespace AntUrl
open AntHash AntVisited CString

/-- A C string. -/
structure Text where
  bytes : Bytes
  noNul : 0 ∉ bytes

/-- `strncpy(dst, src, n)` -/
def strncpy (dst src : Bytes) (n : ℕ) : Bytes :=
  src.take n++(List.replicate (n-src.length) 0++dst.drop n)

/-- "/:?#;" -/
def delims : Bytes := [47,58,63,35,59]

/-- What stands in front of the first delimiter. -/
def hostOf (s : Bytes) : Bytes := s.takeWhile fun b => !delims.contains b

/-- Where `start` points to in the end. -/
def start (url : Bytes) : Bytes := (url.dropWhile isspace).drop (skipHead (url.dropWhile isspace))

/-- `url_to_domain` on a buffer of one byte or more. -/
def urlToDomain (dst url : Bytes) : Bytes :=
  let n := dst.length-1
  let n := if (hostOf (start url)).length < n then (hostOf (start url)).length else n
  let dst := strncpy dst (start url) n
  if n > 0 then dst.set n 0 else dst

/-! ### The host of a URL -/

/-- The rest of the text behind `http://` or `https://`, in letters of any case. -/
def withoutScheme (s : Bytes) : Bytes :=
  if startsWith https s then s.drop 8 else if startsWith http s then s.drop 7 else s

def host (url : Bytes) : Bytes := hostOf (withoutScheme (url.dropWhile isspace))

/-- Whatever it held, the buffer of `n+1` bytes holds the host, as far as it fits, and a NUL. -/
def HoldsHost (url : Bytes) (n : ℕ) : Prop :=
  ∀ dst : Bytes, dst.length = n+1 → (urlToDomain dst url).length = n+1 ∧ 0 ∈ urlToDomain dst url ∧
    cstr (urlToDomain dst url) = (host url).take n

/-- The scheme is `https` with a capital `S`. -/
def CapitalS (url : Bytes) : Prop :=
  startsWith https (url.dropWhile isspace) = true ∧ (url.dropWhile isspace)[4]? = some 83

/-- Every letter of the word is there, or its capital. -/
theorem startsWith_get {word s : Bytes} (h : startsWith word s = true) {i : ℕ} {c : UInt8}
    (hi : word[i]? = some c) : s[i]? = some c ∨ 97 ≤ c ∧ s[i]? = some (c-32) := by
  obtain ⟨hlt,-⟩ := List.getElem?_eq_some_iff.mp hi
  rw [startsWith,decide_eq_true_eq] at h
  rw [← h,List.getElem?_map,List.getElem?_take_of_lt hlt] at hi
  obtain ⟨b,hb,hc⟩ := Option.map_eq_some_iff.mp hi
  rcases tolower_cases hc with rfl | ⟨hge,rfl⟩
  · exact .inl hb
  · exact .inr ⟨hge,hb⟩

/-- Behind a capital `S` the skip ends one byte too early, at the second slash. -/
theorem hostOf_start_capital {url : Bytes} (h : CapitalS url) : hostOf (start url) = [] := by
  obtain ⟨hs,h4⟩ := h
  rw [start]
  generalize url.dropWhile isspace = s at hs h4 ⊢
  have hskip : skipHead s = 7 := by
    rw [skipHead,if_pos (.inr hs),h4]
    rfl
  have h7 : s[7]? = some 47 := by
    rcases startsWith_get hs (i:=7) (c:=47) rfl with h7 | ⟨hge,-⟩
    · exact h7
    · exact absurd hge (by decide)
  obtain ⟨hlt,h7⟩ := List.getElem?_eq_some_iff.mp h7
  rw [hskip,List.drop_eq_getElem_cons hlt,h7]
  rfl

theorem hostOf_start {url : Bytes} (h : ¬CapitalS url) : hostOf (start url) = host url := by
  rw [start,host,withoutScheme]
  rw [CapitalS] at h
  generalize url.dropWhile isspace = s at h ⊢
  by_cases hs : startsWith https s = true
  · have h4 : s[4]? = some 115 := by
      rcases startsWith_get hs (i:=4) (c:=115) rfl with h4 | ⟨-,h4⟩
      · exact h4
      · exact absurd ⟨hs,h4⟩ h
    rw [skipHead,if_pos (.inr hs),if_pos h4,if_pos hs]
  by_cases hp : startsWith http s = true
  · have h4 : s[4]? = some 58 := by
      rcases startsWith_get hp (i:=4) (c:=58) rfl with h4 | ⟨hge,-⟩
      · exact h4
      · exact absurd hge (by decide)
    rw [skipHead,if_pos (.inl hp),h4,if_neg (by decide),if_neg hs,if_pos hp]
  · rw [skipHead,if_neg (not_or.mpr ⟨hp,hs⟩),if_neg hs,if_neg hp,List.drop_zero]

/-- The number of bytes to copy. -/
theorem count_eq (a n : ℕ) : (if a < n then a else n) = min a n := by
  split_ifs <;> omega

/-- With nothing to copy, the buffer is not touched. -/
theorem urlToDomain_zero {dst url : Bytes} (h : hostOf (start url) = [] ∨ dst.length ≤ 1) :
    urlToDomain dst url = dst := by
  have hn : min (hostOf (start url)).length (dst.length-1) = 0 := by
    rcases h with h | h
    · rw [h,List.length_nil,Nat.zero_min]
    · omega
  simp only [urlToDomain,count_eq,hn,strncpy]
  simp

/-- What is copied, is terminated. -/
theorem urlToDomain_pos {dst : Bytes} {url : Text} {n : ℕ} (hlen : dst.length = n+1) (hn : 0 < n)
    (hhost : hostOf (start url.bytes) ≠ []) :
    ∃ t, urlToDomain dst url.bytes = (hostOf (start url.bytes)).take n++0::t ∧
      ((hostOf (start url.bytes)).take n).length+t.length = n ∧
      0 ∉ (hostOf (start url.bytes)).take n := by
  have hpos := List.length_pos_of_ne_nil hhost
  obtain ⟨r,hr⟩ : ∃ r, hostOf (start url.bytes)++r = start url.bytes := List.takeWhile_prefix _
  have hnul : 0 ∉ (hostOf (start url.bytes)).take n := by
    intro h
    have hmem := (List.takeWhile_prefix _).subset (List.mem_of_mem_take h)
    exact url.noNul ((List.dropWhile_suffix _).subset (List.mem_of_mem_drop hmem))
  have hcopy : (start url.bytes).take (min (hostOf (start url.bytes)).length n) =
      (hostOf (start url.bytes)).take n := by
    have htake : (hostOf (start url.bytes)++r).take (min (hostOf (start url.bytes)).length n) =
        (hostOf (start url.bytes)).take (min (hostOf (start url.bytes)).length n) :=
      List.take_append_of_le_length (min_le_left _ _)
    rw [hr] at htake
    rw [htake,List.take_eq_take_iff]
    omega
  have hle : min (hostOf (start url.bytes)).length n ≤ (start url.bytes).length := by
    have hlen := congrArg List.length hr
    rw [List.length_append] at hlen
    omega
  refine ⟨dst.drop (min (hostOf (start url.bytes)).length n+1),?_,?_,hnul⟩
  · simp only [urlToDomain,count_eq,hlen,Nat.add_sub_cancel,strncpy]
    rw [if_pos (by omega),Nat.sub_eq_zero_of_le hle,List.replicate_zero,List.nil_append,hcopy,
      List.drop_eq_getElem_cons (by omega)]
    have hat : ((hostOf (start url.bytes)).take n).length = min (hostOf (start url.bytes)).length n := by
      rw [List.length_take,min_comm]
    rw [List.set_append_right _ _ hat.le,hat,Nat.sub_self]
    rfl
  · rw [List.length_drop,List.length_take,hlen]
    omega

/-- In a buffer without a NUL there is one only if something is copied. -/
theorem host_of_terminated {url : Bytes} {n : ℕ} (h : 0 ∈ urlToDomain (List.replicate (n+1) 1) url) :
    0 < n ∧ host url ≠ [] ∧ ¬CapitalS url := by
  have hnot : ¬(hostOf (start url) = [] ∨ n = 0) := by
    intro hz
    have hsmall : hostOf (start url) = [] ∨ (List.replicate (n+1) (1 : UInt8)).length ≤ 1 := by
      refine hz.imp_right fun h0 => ?_
      rw [List.length_replicate,h0]
    rw [urlToDomain_zero hsmall] at h
    exact absurd (List.eq_of_mem_replicate h) (by decide)
  rw [not_or] at hnot
  have hcap : ¬CapitalS url := fun hc => hnot.1 (hostOf_start_capital hc)
  rw [hostOf_start hcap] at hnot
  exact ⟨Nat.pos_of_ne_zero hnot.2,hnot.1,hcap⟩

theorem holdsHost_of_host {url : Text} {n : ℕ} (hn : 0 < n) (hhost : host url.bytes ≠ [])
    (hcap : ¬CapitalS url.bytes) : HoldsHost url.bytes n := by
  intro dst hlen
  rw [← hostOf_start hcap] at hhost
  obtain ⟨t,ht,htlen,hnul⟩ := urlToDomain_pos hlen hn hhost
  rw [← hostOf_start hcap,ht]
  refine ⟨?_,by simp,?_⟩
  · rw [List.length_append,List.length_cons]
    omega
  · exact cstr_terminated hnul t

/-- `url_to_domain` leaves the host in its buffer exactly when there is one to copy, room for
it, and no capital `S` in `https`. -/
theorem holdsHost_iff (url : Text) (n : ℕ) :
    HoldsHost url.bytes n ↔ 0 < n ∧ host url.bytes ≠ [] ∧ ¬CapitalS url.bytes := by
  constructor
  · intro h
    exact host_of_terminated (h _ List.length_replicate).2.1
  · rintro ⟨hn,hhost,hcap⟩
    exact holdsHost_of_host hn hhost hcap

/-- `HTTPS://a.org/` -/
theorem not_holdsHost_capital : ¬HoldsHost (ascii "HTTPS://a.org/") 15 := by
  intro h
  have hnul := (h (List.replicate 16 1) rfl).2.1
  revert hnul
  decide

end AntUrl
end RecycleBin
