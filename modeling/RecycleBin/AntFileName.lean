import Mathlib.Data.List.DropRight
import RecycleBin.AntUrl
import RecycleBin.Bytes
import RecycleBin.CString

/-! The name a page is dumped under: `setfilename` of `ant_http.c`. It writes into the array
`filename`, and appends a number, or counts it up, as long as a file of that name exists. -/
namespace RecycleBin
namespace AntFileName
open AntHash AntVisited AntUrl CString RecycleBin.Bytes

/-- `MAX_FILE_SIZE` -/
def maxFileSize : ℕ := 128

def strlen (buf : Bytes) : Except Fault ℕ :=
  if buf.any (· = 0) then .ok (cstr buf).length else .error .undefined

/-- `%d` and `%ld`. -/
def formatInt (n : ℤ) : Bytes := if n < 0 then 45::decimal n.natAbs else decimal n.natAbs

/-- `for (…; i && url[i] != '/'; i--)` -/
def lastSlash (url : Bytes) : ℕ → ℕ
  | 0 => 0
  | i+1 => if url[i+1]? = some 47 then i+1 else lastSlash url i

/-- The path behind the time, or a default for it. -/
def appendPath (url : Bytes) (i : ℕ) (buf : Bytes) : Except Fault Bytes := do
  let n ← strlen buf
  if url[i]? = some 47 then
    let src := if url.drop (i+1) = [] then ascii ".html" else url.drop (i+1)
    let buf ← writeAt buf n (src.take (maxFileSize-50)++[0])
    writeAt buf (maxFileSize-50) [0]
  else writeAt buf n (ascii "index.html"++[0])

def appendGz (isgzip : ℤ) (buf : Bytes) : Except Fault Bytes :=
  if isgzip = 1 then do
    let n ← strlen buf
    writeAt buf n (ascii ".gz"++[0])
  else .ok buf

/-- The name before any retry, for the result `now` of `time(NULL)`. -/
def firstName (now : Int64) (isgzip : ℤ) (url buf : Bytes) : Except Fault Bytes :=
  let i := toInt url.length
  -- `url[i]` with a negative `i`
  if i < 0 then .error .undefined
  else do
    let i := lastSlash url i.toNat
    let buf ← writeAt buf 0 ((formatInt now.toInt++[95]).take (maxFileSize-1)++[0])
    let buf ← appendPath url i buf
    appendGz isgzip buf

/-- `for (last = …; buf < last && isdigit(*last); last--)`, with `last` as an index. -/
def lastNonDigit (buf : Bytes) : ℕ → ℕ
  | 0 => 0
  | i+1 => if buf[i+1]?.any isdigit then lastNonDigit buf i else i+1

/-- The body of the loop: the number at the end is counted up in its place, or one is appended.
`++n` is undefined at `INT_MAX`. -/
def retry (buf : Bytes) : Except Fault Bytes := do
  let len ← strlen buf
  let last := lastNonDigit buf (len-1)+1
  let n := toInt (strtol (cstr (buf.drop last)))
  if n = 2^31-1 then .error .undefined
  else
    let s := if buf[last-1]? = some 46 then formatInt (n+1) else 46::formatInt (n+1)
    writeAt buf last (s.take (maxFileSize-2)++[0])

/-- `while(access(buf, F_OK) == 0 && buf[0])`, for the names of the files there are. -/
def loop (files : List Bytes) : ℕ → Bytes → Except Fault Bytes
  | 0, _ => .error .exhausted
  | fuel+1, buf =>
    if (files.any fun f => f = cstr buf) ∧ buf[0]? ≠ some 0 then do
      let buf ← retry buf
      loop files fuel buf
    else .ok buf

def setfilename (files : List Bytes) (now : Int64) (isgzip : ℤ) (url : Bytes) (fuel : ℕ) (buf : Bytes) :
    Except Fault Bytes := do
  let buf ← firstName now isgzip url buf
  loop files fuel buf

/-- It returns, and no file has the name. -/
def Fresh (files : List Bytes) (now : Int64) (isgzip : ℤ) (url : Bytes) : Prop :=
  ∀ buf : Bytes,buf.length = maxFileSize →
    ∃ fuel buf',setfilename files now isgzip url fuel buf = .ok buf' ∧ cstr buf' ∉ files

/-! ### The names -/

/-- The part of the URL behind its last slash, or the default names. -/
def pathName (url : Bytes) : Bytes :=
  let i := lastSlash url (toInt url.length).toNat
  if url[i]? = some 47 then (if url.drop (i+1) = [] then ascii ".html" else url.drop (i+1))
  else ascii "index.html"

/-- The first name: the time, and at most 78 bytes with the path. -/
def nameOf (now : Int64) (isgzip : ℤ) (url : Bytes) : Bytes :=
  (formatInt now.toInt++[95]++pathName url).take (maxFileSize-50)++if isgzip = 1 then ascii ".gz" else []

/-- The name with a dot at its end. -/
def dotted (s : Bytes) : Bytes := if s.getLast? = some 46 then s else s++[46]

/-- A name that may be tried: the first, and it with the number at its end counted up to `INT_MAX`.
A number that is below -1 as an `int` gets a minus sign, and is counted up behind it. -/
def Candidate (name c : Bytes) : Prop :=
  let s := dotted (name.rdropWhile isdigit)
  let v := toInt (strtol (name.rtakeWhile isdigit))
  c = name ∨
  (-1 ≤ v ∧ ∃ n : ℕ,v < n ∧ n < 2^31 ∧ c = s++decimal n) ∨
  (v < -1 ∧ (c = s++45::decimal (v+1).natAbs ∨
    ∃ n : ℕ,(v+1).natAbs < n ∧ n < 2^31 ∧ c = s++45::46::decimal n))

/-! ### The array -/

/-- The array holds the name and its terminator. -/
structure Holds (buf name : Bytes) : Prop where
  length : buf.length = maxFileSize
  noNul : 0 ∉ name
  front : name++[0] <+: buf

theorem Holds.cstr_eq {buf name : Bytes} (h : Holds buf name) : cstr buf = name := by
  obtain ⟨rest,rfl⟩ := h.front
  rw [List.append_assoc]
  exact cstr_terminated h.noNul rest

theorem Holds.strlen_eq {buf name : Bytes} (h : Holds buf name) : strlen buf = .ok name.length := by
  have hnul : buf.any (· = 0) = true := by
    obtain ⟨rest,rfl⟩ := h.front
    simp
  rw [strlen,if_pos hnul,h.cstr_eq]

/-- A text is written over the end of the name. -/
theorem Holds.write {buf pre suf t : Bytes} (h : Holds buf (pre++suf)) (ht : 0 ∉ t)
    (hroom : pre.length+t.length < maxFileSize) :
    ∃ buf',writeAt buf pre.length (t++[0]) = .ok buf' ∧ Holds buf' (pre++t) := by
  obtain ⟨rest,hbuf⟩ := h.front
  have hlen : (t++[0]).length = t.length+1 := List.length_append
  have htake : buf.take pre.length = pre := by
    rw [← hbuf,List.append_assoc,List.append_assoc,List.take_left]
  have hfit : pre.length+(t++[0]).length ≤ buf.length := by
    rw [h.length]
    omega
  have hwrite : writeAt buf pre.length (t++[0]) = _ := if_pos hfit
  refine ⟨_,hwrite,(writeAt_length hwrite).trans h.length,?_,?_⟩
  · rw [List.mem_append,not_or]
    exact ⟨fun hmem => h.noNul (List.mem_append_left _ hmem),ht⟩
  · rw [htake,← List.append_assoc pre t [0]]
    exact List.prefix_append _ _

/-- The first write, into an array that may hold anything. -/
theorem holds_first {buf t : Bytes} (hbuf : buf.length = maxFileSize) (ht : 0 ∉ t)
    (hroom : t.length < maxFileSize) : ∃ buf',writeAt buf 0 (t++[0]) = .ok buf' ∧ Holds buf' t := by
  have hlen : (t++[0]).length = t.length+1 := List.length_append
  have hwrite : writeAt buf 0 (t++[0]) = _ := writeAt_zero (by omega)
  exact ⟨_,hwrite,(writeAt_length hwrite).trans hbuf,ht,List.prefix_append _ _⟩

/-- `strcat` -/
theorem Holds.append {buf name t : Bytes} (h : Holds buf name) (ht : 0 ∉ t)
    (hroom : name.length+t.length < maxFileSize) :
    ∃ buf',writeAt buf name.length (t++[0]) = .ok buf' ∧ Holds buf' (name++t) := by
  rw [← List.append_nil name] at h
  exact h.write ht hroom

/-- A terminator within the array. -/
theorem Holds.cut {buf name : Bytes} (h : Holds buf name) {k : ℕ} (hk : k < maxFileSize) :
    ∃ buf',writeAt buf k [0] = .ok buf' ∧ Holds buf' (name.take k) := by
  by_cases hle : k ≤ name.length
  · have hlen : (name.take k).length = k := List.length_take_of_le hle
    rw [← List.take_append_drop k name] at h
    obtain ⟨buf',hwrite,h'⟩ := h.write (t := []) List.not_mem_nil (by rw [hlen]; exact hk)
    rw [hlen] at hwrite
    rw [List.append_nil] at h'
    exact ⟨buf',hwrite,h'⟩
  · obtain ⟨rest,hbuf⟩ := h.front
    have hlen : (name++[0]).length = name.length+1 := List.length_append
    have hfit : k+[0].length ≤ buf.length := by
      rw [h.length]
      exact hk
    have hwrite : writeAt buf k [0] = _ := if_pos hfit
    have htake : buf.take k = name++[0]++rest.take (k-(name++[0]).length) := by
      rw [← hbuf,List.take_append,List.take_of_length_le (by omega)]
    refine ⟨_,hwrite,(writeAt_length hwrite).trans h.length,?_,?_⟩
    · rw [List.take_of_length_le (by omega)]
      exact h.noNul
    · rw [htake,List.take_of_length_le (by omega),List.append_assoc,List.append_assoc]
      exact List.prefix_append _ _

/-! ### The numbers -/

theorem formatInt_natCast (n : ℕ) : formatInt n = decimal n := by
  rw [formatInt,if_neg (by omega),Int.natAbs_natCast]

theorem formatInt_neg {n : ℤ} (h : n < 0) : formatInt n = 45::decimal n.natAbs := if_pos h

theorem decimal_noNul (n : ℕ) : 0 ∉ decimal n := fun h =>
  absurd (isdigit_decimal n 0 h) (by decide)

theorem formatInt_noNul (n : ℤ) : 0 ∉ formatInt n := by
  rw [formatInt]
  split_ifs
  · rw [List.mem_cons,not_or]
    exact ⟨by decide,decimal_noNul _⟩
  · exact decimal_noNul _

theorem formatInt_length {n : ℤ} {k : ℕ} (hk : 0 < k) (h : n.natAbs < 10^k) :
    (formatInt n).length ≤ k+1 := by
  have hlen := decimal_length hk h
  rw [formatInt]
  split_ifs
  · rw [List.length_cons]
    omega
  · omega

theorem toInt_range (n : ℤ) : -2^31 ≤ toInt n ∧ toInt n < 2^31 := by
  rw [toInt,Int.bmod_def]
  split_ifs <;> omega

/-- A number below `2^31` is read as it was printed. -/
theorem atoi_decimal {n : ℕ} (h : n < 2^31) : toInt (strtol (decimal n)) = n := by
  rw [strtol_decimal (by omega),toInt_of_lt h]

/-! ### One retry -/

/-- The digits at the end of the name are passed over. -/
theorem lastNonDigit_eq {buf s ds : Bytes} {c : UInt8} (h : s++c::ds <+: buf)
    (hc : isdigit c = false) (hds : ∀ b ∈ ds,isdigit b = true) :
    ∀ k ≤ ds.length,lastNonDigit buf (s.length+k) = s.length := by
  obtain ⟨rest,rfl⟩ := h
  intro k
  induction k with
  | zero =>
    intro _
    cases hlen : s.length with
    | zero => rfl
    | succ i =>
      have hget : (s++c::ds++rest)[i+1]? = some c := by
        rw [← hlen,List.append_assoc,List.getElem?_append_right (le_refl _),Nat.sub_self]
        rfl
      rw [Nat.add_zero,lastNonDigit,hget,if_neg (by simp [hc])]
  | succ k ih =>
    intro hk
    have hget : (s++c::ds++rest)[s.length+k+1]? = some ds[k] := by
      rw [List.append_assoc,List.getElem?_append_right (by omega),
        show s.length+k+1-s.length = k+1 by omega,List.cons_append,List.getElem?_cons_succ,
        List.getElem?_append_left hk,List.getElem?_eq_getElem hk]
    have hdigit : (some ds[k]).any isdigit = true := hds _ (List.getElem_mem hk)
    rw [← Nat.add_assoc,lastNonDigit,hget,if_pos hdigit]
    exact ih (by omega)

/-- A name taken apart: a byte that is no digit, in front of the digits at the end. -/
structure Splits (name s ds : Bytes) (c : UInt8) : Prop where
  eq : name = s++c::ds
  nondigit : isdigit c = false
  digits : ∀ b ∈ ds,isdigit b = true

theorem dotted_concat (s : Bytes) (c : UInt8) :
    dotted (s++[c]) = if c = 46 then s++[c] else s++[c]++[46] := by
  rw [dotted,List.getLast?_concat]
  by_cases hc : c = 46
  · rw [if_pos hc,if_pos (congrArg some hc)]
  · rw [if_neg hc,if_neg (fun h => hc (Option.some.inj h))]

/-- What `retry` finds in the array. -/
theorem Splits.last {buf name s ds : Bytes} {c : UInt8} (hs : Splits name s ds c) (h : Holds buf name) :
    lastNonDigit buf (name.length-1) = s.length ∧ cstr (buf.drop (s.length+1)) = ds ∧
      buf[s.length]? = some c := by
  obtain ⟨rfl,hc,hds⟩ := hs
  have hprefix : s++c::ds <+: buf := (List.prefix_append _ _).trans h.front
  have hlen : (s++c::ds).length-1 = s.length+ds.length := by
    rw [List.length_append,List.length_cons]
    omega
  have hnul : 0 ∉ ds := fun hmem => h.noNul (List.mem_append_right s (List.mem_cons_of_mem c hmem))
  obtain ⟨rest,hbuf⟩ := h.front
  rw [hlen]
  refine ⟨lastNonDigit_eq hprefix hc hds _ (le_refl _),?_,?_⟩
  · rw [← hbuf,List.append_assoc,List.append_assoc,← List.drop_drop,List.drop_left]
    exact cstr_terminated hnul rest
  · rw [← hbuf,List.append_assoc,List.append_assoc,List.getElem?_append_right (le_refl _),Nat.sub_self]
    rfl

/-- The number at the end is counted up, or one is appended. -/
theorem retry_ok {buf name s ds : Bytes} {c : UInt8} (h : Holds buf name) (hs : Splits name s ds c)
    (hroom : s.length < 100) (hv : toInt (strtol ds) ≠ 2^31-1) :
    ∃ buf',retry buf = .ok buf' ∧
      Holds buf' (dotted (s++[c])++formatInt (toInt (strtol ds)+1)) := by
  obtain ⟨hlast,hcstr,hget⟩ := hs.last h
  have hsplit : name = (s++[c])++ds := by
    rw [hs.eq,List.append_assoc]
    rfl
  obtain ⟨hlo,hhi⟩ := toInt_range (strtol ds)
  have hlen := formatInt_length (k := 10) (n := toInt (strtol ds)+1) (by decide) (by omega)
  have hslen : (s++[c]).length = s.length+1 := List.length_append
  have htext : ∀ t : Bytes,0 ∉ t → t.length ≤ 12 →
      ∃ buf',writeAt buf (s.length+1) (t.take (maxFileSize-2)++[0]) = .ok buf' ∧
        Holds buf' (s++[c]++t) := by
    intro t ht htlen
    rw [hsplit] at h
    rw [← hslen,List.take_of_length_le (htlen.trans (by decide))]
    refine h.write ht ?_
    show (s++[c]).length+t.length < 128
    omega
  rw [retry,h.strlen_eq,ok_bind]
  simp only [hlast,hcstr,Nat.add_sub_cancel,hget,if_neg hv,Option.some.injEq]
  rw [dotted_concat]
  by_cases hc : c = 46
  · rw [if_pos hc,if_pos hc]
    exact htext _ (formatInt_noNul _) (by omega)
  · rw [if_neg hc,if_neg hc,List.append_assoc (s++[c])]
    refine htext (46::formatInt (toInt (strtol ds)+1)) ?_ ?_
    · rw [List.mem_cons,not_or]
      exact ⟨by decide,formatInt_noNul _⟩
    · rw [List.length_cons]
      omega

/-- The greatest `int` is not. -/
theorem retry_overflow {buf name s ds : Bytes} {c : UInt8} (h : Holds buf name)
    (hs : Splits name s ds c) (hv : toInt (strtol ds) = 2^31-1) : retry buf = .error .undefined := by
  obtain ⟨hlast,hcstr,-⟩ := hs.last h
  rw [retry,h.strlen_eq,ok_bind]
  simp only [hlast,hcstr,if_pos hv]

/-! ### The loop -/

/-- The loop returns, and no file has the name. -/
def Reaches (files : List Bytes) (buf : Bytes) : Prop :=
  ∃ fuel buf',loop files fuel buf = .ok buf' ∧ cstr buf' ∉ files

section Loop
variable {files : List Bytes} {buf buf' name : Bytes}

/-- The test of the loop. -/
theorem Holds.test (h : Holds buf name) (hname : name ≠ []) :
    ((files.any fun f => f = cstr buf) ∧ buf[0]? ≠ some 0) ↔ name ∈ files := by
  have hhead : buf[0]? ≠ some 0 := by
    obtain ⟨rest,hbuf⟩ := h.front
    obtain ⟨b,s,rfl⟩ := List.exists_cons_of_ne_nil hname
    rw [← hbuf]
    intro hzero
    exact h.noNul (List.mem_cons.mpr (.inl (Option.some.inj hzero).symm))
  rw [h.cstr_eq,List.any_eq_true]
  constructor
  · rintro ⟨⟨f,hf,heq⟩,-⟩
    rwa [← of_decide_eq_true heq]
  · exact fun hmem => ⟨⟨name,hmem,decide_eq_true rfl⟩,hhead⟩

theorem reaches_of_notMem (h : Holds buf name) (hname : name ≠ []) (hfree : name ∉ files) :
    Reaches files buf := by
  refine ⟨1,buf,?_,?_⟩
  · rw [loop,if_neg (fun ht => hfree ((h.test hname).mp ht))]
  · rwa [h.cstr_eq]

/-- Where the name is taken, what is reached is reached behind a retry. -/
theorem reaches_iff_of_mem (h : Holds buf name) (hname : name ≠ []) (hmem : name ∈ files) :
    Reaches files buf ↔ ∃ buf',retry buf = .ok buf' ∧ Reaches files buf' := by
  have hstep : ∀ fuel,loop files (fuel+1) buf = retry buf >>= loop files fuel := fun fuel => by
    rw [loop,if_pos ((h.test hname).mpr hmem)]
  constructor
  · rintro ⟨fuel,b,hloop,hfree⟩
    cases fuel with
    | zero => cases hloop
    | succ fuel =>
      rw [hstep] at hloop
      obtain ⟨buf',hretry,hloop⟩ := bind_eq_ok.mp hloop
      exact ⟨buf',hretry,fuel,b,hloop,hfree⟩
  · rintro ⟨buf',hretry,fuel,b,hloop,hfree⟩
    exact ⟨fuel+1,b,by rw [hstep,hretry,ok_bind,hloop],hfree⟩

theorem Splits.ne_nil {s ds : Bytes} {c : UInt8} (hs : Splits name s ds c) : name ≠ [] := by
  rw [hs.eq]
  exact List.append_ne_nil_of_right_ne_nil s (List.cons_ne_nil c ds)

/-- At the greatest number only the name itself is left. -/
theorem reaches_max {s ds : Bytes} {c : UInt8} (h : Holds buf name) (hs : Splits name s ds c)
    (hv : toInt (strtol ds) = 2^31-1) : Reaches files buf ↔ name ∉ files := by
  by_cases hmem : name ∈ files
  · rw [reaches_iff_of_mem h hs.ne_nil hmem,retry_overflow h hs hv]
    refine iff_of_false ?_ (not_not.mpr hmem)
    rintro ⟨buf',hretry,-⟩
    cases hretry
  · exact iff_of_true (reaches_of_notMem h hs.ne_nil hmem) hmem

/-- Elsewhere the name is free, or the rest is that of the next name. -/
theorem reaches_next {s ds : Bytes} {c : UInt8} (h : Holds buf name) (hs : Splits name s ds c)
    (hroom : s.length < 100) (hv : toInt (strtol ds) ≠ 2^31-1) {P : Prop}
    (hP : ∀ buf',Holds buf' (dotted (s++[c])++formatInt (toInt (strtol ds)+1)) →
      (Reaches files buf' ↔ P)) : Reaches files buf ↔ name ∉ files ∨ P := by
  by_cases hmem : name ∈ files
  · obtain ⟨buf',hretry,h'⟩ := retry_ok h hs hroom hv
    rw [reaches_iff_of_mem h hs.ne_nil hmem,or_iff_right (not_not.mpr hmem),← hP buf' h']
    constructor
    · rintro ⟨buf'',hretry'',hreach⟩
      cases hretry.symm.trans hretry''
      exact hreach
    · exact fun hreach => ⟨buf',hretry,hreach⟩
  · exact iff_of_true (reaches_of_notMem h hs.ne_nil hmem) (.inl hmem)

theorem splits_decimal (s : Bytes) {c : UInt8} (hc : isdigit c = false) (n : ℕ) :
    Splits (s++c::decimal n) s (decimal n) c := ⟨rfl,hc,isdigit_decimal n⟩

/-- What stands behind `last` for the number after `n`. -/
theorem next_decimal {t : Bytes} {n : ℕ} (hn : n < 2^31) :
    t++formatInt (toInt (strtol (decimal n))+1) = t++decimal (n+1) := by
  rw [atoi_decimal hn,← Nat.cast_succ,formatInt_natCast]

/-- Counting up: by induction on what is left to `INT_MAX`. -/
theorem reaches_counting {s : Bytes} (hroom : s.length < 100) (k : ℕ) :
    ∀ (n : ℕ) (buf : Bytes),n+k = 2^31-1 → Holds buf (s++46::decimal n) →
      (Reaches files buf ↔ ∃ m : ℕ,n ≤ m ∧ m < 2^31 ∧ s++46::decimal m ∉ files) := by
  induction k with
  | zero =>
    intro n buf hn h
    have hv : toInt (strtol (decimal n)) = 2^31-1 := by
      rw [atoi_decimal (by omega)]
      omega
    rw [reaches_max h (splits_decimal s (by decide) n) hv]
    constructor
    · exact fun hfree => ⟨n,le_refl n,by omega,hfree⟩
    · rintro ⟨m,hlo,hhi,hfree⟩
      rwa [show n = m by omega]
  | succ k ih =>
    intro n buf hn h
    have hv : toInt (strtol (decimal n)) ≠ 2^31-1 := by
      rw [atoi_decimal (by omega)]
      omega
    have hnext : dotted (s++[46])++formatInt (toInt (strtol (decimal n))+1) = s++46::decimal (n+1) := by
      rw [dotted_concat,if_pos rfl,next_decimal (by omega),List.append_assoc]
      rfl
    rw [reaches_next h (splits_decimal s (by decide) n) hroom hv
      (fun buf' h' => ih (n+1) buf' (by omega) (hnext ▸ h'))]
    constructor
    · rintro (hfree | ⟨m,hlo,hhi,hfree⟩)
      · exact ⟨n,le_refl n,by omega,hfree⟩
      · exact ⟨m,by omega,hhi,hfree⟩
    · rintro ⟨m,hlo,hhi,hfree⟩
      rcases hlo.eq_or_lt with rfl | hlt
      · exact .inl hfree
      · exact .inr ⟨m,hlt,hhi,hfree⟩

/-- A number with a minus sign: it is counted up behind the sign and a dot. -/
theorem reaches_negative {s : Bytes} (hroom : s.length < 90) {n : ℕ} (hn : n < 2^31)
    (h : Holds buf (s++45::decimal n)) :
    Reaches files buf ↔ s++45::decimal n ∉ files ∨
      ∃ m : ℕ,n < m ∧ m < 2^31 ∧ s++45::46::decimal m ∉ files := by
  have hsplits : Splits (s++45::decimal n) s (decimal n) 45 := splits_decimal s (by decide) n
  have hv := atoi_decimal hn
  by_cases hmax : n = 2^31-1
  · rw [reaches_max h hsplits (by omega)]
    refine (or_iff_left ?_).symm
    rintro ⟨m,hlo,hhi,-⟩
    omega
  · have hnext : dotted (s++[45])++formatInt (toInt (strtol (decimal n))+1) =
        (s++[45])++46::decimal (n+1) := by
      rw [dotted_concat,if_neg (by decide),next_decimal hn,List.append_assoc (s++[45])]
      rfl
    have hlen : (s++[45]).length = s.length+1 := List.length_append
    have hcount : ∀ buf',Holds buf' (dotted (s++[45])++formatInt (toInt (strtol (decimal n))+1)) →
        (Reaches files buf' ↔ ∃ m : ℕ,n+1 ≤ m ∧ m < 2^31 ∧ (s++[45])++46::decimal m ∉ files) :=
      fun buf' h' => reaches_counting (by omega) (2^31-1-(n+1)) (n+1) buf' (by omega) (hnext ▸ h')
    have happend : ∀ m,(s++[45])++46::decimal m = s++45::46::decimal m := fun m => by
      rw [List.append_assoc]
      rfl
    simp only [happend] at hcount
    exact reaches_next h hsplits (by omega) (by omega) hcount

theorem Splits.stem {s ds : Bytes} {c : UInt8} (hs : Splits name s ds c) :
    name.rdropWhile isdigit = s++[c] ∧ name.rtakeWhile isdigit = ds := by
  obtain ⟨rfl,hc,hds⟩ := hs
  have hreverse : (s++c::ds).reverse = ds.reverse++c::s.reverse := by simp
  have hall : ∀ b ∈ ds.reverse,isdigit b = true := fun b hb => hds b (List.mem_reverse.mp hb)
  have hdrop : (s++c::ds).rdropWhile isdigit = s++[c] := by
    rw [List.rdropWhile,hreverse,List.dropWhile_append_of_pos hall,List.dropWhile_cons_of_neg (by simp [hc])]
    simp
  refine ⟨hdrop,?_⟩
  have happend := List.rdropWhile_append_rtakeWhile (p := isdigit) (l := s++c::ds)
  rw [hdrop,List.append_assoc] at happend
  exact List.cons_injective (List.append_cancel_left happend)

theorem dotted_eq (s : Bytes) (c : UInt8) :
    ∃ t,dotted (s++[c]) = t++[46] ∧ t.length ≤ s.length+1 := by
  rw [dotted_concat]
  by_cases hc : c = 46
  · exact ⟨s,by rw [if_pos hc,hc],Nat.le_succ _⟩
  · refine ⟨s++[c],by rw [if_neg hc],?_⟩
    rw [List.length_append]
    exact le_refl _

/-- The numbers that are counted up from the one at the end. -/
theorem reaches_nonneg {s ds t : Bytes} {c : UInt8} (h : Holds buf name) (hs : Splits name s ds c)
    (hroom : s.length < 85) (ht : dotted (s++[c]) = t++[46]) (htlen : t.length ≤ s.length+1)
    (hlo : -1 ≤ toInt (strtol ds)) (hmax : toInt (strtol ds) ≠ 2^31-1) :
    Reaches files buf ↔ name ∉ files ∨
      ∃ m : ℕ,toInt (strtol ds) < m ∧ m < 2^31 ∧ (t++[46])++decimal m ∉ files := by
  obtain ⟨-,hhi⟩ := toInt_range (strtol ds)
  obtain ⟨n,hn⟩ := Int.eq_ofNat_of_zero_le (show 0 ≤ toInt (strtol ds)+1 by omega)
  have hdecimal : ∀ m,(t++[46])++decimal m = t++46::decimal m := fun m => by
    rw [List.append_assoc]
    rfl
  have hcount : ∀ buf',Holds buf' (dotted (s++[c])++formatInt (toInt (strtol ds)+1)) →
      (Reaches files buf' ↔ ∃ m : ℕ,toInt (strtol ds) < m ∧ m < 2^31 ∧ (t++[46])++decimal m ∉ files) := by
    intro buf' h'
    rw [ht,hn,formatInt_natCast,hdecimal] at h'
    rw [reaches_counting (by omega) (2^31-1-n) n buf' (by omega) h']
    simp only [hdecimal]
    constructor
    · rintro ⟨m,hm⟩
      exact ⟨m,by omega,hm.2⟩
    · rintro ⟨m,hm⟩
      exact ⟨m,by omega,hm.2⟩
  exact reaches_next h hs (by omega) hmax hcount

/-- Any name: one of those that may be tried is free. -/
theorem reaches_iff {s ds : Bytes} {c : UInt8} (h : Holds buf name) (hs : Splits name s ds c)
    (hroom : s.length < 85) : Reaches files buf ↔ ∃ c,Candidate name c ∧ c ∉ files := by
  obtain ⟨hstem,hnumber⟩ := hs.stem
  obtain ⟨t,ht,htlen⟩ := dotted_eq s c
  obtain ⟨hlo,hhi⟩ := toInt_range (strtol ds)
  have hlen : (t++[46]).length = t.length+1 := List.length_append
  simp only [Candidate,hstem,hnumber,ht]
  by_cases hmax : toInt (strtol ds) = 2^31-1
  · rw [reaches_max h hs hmax]
    constructor
    · exact fun hfree => ⟨name,.inl rfl,hfree⟩
    · rintro ⟨x,rfl | ⟨-,m,hlo,hhi,-⟩ | ⟨hneg,-⟩,hfree⟩
      · exact hfree
      · omega
      · omega
  by_cases hneg : toInt (strtol ds) < -1
  · have hnegative : ∀ buf',Holds buf' (dotted (s++[c])++formatInt (toInt (strtol ds)+1)) →
        (Reaches files buf' ↔ (t++[46])++45::decimal (toInt (strtol ds)+1).natAbs ∉ files ∨
          ∃ m : ℕ,(toInt (strtol ds)+1).natAbs < m ∧ m < 2^31 ∧
            (t++[46])++45::46::decimal m ∉ files) := fun buf' h' => by
      rw [ht,formatInt_neg (by omega)] at h'
      exact reaches_negative (by omega) (by omega) h'
    rw [reaches_next h hs (by omega) hmax hnegative]
    constructor
    · rintro (hfree | hfree | ⟨m,hlo,hm,hfree⟩)
      · exact ⟨name,.inl rfl,hfree⟩
      · exact ⟨_,.inr (.inr ⟨hneg,.inl rfl⟩),hfree⟩
      · exact ⟨_,.inr (.inr ⟨hneg,.inr ⟨m,hlo,hm,rfl⟩⟩),hfree⟩
    · rintro ⟨x,rfl | ⟨hpos,-⟩ | ⟨-,rfl | ⟨m,hlo,hm,rfl⟩⟩,hfree⟩
      · exact .inl hfree
      · omega
      · exact .inr (.inl hfree)
      · exact .inr (.inr ⟨m,hlo,hm,hfree⟩)
  · rw [reaches_nonneg h hs hroom ht htlen (by omega) hmax]
    constructor
    · rintro (hfree | ⟨m,hlo,hm,hfree⟩)
      · exact ⟨name,.inl rfl,hfree⟩
      · exact ⟨_,.inr (.inl ⟨by omega,m,hlo,hm,rfl⟩),hfree⟩
    · rintro ⟨x,rfl | ⟨-,m,hlo,hm,rfl⟩ | ⟨hneg',-⟩,hfree⟩
      · exact .inl hfree
      · exact .inr ⟨m,hlo,hm,hfree⟩
      · exact absurd hneg' hneg

end Loop

/-! ### The first name -/

/-- A name with a byte that is no digit. -/
theorem exists_splits {name : Bytes} {b : UInt8} (hmem : b ∈ name) (hb : isdigit b = false) :
    ∃ s ds c,Splits name s ds c := by
  have hne : name.rdropWhile isdigit ≠ [] := fun hnil => by
    have hdigit := List.rdropWhile_eq_nil_iff.mp hnil b hmem
    rw [hb] at hdigit
    cases hdigit
  have hsplit := List.rdropWhile_append_rtakeWhile (p := isdigit) (l := name)
  refine ⟨(name.rdropWhile isdigit).dropLast,name.rtakeWhile isdigit,
    (name.rdropWhile isdigit).getLast hne,?_,?_,fun x hx => List.mem_rtakeWhile_imp hx⟩
  · rw [← List.singleton_append,← List.append_assoc,List.dropLast_append_getLast,hsplit]
  · exact Bool.eq_false_of_not_eq_true (List.rdropWhile_last_not isdigit name hne)

theorem pathName_noNul {url : Bytes} (hurl : 0 ∉ url) : 0 ∉ pathName url := by
  rw [pathName]
  split_ifs
  · decide
  · exact fun hmem => hurl (List.mem_of_mem_drop hmem)
  · decide

section First
variable (now : Int64) (isgzip : ℤ) (url : Text)

/-- The time in front of the name. -/
theorem time_length : (formatInt now.toInt++[95]).length ≤ 21 := by
  have hlo := now.le_toInt
  have hhi := now.toInt_lt
  have hlen := formatInt_length (n := now.toInt) (k := 19) (by decide) (by omega)
  rw [List.length_append,List.length_singleton]
  omega

theorem time_noNul : 0 ∉ formatInt now.toInt++[95] := by
  rw [List.mem_append,not_or]
  exact ⟨formatInt_noNul _,by decide⟩

/-- What is copied is cut off behind its 78 bytes, and the whole name too. -/
theorem copy_ok {buf t src : Bytes} (h : Holds buf t) (ht : t.length ≤ 21) (hsrc : 0 ∉ src) :
    ∃ buf',(writeAt buf t.length (src.take (maxFileSize-50)++[0]) >>= fun buf =>
        writeAt buf (maxFileSize-50) [0]) = .ok buf' ∧ Holds buf' ((t++src).take (maxFileSize-50)) := by
  have hlen : (src.take (maxFileSize-50)).length ≤ 78 := List.length_take_le _ _
  have hroom : t.length+(src.take (maxFileSize-50)).length < maxFileSize :=
    (Nat.add_le_add ht hlen).trans_lt (by decide)
  obtain ⟨buf₁,hwrite,h₁⟩ := h.append (fun hmem => hsrc (List.mem_of_mem_take hmem)) hroom
  obtain ⟨buf₂,hcut,h₂⟩ := h₁.cut (show maxFileSize-50 < maxFileSize by decide)
  have htake : (t++src.take (maxFileSize-50)).take (maxFileSize-50) = (t++src).take (maxFileSize-50) := by
    rw [List.take_append,List.take_append,List.take_take,min_eq_left (Nat.sub_le _ _)]
  rw [htake] at h₂
  exact ⟨buf₂,by rw [hwrite,ok_bind,hcut],h₂⟩

theorem appendPath_ok {buf t : Bytes} (h : Holds buf t) (ht : t.length ≤ 21) :
    ∃ buf',appendPath url.bytes (lastSlash url.bytes (toInt url.bytes.length).toNat) buf = .ok buf' ∧
      Holds buf' ((t++pathName url.bytes).take (maxFileSize-50)) := by
  have hnul := pathName_noNul url.noNul
  rw [appendPath,h.strlen_eq,ok_bind]
  rw [pathName] at hnul ⊢
  by_cases hslash : url.bytes[lastSlash url.bytes (toInt url.bytes.length).toNat]? = some 47
  · rw [if_pos hslash] at hnul ⊢
    rw [if_pos hslash]
    exact copy_ok h ht hnul
  · rw [if_neg hslash,if_neg hslash]
    have hindex : (ascii "index.html").length = 10 := by decide
    have hlen : (t++ascii "index.html").length = t.length+10 := by rw [List.length_append,hindex]
    rw [List.take_of_length_le (hlen.trans_le ((Nat.add_le_add_right ht 10).trans (by decide)))]
    refine h.append (by decide) ?_
    rw [hindex]
    exact (Nat.add_le_add_right ht 10).trans_lt (by decide)

theorem appendGz_ok {buf name : Bytes} (h : Holds buf name) (hlen : name.length ≤ 78) :
    ∃ buf',appendGz isgzip buf = .ok buf' ∧
      Holds buf' (name++if isgzip = 1 then ascii ".gz" else []) := by
  rw [appendGz]
  split_ifs
  · rw [h.strlen_eq,ok_bind]
    have hgz : (ascii ".gz").length = 3 := by decide
    refine h.append (by decide) ?_
    rw [hgz]
    exact (Nat.add_le_add_right hlen 3).trans_lt (by decide)
  · rw [List.append_nil]
    exact ⟨buf,rfl,h⟩

/-- Inside of the array the name is put together as `nameOf`. -/
theorem firstName_ok {buf : Bytes} (hbuf : buf.length = maxFileSize) (hi : 0 ≤ toInt url.bytes.length) :
    ∃ buf',firstName now isgzip url.bytes buf = .ok buf' ∧ Holds buf' (nameOf now isgzip url.bytes) := by
  have htime := time_length now
  obtain ⟨buf₁,hwrite,h₁⟩ := holds_first hbuf (time_noNul now) (htime.trans_lt (by decide))
  obtain ⟨buf₂,hpath,h₂⟩ := appendPath_ok url h₁ htime
  obtain ⟨buf₃,hgz,h₃⟩ := appendGz_ok isgzip h₂ (List.length_take_le _ _)
  refine ⟨buf₃,?_,h₃⟩
  rw [firstName,if_neg (not_lt.mpr hi),List.take_of_length_le (htime.trans (by decide)),hwrite,ok_bind,
    hpath,ok_bind,hgz]

/-- The byte behind the time is no digit, and the cut leaves it. -/
theorem splits_nameOf : ∃ s ds c,Splits (nameOf now isgzip url.bytes) s ds c ∧ s.length < 85 := by
  have htime := time_length now
  have hmem : 95 ∈ nameOf now isgzip url.bytes := by
    rw [nameOf,List.take_append,List.take_of_length_le (htime.trans (by decide))]
    simp
  obtain ⟨s,ds,c,hs⟩ := exists_splits hmem (by decide)
  refine ⟨s,ds,c,hs,?_⟩
  have hlen := congrArg List.length hs.eq
  have htake : ((formatInt now.toInt++[95]++pathName url.bytes).take (maxFileSize-50)).length ≤ 78 :=
    List.length_take_le _ _
  have hgz : (if isgzip = 1 then ascii ".gz" else []).length ≤ 3 := by
    split_ifs <;> decide
  rw [nameOf,List.length_append,List.length_append,List.length_cons] at hlen
  omega

end First

/-- Which names are taken decides whether a fresh one is found. -/
theorem reaches_nameOf {files : List Bytes} {now : Int64} {isgzip : ℤ} {url : Text} {buf : Bytes}
    (h : Holds buf (nameOf now isgzip url.bytes)) :
    Reaches files buf ↔ ∃ c,Candidate (nameOf now isgzip url.bytes) c ∧ c ∉ files := by
  obtain ⟨s,ds,c,hs,hlen⟩ := splits_nameOf now isgzip url
  exact reaches_iff h hs hlen

theorem setfilename_iff {files : List Bytes} {now : Int64} {isgzip : ℤ} {url : Text} {buf : Bytes}
    (hbuf : buf.length = maxFileSize) :
    (∃ fuel buf',setfilename files now isgzip url.bytes fuel buf = .ok buf' ∧ cstr buf' ∉ files) ↔
      0 ≤ toInt url.bytes.length ∧ ∃ c,Candidate (nameOf now isgzip url.bytes) c ∧ c ∉ files := by
  by_cases hi : 0 ≤ toInt url.bytes.length
  · obtain ⟨buf',hfirst,h⟩ := firstName_ok now isgzip url hbuf hi
    rw [and_iff_right hi,← reaches_nameOf h]
    simp only [setfilename,hfirst,ok_bind]
    rfl
  · refine iff_of_false ?_ (fun h => hi h.1)
    rintro ⟨fuel,buf',hset,-⟩
    rw [setfilename,firstName,if_pos (not_le.mp hi)] at hset
    cases hset

/-- A fresh name is found exactly if the index of the URL's end is an `int` that is not negative,
and one of the names that may be tried is free. -/
theorem fresh_iff (files : List Bytes) (now : Int64) (isgzip : ℤ) (url : Text) :
    Fresh files now isgzip url.bytes ↔ 0 ≤ toInt url.bytes.length ∧
      ∃ c,Candidate (nameOf now isgzip url.bytes) c ∧ c ∉ files := by
  constructor
  · intro h
    have hbuf : (List.replicate maxFileSize (0 : UInt8)).length = maxFileSize := List.length_replicate
    exact (setfilename_iff hbuf).mp (h _ hbuf)
  · exact fun h buf hbuf => (setfilename_iff hbuf).mpr h

/-- A path that is the greatest `int`. -/
def greatest : Text := ⟨ascii "http://a.org/2147483647",by decide +kernel⟩

theorem not_fresh_greatest : ¬Fresh [ascii "0_2147483647"] 0 0 greatest.bytes := by
  intro h
  have hbuf : (List.replicate maxFileSize (0 : UInt8)).length = maxFileSize := List.length_replicate
  obtain ⟨-,c,hc,hfree⟩ := setfilename_iff hbuf |>.mp (h _ hbuf)
  have hurl : (toInt greatest.bytes.length).toNat = 23 := by
    rw [show greatest.bytes.length = 23 by decide +kernel,toInt_of_lt (by decide)]
    rfl
  have hname : nameOf 0 0 greatest.bytes = ascii "0_2147483647" := by
    rw [nameOf,pathName,hurl]
    decide +kernel
  have hdigits : (ascii "0_2147483647").rtakeWhile isdigit = decimal 2147483647 := by decide +kernel
  have hv : toInt (strtol (decimal 2147483647)) = 2147483647 := atoi_decimal (by decide)
  rw [hname,Candidate,hdigits,hv] at hc
  rcases hc with rfl | ⟨-,n,hlo,hhi,-⟩ | ⟨hneg,-⟩
  · exact hfree List.mem_cons_self
  · omega
  · omega

end AntFileName
end RecycleBin
