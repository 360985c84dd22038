import RecycleBin.AntHashMap
import RecycleBin.CString

/-! The record of the URLs downloaded before: `cache_url_init` of `ant_context.c` maps the file and
puts each of its lines into the table `cache_url`. -/
namespace RecycleBin
namespace AntRecord
open AntHash CString

/-- `ant_hash_new(4096, 0, NULL, NULL)` of `ant_total_context_init`. -/
def cacheUrl : Config := ⟨4096,0,none,none⟩

theorem cacheUrl_lawful : cacheUrl.Lawful := Config.lawful_default (by decide) rfl rfl

/-- `sysconf(_SC_PAGE_SIZE)`: a power of two of at most a megabyte. -/
structure PageSize where
  bits : ℕ
  bits_le : bits ≤ 20

def PageSize.size (page : PageSize) : ℕ := 2^page.bits

/-- Where `mmap` puts the file and `strdup` the copy of the line at each offset. -/
structure Space where
  p : ℕ
  strdup : ℕ → ℕ
  p_pos : 0 < p
  strdup_pos : ∀ i,0 < strdup i
  strdup_injective : Function.Injective strdup
  apart : ∀ i,∀ j < 2^31,strdup i ≠ p+j

/-- `size`, an `int`. The quotient is exact as long as its ceiling fits into an `int`. -/
def mapSize (page : PageSize) (stSize : ℕ) : Except Fault ℤ :=
  let pages := (stSize+page.size-1)/page.size
  if pages < 2^31 then .ok (toInt (pages*page.size : ℕ)) else .error .undefined

/-- The bytes of a mapping; the last page is filled with zeros. -/
def mapped (file : Bytes) (size : ℕ) : Bytes := file.take size++List.replicate (size-file.length) 0

/-- The test for a line, whose bytes stand at `begin` with the rest of the mapping behind them. -/
def addUrl (sp : Space) (t : Table) (begin : ℕ) (bytes : Bytes) : Except Fault Table := do
  let t := t.present (sp.p+begin) ⟨bytes,false⟩
  let r ← lookup cacheUrl t (sp.p+begin)
  if r.1 = none then
    let t := t.present (sp.strdup begin) ⟨cstr bytes++[0],true⟩
    let r ← put cacheUrl t (sp.strdup begin) 0
    .ok r.2
  else .ok t

/-- The loop, with `line` between `begin` and `end`, and the bytes from `end` on. Behind the
newline `begin = ++end` passes one byte, and the `end++` of the loop another. -/
def scan (sp : Space) (t : Table) (begin : ℕ) (line : Bytes) : Bytes → Except Fault Table
  | [] => .error .undefined
  | c::rest =>
    if c = 0 then .ok t
    else if c ≠ 10 then scan sp t begin (line++[c]) rest
    else do
      let t ← addUrl sp t begin (line++0::rest)
      match rest with
      | [] => .error .undefined
      | b::rest => scan sp t (begin+line.length+1) [b] rest

/-- `cache_url_init` on a file that opens; `mmap` refuses a size that is not positive. -/
def cacheUrlInit (page : PageSize) (sp : Space) (t : Table) (file : Bytes) : Except Fault Table := do
  let size ← mapSize page file.length
  if size ≤ 0 then .ok t else scan sp t 0 [] (mapped file size.toNat)

/-! ### Records -/

/-- Lines that are not empty and have no NUL. -/
structure Record where
  lines : List Bytes
  ne_nil : ∀ l ∈ lines,l ≠ []
  noNul : ∀ l ∈ lines,0 ∉ l
  noNewline : ∀ l ∈ lines,10 ∉ l

/-- The lines as the file has them. -/
def text (lines : List Bytes) : Bytes := lines.flatMap (·++[10])

/-- The table stands for a map whose keys read as the texts. -/
def Keeps (t : Table) (texts : List Bytes) : Prop :=
  ∃ M B,Represents cacheUrl_lawful t M B ∧ ∀ s,(∃ i,∃ e ∈ B i,cstr e.key.block.bytes = s) ↔ s ∈ texts

/-- The scan stays inside the mapping, and the keys are the lines. -/
def Reloads (page : PageSize) (lines : List Bytes) : Prop :=
  ∀ sp,∃ t,cacheUrlInit page sp (new cacheUrl) (text lines) = .ok t ∧ Keeps t lines

/-- Two bytes or more of the last page are left, and its end is within an `int`. -/
def LeavesRoom (page : PageSize) (n : ℕ) : Prop :=
  n%page.size ≠ 0 ∧ n%page.size ≠ page.size-1 ∧ (n+page.size-1)/page.size*page.size < 2^31

/-! ### The table -/

theorem valid_of_mem {bytes : Bytes} (h : 0 ∈ bytes) : cacheUrl.Valid bytes := fun _ => h

/-- The key of a lookup: a pointer into the mapping. -/
def lineKey (sp : Space) (begin : ℕ) (line rest : Bytes) : Key cacheUrl :=
  ⟨sp.p+begin,⟨line++0::rest,false⟩,(Nat.add_pos_left sp.p_pos begin).ne',
    valid_of_mem (List.mem_append_right line List.mem_cons_self)⟩

/-- The key that is put: the copy. -/
def copyKey (sp : Space) (begin : ℕ) (s : Bytes) : Key cacheUrl :=
  ⟨sp.strdup begin,⟨s++[0],true⟩,(sp.strdup_pos begin).ne',
    valid_of_mem (List.mem_append_right s List.mem_cons_self)⟩

/-- The map holds the copies of the texts, made for lines before the offset. -/
structure Loaded (sp : Space) (pos : ℕ) (texts : List Bytes) (M : Map cacheUrl_lawful) : Prop where
  noNul : ∀ s ∈ texts,0 ∉ s
  copies : ∀ c e,M.lookup c = some e → ∃ i < pos,∃ s ∈ texts,e.key = copyKey sp i s
  all : ∀ s ∈ texts,∃ c e i,M.lookup c = some e ∧ e.key = copyKey sp i s
  card : M.keys.card ≤ pos

theorem loaded_empty (sp : Space) : Loaded sp 0 [] ∅ where
  noNul s hs := by cases hs
  copies c e he := by simp at he
  all s hs := by cases hs
  card := by simp

section Add
variable {sp : Space} {pos : ℕ} {texts : List Bytes} {M : Map cacheUrl_lawful} {t : Table}
  {B : ℕ → List (Entry cacheUrl)} {line rest : Bytes}

theorem Loaded.mono (h : Loaded sp pos texts M) {pos' : ℕ} (hle : pos ≤ pos') :
    Loaded sp pos' texts M where
  noNul := h.noNul
  copies c e he := by
    obtain ⟨i,hi,hs⟩ := h.copies c e he
    exact ⟨i,hi.trans_le hle,hs⟩
  all := h.all
  card := h.card.trans hle

theorem cls_eq_iff {i j : ℕ} {s : Bytes} (hs : 0 ∉ s) (hline : 0 ∉ line) :
    (copyKey sp i s).cls cacheUrl_lawful = (lineKey sp j line rest).cls cacheUrl_lawful ↔ s = line := by
  have hcopy : cstr (s++[0]) = s := cstr_terminated hs []
  have hkey : cstr (line++0::rest) = line := cstr_terminated hline rest
  rw [Key.cls_eq]
  show cstr (s++[0]) = cstr (line++0::rest) ↔ s = line
  rw [hcopy,hkey]

/-- A line that is there is not put again. -/
theorem Loaded.found (h : Loaded sp pos texts M) (R : Represents cacheUrl_lawful t M B)
    (hline : 0 ∉ line) {st : Stored cacheUrl}
    (hM : M.lookup ((lineKey sp pos line rest).cls cacheUrl_lawful) = some st) :
    Loaded sp (pos+1) (texts++[line]) M := by
  obtain ⟨i,hi,s,hs,hkey⟩ := h.copies _ _ hM
  have hsline : s = line := by
    obtain ⟨e,-,hcls,rfl⟩ := (R.lookup _ _).mp hM
    have hecls : e.key.cls cacheUrl_lawful = (lineKey sp pos line rest).cls cacheUrl_lawful := hcls
    rw [show e.key = copyKey sp i s from hkey] at hecls
    exact (cls_eq_iff (h.noNul s hs) hline).mp hecls
  subst hsline
  refine ⟨fun x hx => ?_,fun c e he => ?_,fun x hx => ?_,h.card.trans (Nat.le_succ _)⟩
  · rcases List.mem_append.mp hx with hx | hx
    · exact h.noNul x hx
    · rwa [List.mem_singleton.mp hx]
  · obtain ⟨j,hj,x,hx,hkey⟩ := h.copies c e he
    exact ⟨j,hj.trans (Nat.lt_succ_self _),x,List.mem_append_left _ hx,hkey⟩
  · rcases List.mem_append.mp hx with hx | hx
    · exact h.all x hx
    · rw [List.mem_singleton.mp hx]
      exact ⟨_,st,i,hM,hkey⟩

/-- A new line is put under its copy. -/
theorem Loaded.put (h : Loaded sp pos texts M) (hline : 0 ∉ line)
    (hM : M.lookup ((copyKey sp pos line).cls cacheUrl_lawful) = none) :
    Loaded sp (pos+1) (texts++[line])
      (M.insert ((copyKey sp pos line).cls cacheUrl_lawful) ⟨copyKey sp pos line,0⟩) := by
  refine ⟨fun x hx => ?_,fun c e he => ?_,fun x hx => ?_,?_⟩
  · rcases List.mem_append.mp hx with hx | hx
    · exact h.noNul x hx
    · rwa [List.mem_singleton.mp hx]
  · by_cases hc : c = (copyKey sp pos line).cls cacheUrl_lawful
    · subst hc
      rw [Finmap.lookup_insert] at he
      cases he
      exact ⟨pos,Nat.lt_succ_self pos,line,List.mem_append_right _ List.mem_cons_self,rfl⟩
    · rw [Finmap.lookup_insert_of_ne _ hc] at he
      obtain ⟨j,hj,x,hx,hkey⟩ := h.copies c e he
      exact ⟨j,hj.trans (Nat.lt_succ_self _),x,List.mem_append_left _ hx,hkey⟩
  · rcases List.mem_append.mp hx with hx | hx
    · obtain ⟨c,e,i,he,hkey⟩ := h.all x hx
      have hc : c ≠ (copyKey sp pos line).cls cacheUrl_lawful := by
        rintro rfl
        rw [hM] at he
        cases he
      exact ⟨c,e,i,(Finmap.lookup_insert_of_ne _ hc).trans he,hkey⟩
    · rw [List.mem_singleton.mp hx]
      exact ⟨_,_,pos,Finmap.lookup_insert _,rfl⟩
  · rw [keys_insert]
    exact (Finset.card_insert_le _ _).trans (Nat.succ_le_succ h.card)

/-- Neither a pointer into the mapping nor a new copy is that of a stored key. -/
theorem Loaded.unmodified (h : Loaded sp pos texts M) (hpos : pos < 2^31) (line rest : Bytes) :
    Unmodified cacheUrl_lawful (.lookup (lineKey sp pos line rest)) M ∧
      Unmodified cacheUrl_lawful (.put (copyKey sp pos line) 0) M := by
  constructor
  · intro c e he haddr
    obtain ⟨i,-,s,-,hkey⟩ := h.copies c e he
    rw [hkey] at haddr
    exact absurd haddr (sp.apart i pos hpos)
  · intro c e he haddr
    obtain ⟨i,hi,s,-,hkey⟩ := h.copies c e he
    rw [hkey] at haddr
    exact absurd (sp.strdup_injective haddr) hi.ne

/-- The test of one line: afterwards the table keeps it as well. -/
theorem addUrl_loaded (h : Loaded sp pos texts M) (R : Represents cacheUrl_lawful t M B)
    (hline : 0 ∉ line) (hpos : pos < 2^31-1) (rest : Bytes) :
    ∃ t' M' B',addUrl sp t pos (line++0::rest) = .ok t' ∧ Represents cacheUrl_lawful t' M' B' ∧
      Loaded sp (pos+1) (texts++[line]) M' := by
  obtain ⟨hU,hU'⟩ := h.unmodified (by omega) line rest
  let t₁ := t.present (sp.p+pos) ⟨line++0::rest,false⟩
  let t₂ := t₁.present (sp.strdup pos) ⟨line++[0],true⟩
  have R₁ : Represents cacheUrl_lawful t₁ M B := R.present hU
  have hk : t₁.keys (sp.p+pos) = some (lineKey sp pos line rest).block := Function.update_self _ _ _
  cases hM : M.lookup ((lineKey sp pos line rest).cls cacheUrl_lawful) with
  | none =>
    have hlookup : lookup cacheUrl t₁ (sp.p+pos) = .ok (none,none) := R₁.lookup_none hk hM
    have R₂ : Represents cacheUrl_lawful t₂ M B := R₁.present hU'
    have hcls : (copyKey sp pos line).cls cacheUrl_lawful =
        (lineKey sp pos line rest).cls cacheUrl_lawful := (cls_eq_iff hline hline).mpr rfl
    have hk₂ : t₂.keys (copyKey sp pos line).addr = some (copyKey sp pos line).block :=
      Function.update_self _ _ _
    rw [← hcls] at hM
    obtain ⟨t',B',hput,R₃⟩ := R₂.put_none 0 hk₂ hM (h.card.trans_lt hpos)
    have hput' : AntHash.put cacheUrl t₂ (sp.strdup pos) 0 = .ok (0,t') := hput
    refine ⟨t',_,B',?_,R₃,h.put hline hM⟩
    rw [addUrl,cstr_terminated hline]
    simp only [hlookup,hput',t₁,t₂,ok_bind,if_true]
  | some st =>
    obtain ⟨l₁,e,l₂,-,-,-,hlookup⟩ := R₁.lookup_some hk hM
    have hlookup' : lookup cacheUrl t₁ (sp.p+pos) = .ok (some e.cell,l₁.getLast?.map Entry.cell) := hlookup
    refine ⟨t₁,M,B,?_,R₁,h.found R hline hM⟩
    rw [addUrl]
    simp only [hlookup',t₁,ok_bind]
    rfl

theorem Loaded.keeps (h : Loaded sp pos texts M) (R : Represents cacheUrl_lawful t M B) :
    Keeps t texts := by
  refine ⟨M,B,R,fun s => ⟨?_,fun hs => ?_⟩⟩
  · rintro ⟨i,e,he,rfl⟩
    have hM : M.lookup (e.cls cacheUrl_lawful) = some e.toStored :=
      (R.lookup _ _).mpr ⟨e,by rwa [R.bucket i e he],rfl,rfl⟩
    obtain ⟨j,-,s,hs,hkey⟩ := h.copies _ _ hM
    rw [hkey]
    show cstr (s++[0]) ∈ texts
    rwa [cstr_terminated (h.noNul s hs)]
  · obtain ⟨c,st,i,hM,hkey⟩ := h.all s hs
    obtain ⟨e,he,-,rfl⟩ := (R.lookup c st).mp hM
    refine ⟨c.bucket,e,he,?_⟩
    rw [hkey]
    exact cstr_terminated (h.noNul s hs) []

end Add

/-- An empty table keeps nothing. -/
theorem keeps_new {texts : List Bytes} (h : Keeps (new cacheUrl) texts) : texts = [] := by
  obtain ⟨M,B,R,hkeys⟩ := h
  rw [List.eq_nil_iff_forall_not_mem]
  intro s hs
  obtain ⟨i,e,he,-⟩ := (hkeys s).mpr hs
  have hM : M.lookup (e.cls cacheUrl_lawful) = some e.toStored :=
    (R.lookup _ _).mpr ⟨e,by rwa [R.bucket i e he],rfl,rfl⟩
  have hpos := Finset.card_pos.mpr ⟨_,mem_keys_of_lookup hM⟩
  have hzero : (0 : ℤ) = M.keys.card := R.length
  omega

/-! ### The loop -/

/-- The loop behind a newline. -/
def resume (sp : Space) (t : Table) (begin : ℕ) : Bytes → Except Fault Table
  | [] => .error .undefined
  | b::rest => scan sp t begin [b] rest

/-- Up to the newline the loop only moves `end`. -/
theorem scan_line (sp : Space) (t : Table) (begin : ℕ) (line : Bytes) {suf : Bytes} (hnul : 0 ∉ suf)
    (hnewline : 10 ∉ suf) (rest : Bytes) :
    scan sp t begin line (suf++10::rest) =
      addUrl sp t begin (line++suf++0::rest) >>= fun t =>
        resume sp t (begin+(line++suf).length+1) rest := by
  induction suf generalizing line with
  | nil =>
    rw [List.nil_append,scan,if_neg (by decide),if_neg (by decide),List.append_nil]
    congr 1
  | cons c suf ih =>
    obtain ⟨hc,hnul⟩ := not_or.mp (fun h => hnul (List.mem_cons.mpr h))
    obtain ⟨hc10,hnewline⟩ := not_or.mp (fun h => hnewline (List.mem_cons.mpr h))
    rw [List.cons_append,scan,if_neg (Ne.symm hc),if_pos (Ne.symm hc10),ih (line++[c]) hnul hnewline,
      List.append_assoc line [c] suf,List.singleton_append]

theorem text_cons (l : Bytes) (ls : List Bytes) : text (l::ls) = l++10::text ls := by
  rw [text,List.flatMap_cons,List.append_assoc]
  rfl

theorem text_length (l : Bytes) (ls : List Bytes) :
    (text (l::ls)).length = l.length+(text ls).length+1 := by
  rw [text_cons,List.length_append,List.length_cons,Nat.add_assoc]

/-- One line, part of which is passed already. -/
theorem scan_first {sp : Space} {pos : ℕ} {texts : List Bytes} {M : Map cacheUrl_lawful} {t : Table}
    {B : ℕ → List (Entry cacheUrl)} {line suf : Bytes} (h : Loaded sp pos texts M)
    (R : Represents cacheUrl_lawful t M B) (hnul : 0 ∉ line++suf) (hnewline : 10 ∉ line++suf)
    (hpos : pos < 2^31-1) (rest : Bytes) :
    ∃ t' M' B',scan sp t pos line (suf++10::rest) = resume sp t' (pos+(line++suf).length+1) rest ∧
      Represents cacheUrl_lawful t' M' B' ∧
      Loaded sp (pos+(line++suf).length+1) (texts++[line++suf]) M' := by
  obtain ⟨t',M',B',hadd,R',h'⟩ := addUrl_loaded h R hnul hpos rest
  refine ⟨t',M',B',?_,R',h'.mono (by omega)⟩
  rw [scan_line sp t pos line (fun hs => hnul (List.mem_append_right _ hs))
    (fun hs => hnewline (List.mem_append_right _ hs)),hadd,ok_bind]

/-- The lines one after the other, each with its first byte passed over; what stands behind them is
met in the same way. -/
theorem resume_lines {sp : Space} {pos : ℕ} {texts : List Bytes} {M : Map cacheUrl_lawful} {t : Table}
    {B : ℕ → List (Entry cacheUrl)} {ls : List Bytes} (h : Loaded sp pos texts M)
    (R : Represents cacheUrl_lawful t M B) (hne : ∀ x ∈ ls,x ≠ []) (hnul : ∀ x ∈ ls,0 ∉ x)
    (hnewline : ∀ x ∈ ls,10 ∉ x) (hlen : pos+(text ls).length < 2^31) (pad : Bytes) :
    ∃ t' pos',resume sp t pos (text ls++pad) = resume sp t' pos' pad ∧ Keeps t' (texts++ls) := by
  induction ls generalizing pos texts M t B with
  | nil => exact ⟨t,pos,rfl,by rw [List.append_nil]; exact h.keeps R⟩
  | cons l ls ih =>
    obtain ⟨b,suf,rfl⟩ := List.exists_cons_of_ne_nil (hne l List.mem_cons_self)
    rw [text_length] at hlen
    obtain ⟨t₁,M₁,B₁,hscan,R₁,h₁⟩ := scan_first h R (show 0 ∉ [b]++suf from hnul _ List.mem_cons_self)
      (hnewline _ List.mem_cons_self) (by omega) (text ls++pad)
    have hpos : pos+([b]++suf).length+1+(text ls).length < 2^31 := by
      have hlength : ([b]++suf).length = (b::suf).length := rfl
      omega
    obtain ⟨t',pos',hrest,hkeeps⟩ := ih h₁ R₁ (fun x hx => hne x (List.mem_cons_of_mem _ hx))
      (fun x hx => hnul x (List.mem_cons_of_mem _ hx))
      (fun x hx => hnewline x (List.mem_cons_of_mem _ hx)) hpos
    refine ⟨t',pos',?_,?_⟩
    · rw [text_cons,List.append_assoc,← hrest,← hscan]
      rfl
    · rwa [List.append_assoc] at hkeeps

/-- Without a zero byte the loop leaves the mapping. -/
theorem scan_noNul (sp : Space) {rest : Bytes} (hnul : 0 ∉ rest) (t : Table) (begin : ℕ) (line : Bytes) :
    ¬∃ t',scan sp t begin line rest = .ok t' := by
  induction hn : rest.length using Nat.strong_induction_on generalizing rest t begin line with
  | _ n ih =>
    rintro ⟨t',h⟩
    cases rest with
    | nil => rw [scan] at h; cases h
    | cons c rest =>
      obtain ⟨hc,hnul⟩ := not_or.mp (fun h => hnul (List.mem_cons.mpr h))
      rw [scan,if_neg (Ne.symm hc)] at h
      rw [List.length_cons] at hn
      split_ifs at h with hnewline
      · exact ih rest.length (by omega) hnul t begin _ rfl ⟨t',h⟩
      · obtain ⟨t₁,-,h⟩ := bind_eq_ok.mp h
        cases rest with
        | nil => cases h
        | cons b rest =>
          rw [List.length_cons] at hn
          exact ih rest.length (by omega) (fun hb => hnul (List.mem_cons_of_mem _ hb)) t₁ _ _ rfl ⟨t',h⟩

/-! ### The size of the mapping -/

theorem PageSize.pos (page : PageSize) : 0 < page.size := Nat.two_pow_pos _

/-- The bytes behind a file in its last page. -/
def PageSize.padding (page : PageSize) (n : ℕ) : ℕ :=
  if n%page.size = 0 then 0 else page.size-n%page.size

theorem PageSize.roundUp (page : PageSize) (n : ℕ) :
    (n+page.size-1)/page.size*page.size = n+page.padding n := by
  have hdiv := Nat.div_add_mod' n page.size
  have hmod := Nat.mod_lt n page.pos
  rw [padding]
  split_ifs with h
  · have hq : (n+page.size-1)/page.size = n/page.size :=
      Nat.div_eq_of_lt_le (by omega) (by rw [Nat.succ_mul]; omega)
    rw [hq]
    omega
  · have hq : (n+page.size-1)/page.size = n/page.size+1 :=
      Nat.div_eq_of_lt_le (by rw [Nat.succ_mul]; omega) (by rw [Nat.succ_mul,Nat.succ_mul]; omega)
    rw [hq,Nat.succ_mul]
    omega

theorem PageSize.padding_lt (page : PageSize) (n : ℕ) : page.padding n < page.size := by
  have hpos := page.pos
  rw [padding]
  split_ifs <;> omega

theorem PageSize.padding_lt_two (page : PageSize) (n : ℕ) :
    page.padding n < 2 ↔ n%page.size = 0 ∨ n%page.size = page.size-1 := by
  have hmod := Nat.mod_lt n page.pos
  rw [padding]
  split_ifs <;> omega

/-- A size that does not fit into an `int` is negative, or smaller by a multiple of `2^32`. -/
theorem toInt_wrap {n : ℕ} (h : 2^31 ≤ n) : toInt n < 2^31 ∧ toInt n ≤ n-2^32 := by
  rw [toInt,Int.bmod_def]
  split_ifs <;> omega

theorem mapSize_eq_ok {page : PageSize} {n : ℕ} {size : ℤ} (h : mapSize page n = .ok size) :
    size = toInt (n+page.padding n : ℕ) := by
  rw [mapSize,page.roundUp] at h
  split_ifs at h
  exact (Except.ok.inj h).symm

theorem mapSize_of_lt {page : PageSize} {n : ℕ} (h : n+page.padding n < 2^31) :
    mapSize page n = .ok (n+page.padding n : ℕ) := by
  have hpages : (n+page.size-1)/page.size < 2^31 := by
    rw [← page.roundUp] at h
    exact (Nat.le_mul_of_pos_right _ page.pos).trans_lt h
  rw [mapSize,if_pos hpages,page.roundUp,toInt_of_lt h]

theorem text_noNul {ls : List Bytes} (h : ∀ l ∈ ls,0 ∉ l) : 0 ∉ text ls := by
  intro hmem
  obtain ⟨l,hl,hmem⟩ := List.mem_flatMap.mp hmem
  rcases List.mem_append.mp hmem with hmem | hmem
  · exact h l hl hmem
  · exact absurd (List.mem_singleton.mp hmem) (by decide)

theorem text_pos {l : Bytes} {ls : List Bytes} : 0 < (text (l::ls)).length := by
  rw [text_length]
  exact Nat.succ_pos _

/-! ### The whole file -/

section File
variable {page : PageSize} {r : Record} {l : Bytes} {ls : List Bytes} (hr : r.lines = l::ls)
include hr

/-- With the lines mapped, the scan ends as it does behind them. -/
theorem scan_mapped (sp : Space) (hlen : (text r.lines).length < 2^31) (pad : Bytes) :
    ∃ t pos,scan sp (new cacheUrl) 0 [] (text r.lines++pad) = resume sp t pos pad ∧ Keeps t r.lines := by
  have hne := r.ne_nil
  have hnul := r.noNul
  have hnewline := r.noNewline
  rw [hr] at hne hnul hnewline hlen ⊢
  rw [text_length] at hlen
  obtain ⟨t₁,M₁,B₁,hscan,R₁,h₁⟩ := scan_first (loaded_empty sp) .init
    (show 0 ∉ []++l from hnul l List.mem_cons_self) (hnewline l List.mem_cons_self) (by decide)
    (text ls++pad)
  obtain ⟨t,pos,hrest,hkeeps⟩ := resume_lines h₁ R₁ (fun x hx => hne x (List.mem_cons_of_mem _ hx))
    (fun x hx => hnul x (List.mem_cons_of_mem _ hx))
    (fun x hx => hnewline x (List.mem_cons_of_mem _ hx))
    (show 0+([]++l).length+1+(text ls).length < 2^31 by rw [List.nil_append]; omega) pad
  refine ⟨t,pos,?_,hkeeps⟩
  rw [text_cons,List.append_assoc,← hrest,← hscan]
  rfl

/-- A size within an `int`: the loop reads the lines, and goes on in the padding. -/
theorem cacheUrlInit_of_lt (sp : Space)
    (h : (text r.lines).length+page.padding (text r.lines).length < 2^31) :
    ∃ t pos,cacheUrlInit page sp (new cacheUrl) (text r.lines) =
        resume sp t pos (List.replicate (page.padding (text r.lines).length) 0) ∧ Keeps t r.lines := by
  have hpos : 0 < (text r.lines).length := by
    rw [hr]
    exact text_pos
  obtain ⟨t,pos,hscan,hkeeps⟩ := scan_mapped hr sp (by omega)
    (List.replicate (page.padding (text r.lines).length) 0)
  refine ⟨t,pos,?_,hkeeps⟩
  rw [cacheUrlInit,mapSize_of_lt h,ok_bind,if_neg (by omega),Int.toNat_natCast,mapped,
    List.take_of_length_le (Nat.le_add_right _ _),Nat.add_sub_cancel_left,hscan]

theorem reloads_of_leavesRoom (h : LeavesRoom page (text r.lines).length) : Reloads page r.lines := by
  obtain ⟨hfull,hshort,hint⟩ := h
  rw [page.roundUp] at hint
  intro sp
  obtain ⟨t,pos,hinit,hkeeps⟩ := cacheUrlInit_of_lt hr sp hint
  have hpad : ¬page.padding (text r.lines).length < 2 := by
    rw [page.padding_lt_two]
    rintro (h | h)
    · exact hfull h
    · exact hshort h
  obtain ⟨k,hk⟩ := Nat.exists_eq_add_of_le' (not_lt.mp hpad)
  have hend : scan sp t pos [0] (0::List.replicate k 0) = .ok t := by rw [scan,if_pos rfl]
  rw [hk] at hinit
  exact ⟨t,hinit.trans hend,hkeeps⟩

omit hr in
/-- A size that wraps: nothing is mapped, or a part of the file without a zero. -/
theorem not_ok_of_wrap (sp : Space) {t : Table}
    (h : 2^31 ≤ (text r.lines).length+page.padding (text r.lines).length)
    (hinit : cacheUrlInit page sp (new cacheUrl) (text r.lines) = .ok t) : t = new cacheUrl := by
  obtain ⟨size,hsize,hinit⟩ := bind_eq_ok.mp hinit
  obtain ⟨-,hle⟩ := toInt_wrap h
  rw [← mapSize_eq_ok hsize] at hle
  have hpage : page.size ≤ 2^20 := Nat.pow_le_pow_right (by decide) page.bits_le
  have hpad := page.padding_lt (text r.lines).length
  have hfile : size.toNat ≤ (text r.lines).length := by omega
  split_ifs at hinit
  · exact (Except.ok.inj hinit).symm
  · rw [mapped,Nat.sub_eq_zero_of_le hfile,List.replicate_zero,List.append_nil] at hinit
    have hnul : 0 ∉ (text r.lines).take size.toNat := fun hmem =>
      text_noNul r.noNul (List.mem_of_mem_take hmem)
    exact absurd ⟨t,hinit⟩ (scan_noNul sp hnul _ _ _)

/-- Allocations behind the mapping. -/
def behind : Space where
  p := 1
  strdup i := 2^31+1+i
  p_pos := Nat.one_pos
  strdup_pos i := by omega
  strdup_injective i j h := by dsimp only at h; omega
  apart i j hj := by omega

theorem leavesRoom_of_reloads (h : Reloads page r.lines) : LeavesRoom page (text r.lines).length := by
  obtain ⟨t,hinit,hkeeps⟩ := h behind
  have hint : (text r.lines).length+page.padding (text r.lines).length < 2^31 := by
    by_contra hge
    rw [not_ok_of_wrap behind (not_lt.mp hge) hinit] at hkeeps
    have hnil := keeps_new hkeeps
    rw [hr] at hnil
    cases hnil
  have hpad : ¬page.padding (text r.lines).length < 2 := by
    intro hlt
    obtain ⟨t',pos,hinit',-⟩ := cacheUrlInit_of_lt hr behind hint
    rw [hinit'] at hinit
    interval_cases page.padding (text r.lines).length
    · cases hinit
    · cases hinit
  rw [page.padding_lt_two,not_or] at hpad
  exact ⟨hpad.1,hpad.2,by rwa [page.roundUp]⟩

end File

/-- The record is reloaded exactly if it has no lines, or leaves room behind them. -/
theorem reloads_iff (page : PageSize) (r : Record) :
    Reloads page r.lines ↔ r.lines = [] ∨ LeavesRoom page (text r.lines).length := by
  cases hr : r.lines with
  | nil =>
    refine iff_of_true (fun sp => ⟨new cacheUrl,?_,?_⟩) (.inl rfl)
    · have hpad : page.padding 0 = 0 := if_pos (Nat.zero_mod _)
      have hsize : mapSize page 0 = .ok (0+page.padding 0 : ℕ) := mapSize_of_lt (by rw [hpad]; decide)
      rw [hpad] at hsize
      rw [cacheUrlInit,show (text []).length = 0 from rfl,hsize]
      rfl
    · exact (loaded_empty behind).keeps .init
  | cons l ls =>
    rw [← hr]
    constructor
    · exact fun h => .inr (leavesRoom_of_reloads hr h)
    · rintro (h | h)
      · rw [hr] at h
        cases h
      · exact reloads_of_leavesRoom hr h

/-- Pages of 4096 bytes. -/
def page4096 : PageSize := ⟨12,by decide⟩

/-- One line of 4095 letters, which fills a page. -/
def fullPage : Record where
  lines := [List.replicate 4095 97]
  ne_nil l hl := by rw [List.mem_singleton.mp hl]; exact List.cons_ne_nil _ _
  noNul l hl := by rw [List.mem_singleton.mp hl,List.mem_replicate]; rintro ⟨-,h⟩; cases h
  noNewline l hl := by rw [List.mem_singleton.mp hl,List.mem_replicate]; rintro ⟨-,h⟩; cases h

theorem not_reloads_fullPage : ¬Reloads page4096 fullPage.lines := by
  intro h
  have hlen : (text fullPage.lines).length = 4096 := by
    show (text [List.replicate 4095 97]).length = 4096
    rw [text_length,List.length_replicate]
    rfl
  have hlines : fullPage.lines = [List.replicate 4095 97] := rfl
  obtain ⟨hfull,-⟩ := leavesRoom_of_reloads hlines h
  rw [hlen] at hfull
  exact hfull rfl

end AntRecord
end RecycleBin
