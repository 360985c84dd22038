import RecycleBin.HoGetline
import RecycleBin.StrDel

/-!
# Reading a configuration

`ho_read_conf.c`. A callback gets its option and a text; it does not change the line that is
being read.
-/

namespace RecycleBin
namespace HoReadConf

open AntHash AntVisited CString StrDel
open HoGetline (lines)

/-! ## The code -/

/-- `struct ho_rc_t`, without what it keeps for its callback. -/
structure Rc where
  key : Bytes
  notEmpty : Bool
  deriving DecidableEq

/-- What a run does: an option's callback with its text, or a line of output. -/
inductive Event
  | callback (i : ℕ) (val : Bytes) | printed (text : Bytes)
  deriving DecidableEq

/-- `" \t"` -/
def blanks : Bytes := [32,9]

/-- `" \t=:"` -/
def seps : Bytes := [32,9,61,58]

/-- `"\r\n"` -/
def ends : Bytes := [13,10]

/-- `if ((p = strchr(line, '#'))) *p = '\0';` -/
def uncomment (line : Bytes) : Bytes :=
  let n := ((cstr line).takeWhile (· ≠ 35)).length
  if n < (cstr line).length then line.set n 0 else line

/-- The line up to the loop over the table: the places of the key and of the value, or none
where the next line is read. -/
def split (line : Bytes) : Except Fault (Option (ℕ × ℕ) × Bytes) := do
  let key ← strspn line blanks
  let c ← load line key
  if c = 13 ∨ c = 10 then .ok (none,line)
  else do
    let n ← strcspn (line.drop key) seps
    let p := key+n
    let c ← load line p
    if c = 0 then .ok (none,line)
    else do
      let line := line.set p 0
      let p := p+1
      let n ← strspn (line.drop p) seps
      let val := p+n
      let n ← strcspn (line.drop val) ends
      let line := line.set (val+n) 0
      let c ← load line val
      if c = 0 then .ok (none,line) else .ok (some (key,val),line)

/-- `printf` of an option that is not in the table. -/
def unrecognized (key : Bytes) : Bytes :=
  ascii "ho_read_conf_core:unrecognized option "++[96]++key++ascii "'\n"

/-- The passes over a line from `loop:` on, so many at most. -/
def readLine : ℕ → List Rc → Bytes → Except Fault (List Event × List Rc)
  | 0,_,_ => .error .exhausted
  | passes+1,rc,line => do
    let r ← split (uncomment line)
    match r.1 with
    | none => .ok ([],rc)
    | some (k,v) =>
      let key := cstr (r.2.drop k)
      let val := cstr (r.2.drop v)
      match rc.findIdx? fun e => e.key = key with
      | some i => do
        let rest ← readLine passes (rc.modify i fun e => { e with notEmpty := true }) r.2
        .ok (.callback i val::rest.1,rest.2)
      | none => .ok ([.printed (unrecognized key)],rc)

/-- `fgets` of at most so many bytes: those it stores in front of the terminator, and the rest of
the file. -/
def fgets : ℕ → Bytes → Bytes × Bytes
  | 0,file => ([],file)
  | _+1,[] => ([],[])
  | n+1,c::file => if c = 10 then ([10],file) else (c::(fgets n file).1,(fgets n file).2)

/-- `while (fgets(line, sizeof(line), fp))`, with two passes over a line at most. -/
def readLoop : ℕ → List Rc → Bytes → Except Fault (List Event × List Rc)
  | 0,_,_ => .error .exhausted
  | fuel+1,rc,file =>
    let r := fgets 1023 file
    if r.1 = [] then .ok ([],rc)
    else do
      let s ← readLine 2 rc (r.1++[0])
      let rest ← readLoop fuel s.2 r.2
      .ok (s.1++rest.1,rest.2)

/-- `ho_read_conf_core` with the content of the file, none where it cannot be opened: what is
returned, what was done, and the table. -/
def ho_read_conf_core (file : Option Bytes) (rc : List Rc) :
    Except Fault (ℤ × List Event × List Rc) :=
  match file with
  | none => .ok (-1,[],rc)
  | some file => do
    let r ← readLoop (file.length+1) rc file
    .ok (0,r.1,r.2)

/-! ## What a line says -/

/-- The parts of a text: blanks, a key without separators, separators, a value that reaches
to the end of the line, and the rest. -/
structure Parts (text b key s val rest : Bytes) : Prop where
  eq : text = b++(key++(s++(val++rest)))
  blank_mem : ∀ c ∈ b,c ∈ blanks
  key_mem : ∀ c ∈ key,c ∉ seps
  sep_mem : ∀ c ∈ s,c ∈ seps
  start : ∀ c,(key++s).head? = some c → c ∉ blanks
  val_head : ∀ c,val.head? = some c → c ∉ seps
  val_mem : ∀ c ∈ val,c ∉ ends
  rest_head : ∀ c,rest.head? = some c → c ∈ ends
  none_left : s = [] → val = [] ∧ rest = []

/-- The text has a key and a value. -/
def IsEntry (text key val : Bytes) : Prop :=
  ∃ b s rest,Parts text b key s val rest ∧ s ≠ [] ∧ val ≠ []

/-- A line and its comment. -/
def Row (line key val : Bytes) : Prop := IsEntry (line.takeWhile (· ≠ 35)) key val

/-- What is left of a line, up to its first NUL, without the comment. -/
def bare (line : Bytes) : Bytes := (cstr line).takeWhile (· ≠ 35)

/-- The first byte is a line end. -/
def BeginsWithEnd (key : Bytes) : Prop := ∃ c,key.head? = some c ∧ c ∈ ends

/-- A line whose text ends at its first NUL, with a key that does not begin with a line end. -/
def CRow (line key val : Bytes) : Prop := IsEntry (bare line) key val ∧ ¬BeginsWithEnd key

/-- The callbacks that belong to a line: that of the option it names, once and with its value,
or none. -/
def Handles (R : Bytes → Bytes → Bytes → Prop) (rc : List Rc) (line : Bytes)
    (evs : List Event) : Prop :=
  (∀ i e val,rc[i]? = some e → R line e.key val → evs = [.callback i val]) ∧
    ((∀ e ∈ rc,∀ val,¬R line e.key val) → ∀ i val,.callback i val ∉ evs)

/-- The core returns, and has handled each line in turn. -/
def Reads (R : Bytes → Bytes → Bytes → Prop) (rc : List Rc) (file : Bytes) : Prop :=
  ∃ evs rc',ho_read_conf_core (some file) rc = .ok (0,evs.flatten,rc') ∧
    List.Forall₂ (Handles R rc) (lines file) evs

/-! ## The comment -/

theorem uncomment_eq {line : Bytes} (h : 0 ∈ line) :
    ∃ r,uncomment line = bare line++0::r ∧ 0 ∉ bare line ∧ 35 ∉ bare line := by
  obtain ⟨c,r,rfl,hc⟩ := List.eq_append_cons_of_mem h
  have hcstr : cstr (c++0::r) = c := cstr_terminated hc r
  obtain ⟨q,hq⟩ := List.takeWhile_prefix (l := c) fun b : UInt8 => decide (b ≠ 35)
  have h0 : 0 ∉ c.takeWhile (· ≠ 35) := fun hmem =>
    hc ((List.takeWhile_prefix _).subset hmem)
  have h35 : 35 ∉ c.takeWhile (· ≠ 35) := fun hmem => by
    have himp := List.mem_takeWhile_imp hmem
    simp at himp
  rw [uncomment,bare,hcstr]
  have hlen := congrArg List.length hq
  rw [List.length_append] at hlen
  cases q with
  | nil =>
    rw [List.append_nil] at hq
    exact ⟨r,by rw [if_neg (by rw [hq]; exact lt_irrefl _),hq],h0,h35⟩
  | cons a q =>
    rw [List.length_cons] at hlen
    refine ⟨q++0::r,?_,h0,h35⟩
    have happ := set_append (c.takeWhile (· ≠ 35)) a 0 (q++0::r)
    rw [← List.cons_append,← List.append_assoc,hq] at happ
    rw [if_pos (by omega),happ]

/-- There is no comment in what is left. -/
theorem uncomment_of_not_mem {t : Bytes} (h0 : 0 ∉ t) (h : 35 ∉ t) (r : Bytes) :
    uncomment (t++0::r) = t++0::r := by
  have htake : t.takeWhile (· ≠ 35) = t :=
    List.takeWhile_eq_self_iff.mpr fun c hc => decide_eq_true fun h35 => h (h35 ▸ hc)
  rw [uncomment,cstr_terminated h0,htake]
  exact if_neg (lt_irrefl _)

/-! ## The parts of a line -/

/-- A span is what `takeWhile` finds, and the rest is what it leaves. -/
theorem span_unique {P : UInt8 → Prop} {d r d' r' : Bytes} (h : d++r = d'++r')
    (hd : ∀ c ∈ d,P c) (hr : ∀ c,r.head? = some c → ¬P c) (hd' : ∀ c ∈ d',P c)
    (hr' : ∀ c,r'.head? = some c → ¬P c) : d = d' ∧ r = r' := by
  induction d generalizing d' with
  | nil =>
    cases d' with
    | nil => exact ⟨rfl,h⟩
    | cons c d' =>
      rw [List.nil_append] at h
      exact absurd (hd' c List.mem_cons_self) (hr c (by rw [h]; rfl))
  | cons c d ih =>
    cases d' with
    | nil =>
      rw [List.nil_append] at h
      exact absurd (hd c List.mem_cons_self) (hr' c (by rw [← h]; rfl))
    | cons c' d' =>
      obtain ⟨hc,htail⟩ := List.cons_eq_cons.mp h
      obtain ⟨hdd,hrr⟩ := ih htail (fun c hc => hd c (List.mem_cons_of_mem _ hc))
        fun c hc => hd' c (List.mem_cons_of_mem _ hc)
      exact ⟨by rw [hc,hdd],hrr⟩

section Parts

variable {t b key s val rest b' key' s' val' rest' : Bytes}

theorem Parts.start_head (h : Parts t b key s val rest) :
    ∀ c,(key++(s++(val++rest))).head? = some c → c ∉ blanks := by
  intro c hc
  refine h.start c ?_
  cases key with
  | cons d key => exact hc
  | nil =>
    cases s with
    | cons d s => exact hc
    | nil =>
      obtain ⟨rfl,rfl⟩ := h.none_left rfl
      cases hc

theorem Parts.sep_head (h : Parts t b key s val rest) :
    ∀ c,(s++(val++rest)).head? = some c → ¬c ∉ seps := by
  intro c hc
  cases s with
  | cons d s =>
    cases hc
    exact not_not.mpr (h.sep_mem _ List.mem_cons_self)
  | nil =>
    obtain ⟨rfl,rfl⟩ := h.none_left rfl
    cases hc

theorem not_mem_seps : ∀ c ∈ ends,c ∉ seps := by simp [ends,seps]

theorem Parts.value_head (h : Parts t b key s val rest) :
    ∀ c,(val++rest).head? = some c → c ∉ seps := by
  intro c hc
  cases val with
  | cons d val => exact h.val_head c hc
  | nil => exact not_mem_seps c (h.rest_head c hc)

/-- A text has its parts in one way. -/
theorem Parts.unique (h : Parts t b key s val rest) (h' : Parts t b' key' s' val' rest') :
    key = key' ∧ s = s' ∧ val = val' := by
  obtain ⟨-,hu⟩ := span_unique (h.eq.symm.trans h'.eq) h.blank_mem h.start_head h'.blank_mem
    h'.start_head
  obtain ⟨hkey,hw⟩ := span_unique hu h.key_mem h.sep_head h'.key_mem h'.sep_head
  obtain ⟨hs,hv⟩ := span_unique hw h.sep_mem h.value_head h'.sep_mem h'.value_head
  obtain ⟨hval,-⟩ := span_unique hv h.val_mem (fun c hc => not_not.mpr (h.rest_head c hc))
    h'.val_mem fun c hc => not_not.mpr (h'.rest_head c hc)
  exact ⟨hkey,hs,hval⟩

theorem exists_parts (t : Bytes) : ∃ b key s val rest,Parts t b key s val rest := by
  obtain ⟨b,u,rfl,hb,hu⟩ := exists_span (fun c => c ∈ blanks) t
  obtain ⟨key,w,rfl,hkey,hw⟩ := exists_span (fun c => c ∉ seps) u
  obtain ⟨s,v,rfl,hs,hv⟩ := exists_span (fun c => c ∈ seps) w
  obtain ⟨val,rest,rfl,hval,hrest⟩ := exists_span (fun c => c ∉ ends) v
  simp only [decide_eq_true_eq,decide_eq_false_iff_not,not_not] at hb hu hkey hw hs hv hval hrest
  refine ⟨b,key,s,val,rest,rfl,hb,hkey,hs,fun c hc => hu c ?_,fun c hc => hv c ?_,hval,hrest,?_⟩
  · rw [← List.append_assoc,List.head?_append,hc]
    rfl
  · rw [List.head?_append,hc]
    rfl
  · rintro rfl
    rw [List.nil_append] at hw
    cases hvr : val++rest with
    | nil => exact List.append_eq_nil_iff.mp hvr
    | cons c v =>
      have hc : (val++rest).head? = some c := by rw [hvr]; rfl
      exact absurd (hw c hc) (hv c hc)

/-- A text is an entry exactly where both its separators and its value are there. -/
theorem Parts.isEntry_iff (h : Parts t b key s val rest) :
    IsEntry t key' val' ↔ key' = key ∧ val' = val ∧ s ≠ [] ∧ val ≠ [] := by
  constructor
  · rintro ⟨b',s',rest',h',hs,hval⟩
    obtain ⟨rfl,rfl,rfl⟩ := h.unique h'
    exact ⟨rfl,rfl,hs,hval⟩
  · rintro ⟨rfl,rfl,hs,hval⟩
    exact ⟨b,s,rest,h,hs,hval⟩

end Parts

/-! ## A pass over a line -/

theorem load_head (a u r : Bytes) : load (a++(u++0::r)) a.length = .ok (u.headD 0) := by
  cases u with
  | nil => exact load_append a 0 r
  | cons c u => exact load_append a c (u++0::r)

section Split

variable {t b key s val rest : Bytes}

/-- The blanks are skipped, and the key is measured; a byte behind it is there. -/
theorem Parts.front_eq (h : Parts t b key s val rest) (h0 : 0 ∉ t) (r : Bytes) :
    strspn (t++0::r) blanks = .ok b.length ∧
      load (t++0::r) b.length = .ok ((key++(s++(val++rest))).headD 0) ∧
      strcspn ((t++0::r).drop b.length) seps = .ok key.length ∧
      load (t++0::r) (b.length+key.length) = .ok ((s++(val++rest)).headD 0) := by
  have hb : 0 ∉ b := fun hmem => h0 (by rw [h.eq]; exact List.mem_append_left _ hmem)
  have hkey : 0 ∉ key := fun hmem => h0 (by rw [h.eq]; simp [hmem])
  have hline : t++0::r = b++((key++(s++(val++rest)))++0::r) := by rw [h.eq,List.append_assoc]
  have hcut : (key++(s++(val++rest)))++0::r = key++((s++(val++rest))++0::r) :=
    List.append_assoc ..
  rw [hline]
  refine ⟨?_,load_head b _ r,?_,?_⟩
  · exact spanLength_split hb (fun c hc => decide_eq_true (h.blank_mem c hc))
      (fun c hc => decide_eq_false (h.start_head c hc)) r
  · rw [List.drop_left,hcut]
    exact spanLength_split hkey (fun c hc => decide_eq_true (h.key_mem c hc))
      (fun c hc => decide_eq_false (h.sep_head c hc)) r
  · rw [hcut,← List.append_assoc,← List.length_append]
    exact load_head (b++key) _ r

/-- The byte behind the blanks is a line end: it is the first one of the key. -/
theorem Parts.headD_iff (h : Parts t b key s val rest) :
    ((key++(s++(val++rest))).headD 0 = 13 ∨ (key++(s++(val++rest))).headD 0 = 10) ↔
      BeginsWithEnd key := by
  cases key with
  | cons d key => simp [BeginsWithEnd,ends]
  | nil =>
    have hno : ¬BeginsWithEnd [] := fun hend => by
      obtain ⟨c,hc,-⟩ := hend
      cases hc
    refine iff_of_false ?_ hno
    cases s with
    | cons d s =>
      intro hd
      have hmem : d ∈ ends := by simpa [ends] using hd
      exact not_mem_seps d hmem (h.sep_mem d List.mem_cons_self)
    | nil =>
      obtain ⟨rfl,rfl⟩ := h.none_left rfl
      decide

/-- A row whose key begins with a line end. -/
theorem Parts.split_empty (h : Parts t b key s val rest) (h0 : 0 ∉ t) (r : Bytes)
    (hend : BeginsWithEnd key) : split (t++0::r) = .ok (none,t++0::r) := by
  obtain ⟨hspan,hload,-⟩ := h.front_eq h0 r
  simp only [split,hspan,ok_bind,hload,if_pos (h.headD_iff.mpr hend)]

/-- A key without separators. -/
theorem Parts.split_key (h : Parts t b key [] val rest) (h0 : 0 ∉ t) (r : Bytes)
    (hend : ¬BeginsWithEnd key) : split (t++0::r) = .ok (none,t++0::r) := by
  have hhead := mt h.headD_iff.mp hend
  obtain ⟨hspan,hload,hcspan,hnul⟩ := h.front_eq h0 r
  obtain ⟨rfl,rfl⟩ := h.none_left rfl
  rw [List.append_nil,List.append_nil,List.headD_nil] at hnul
  simp only [split,hspan,ok_bind,hload,if_neg hhead,hcspan,hnul,if_true]

/-- The terminator goes over the first byte behind the value, or over the old one. -/
theorem set_end (a val rest r : Bytes) :
    ∃ q,(a++(val++(rest++0::r))).set (a.length+val.length) 0 = a++(val++0::q) := by
  cases rest with
  | nil =>
    refine ⟨r,?_⟩
    have happ := set_append (a++val) 0 0 r
    rwa [List.length_append,List.append_assoc] at happ
  | cons d rest =>
    refine ⟨rest++0::r,?_⟩
    have happ := set_append (a++val) d 0 (rest++0::r)
    rwa [List.length_append,List.append_assoc,List.append_assoc] at happ

/-- Behind whatever stands in front, the separators are skipped, the value is measured, and its
end is cut off. -/
theorem Parts.back_eq {c : UInt8} (h : Parts t b key (c::s) val rest) (h0 : 0 ∉ t) (a r : Bytes) :
    strspn ((a++(s++((val++rest)++0::r))).drop a.length) seps = .ok s.length ∧
      strcspn ((a++(s++((val++rest)++0::r))).drop (a.length+s.length)) ends = .ok val.length ∧
      ∃ q,(a++(s++((val++rest)++0::r))).set (a.length+s.length+val.length) 0 =
          a++(s++(val++0::q)) ∧
        load (a++(s++(val++0::q))) (a.length+s.length) = .ok (val.headD 0) := by
  have hs : 0 ∉ s := fun hmem => h0 (by rw [h.eq]; simp [hmem])
  have hval : 0 ∉ val := fun hmem => h0 (by rw [h.eq]; simp [hmem])
  have hdrop : (a++(s++((val++rest)++0::r))).drop (a.length+s.length) = val++(rest++0::r) := by
    rw [← List.drop_drop,List.drop_left,List.drop_left,List.append_assoc]
  refine ⟨?_,?_,?_⟩
  · rw [List.drop_left]
    exact spanLength_split hs
      (fun d hd => decide_eq_true (h.sep_mem d (List.mem_cons_of_mem c hd)))
      (fun d hd => decide_eq_false (h.value_head d hd)) r
  · rw [hdrop]
    exact spanLength_split hval (fun d hd => decide_eq_true (h.val_mem d hd))
      (fun d hd => decide_eq_false (not_not.mpr (h.rest_head d hd))) r
  · obtain ⟨q,hq⟩ := set_end (a++s) val rest r
    have hload := load_head (a++s) val q
    rw [List.length_append,List.append_assoc,List.append_assoc] at hq
    rw [List.length_append,List.append_assoc] at hload
    exact ⟨q,by rw [List.append_assoc val,hq],hload⟩

/-- A key with separators behind it: both strings are cut out of the line. -/
theorem Parts.split_value {c : UInt8} (h : Parts t b key (c::s) val rest) (h0 : 0 ∉ t) (r : Bytes)
    (hend : ¬BeginsWithEnd key) :
    ∃ q,split (t++0::r) = .ok
      (if val = [] then none else some (b.length,b.length+key.length+1+s.length),
        b++(key++0::(s++(val++0::q)))) := by
  have hhead := mt h.headD_iff.mp hend
  obtain ⟨hspan,hload,hcspan,hsep⟩ := h.front_eq h0 r
  rw [List.cons_append,List.headD_cons] at hsep
  have hc : c ≠ 0 := fun hc0 => h0 (by rw [h.eq,hc0]; simp)
  -- the line behind the key
  have hset : (t++0::r).set (b.length+key.length) 0 =
      (b++(key++[0]))++(s++((val++rest)++0::r)) := by
    rw [h.eq]
    simp
  have hfront : (b++(key++[0])).length = b.length+key.length+1 := by
    rw [List.length_append,List.length_append,List.length_singleton,Nat.add_assoc]
  -- the line behind the value
  obtain ⟨hvspan,hvcspan,q,hq,hval⟩ := h.back_eq h0 (b++(key++[0])) r
  rw [hfront] at hvspan hvcspan hq hval
  have hline : (b++(key++[0]))++(s++(val++0::q)) = b++(key++0::(s++(val++0::q))) := by simp
  refine ⟨q,?_⟩
  simp only [split,hspan,ok_bind,hload,if_neg hhead,hcspan,hsep,if_neg hc,hset,hvspan,hvcspan,hq,
    hval]
  rw [hline]
  cases val with
  | nil => rfl
  | cons d val =>
    have hd : d ≠ 0 := fun hd0 => h0 (by rw [h.eq,hd0]; simp)
    rw [if_neg (List.cons_ne_nil d val),List.headD_cons,if_neg hd]

end Split

/-! ## A line -/

theorem handles_of_no_row {R : Bytes → Bytes → Bytes → Prop} {rc : List Rc} {line : Bytes}
    {evs : List Event} (h : ∀ e ∈ rc,∀ val,¬R line e.key val)
    (hevs : ∀ i val,.callback i val ∉ evs) : Handles R rc line evs :=
  ⟨fun _ e val hi hR => absurd hR (h e (List.mem_of_getElem? hi) val),fun _ => hevs⟩

/-- A line belongs to the keys; what else is in the table does not matter. -/
theorem handles_congr {R : Bytes → Bytes → Bytes → Prop} {rc rc' : List Rc} {line : Bytes}
    {evs : List Event} (hkeys : rc.map Rc.key = rc'.map Rc.key) (h : Handles R rc line evs) :
    Handles R rc' line evs := by
  constructor
  · intro i e val hi hR
    have hkey : (rc.map Rc.key)[i]? = some e.key := by
      rw [hkeys,List.getElem?_map,hi]
      rfl
    rw [List.getElem?_map,Option.map_eq_some_iff] at hkey
    obtain ⟨e',hi',hkey⟩ := hkey
    exact h.1 i e' val hi' (hkey ▸ hR)
  · intro hno
    refine h.2 fun e he val hR => ?_
    have hmem : e.key ∈ rc'.map Rc.key := hkeys ▸ List.mem_map_of_mem he
    obtain ⟨e',he',hkey⟩ := List.mem_map.mp hmem
    exact hno e' he' val (hkey ▸ hR)

theorem map_modify_notEmpty (rc : List Rc) (i : ℕ) :
    (rc.modify i fun e => { e with notEmpty := true }).map Rc.key = rc.map Rc.key := by
  refine List.ext_getElem? fun j => ?_
  rw [List.getElem?_map,List.getElem?_map,List.getElem?_modify]
  cases rc[j]? with
  | none => rfl
  | some e => simp only [Option.map_eq_map,Option.map_some]; split <;> rfl

/-- The text that is left when the key has been cut out. -/
theorem Parts.cut {t b key s val rest : Bytes} (h : Parts t b key s val rest) :
    Parts (b++key) b key [] [] [] where
  eq := by simp
  blank_mem := h.blank_mem
  key_mem := h.key_mem
  sep_mem := by simp
  start := fun c hc => by
    rw [List.append_nil] at hc
    exact h.start c (by rw [List.head?_append,hc]; rfl)
  val_head := by simp
  val_mem := by simp
  rest_head := by simp
  none_left := fun _ => ⟨rfl,rfl⟩

section Line

variable {rc : List Rc} {line l t b key s val rest : Bytes}

theorem readLine_skip (hno : ∀ key val,¬CRow line key val)
    (hsplit : split (uncomment (line++[0])) = .ok (none,l)) :
    ∃ evs rc',readLine 2 rc (line++[0]) = .ok (evs,rc') ∧ Handles CRow rc line evs ∧
      rc'.map Rc.key = rc.map Rc.key := by
  refine ⟨[],rc,?_,handles_of_no_row (fun e _ val => hno e.key val) (by simp),rfl⟩
  rw [readLine,hsplit]
  rfl

/-- The second pass: the key is still there, and nothing behind it. -/
theorem Parts.readLine_again (h : Parts t b key s val rest) (h0 : 0 ∉ t) (h35 : 35 ∉ t)
    (hend : ¬BeginsWithEnd key) (passes : ℕ) (r : Bytes) :
    readLine (passes+1) rc (b++(key++0::r)) = .ok ([],rc) := by
  have hsub : ∀ c ∈ b++key,c ∈ t := fun c hc => by
    rw [h.eq,← List.append_assoc]
    exact List.mem_append_left _ hc
  have h0' := mt (hsub 0) h0
  rw [← List.append_assoc,readLine,uncomment_of_not_mem h0' (mt (hsub 35) h35),
    h.cut.split_key h0' r hend]
  rfl

/-- The strings that the callback gets. -/
theorem Parts.cstr_drop (h : Parts t b key s val rest) (h0 : 0 ∉ t) (d q : Bytes) :
    cstr ((b++(key++0::(d++(val++0::q)))).drop b.length) = key ∧
      cstr ((b++(key++0::(d++(val++0::q)))).drop (b.length+key.length+1+d.length)) = val := by
  have hkey : 0 ∉ key := fun hmem => h0 (by rw [h.eq]; simp [hmem])
  have hval : 0 ∉ val := fun hmem => h0 (by rw [h.eq]; simp [hmem])
  have hfront : (b++(key++0::d)).length = b.length+key.length+1+d.length := by
    simp only [List.length_append,List.length_cons]
    omega
  have hline : b++(key++0::(d++(val++0::q))) = (b++(key++0::d))++(val++0::q) := by simp
  constructor
  · rw [List.drop_left,cstr_terminated hkey]
  · rw [hline,List.drop_left' hfront,cstr_terminated hval]

/-- An entry: the first option with its key is called, and nothing is left for the second pass. -/
theorem Parts.readLine_entry {c : UInt8} (h : Parts t b key (c::s) val rest) (h0 : 0 ∉ t)
    (h35 : 35 ∉ t) (hend : ¬BeginsWithEnd key) (hval : val ≠ []) {r : Bytes}
    (hline : uncomment line = t++0::r) :
    readLine 2 rc line = match rc.findIdx? fun e => e.key = key with
      | some i => .ok ([.callback i val],rc.modify i fun e => { e with notEmpty := true })
      | none => .ok ([.printed (unrecognized key)],rc) := by
  obtain ⟨q,hq⟩ := h.split_value h0 r hend
  rw [if_neg hval] at hq
  obtain ⟨hkey,hvalue⟩ := h.cstr_drop h0 s q
  rw [readLine,hline,hq]
  simp only [ok_bind,hkey,hvalue]
  cases rc.findIdx? fun e => e.key = key with
  | none => rfl
  | some i =>
    simp only [h.readLine_again h0 h35 hend]
    rfl

/-- Of the options with distinct keys, the first one is the only one. -/
theorem findIdx_key {i : ℕ} (hd : (rc.map Rc.key).Nodup)
    (hfind : (rc.findIdx? fun e => e.key = key) = some i) {j : ℕ} {e : Rc} (hj : rc[j]? = some e)
    (hkey : e.key = key) : j = i := by
  obtain ⟨hi,hat,-⟩ := List.findIdx?_eq_some_iff_getElem.mp hfind
  obtain ⟨hlt,rfl⟩ := List.getElem?_eq_some_iff.mp hj
  have hsame : (rc.map Rc.key)[j]? = (rc.map Rc.key)[i]? := by
    rw [List.getElem?_map,List.getElem?_map,hj,List.getElem?_eq_getElem hi,Option.map_some,
      Option.map_some,hkey,of_decide_eq_true hat]
  exact (List.getElem?_inj (by rwa [List.length_map]) hd).mp hsame

/-- A line is read in two passes at most, and handled. -/
theorem readLine_handles (hd : (rc.map Rc.key).Nodup) (line : Bytes) :
    ∃ evs rc',readLine 2 rc (line++[0]) = .ok (evs,rc') ∧ Handles CRow rc line evs ∧
      rc'.map Rc.key = rc.map Rc.key := by
  obtain ⟨r,hline,h0,h35⟩ := uncomment_eq (List.mem_append_right line List.mem_cons_self)
  have hbare : bare (line++[0]) = bare line := by rw [bare,cstr_append_zero,bare]
  rw [hbare] at hline h0 h35
  obtain ⟨b,key,s,val,rest,h⟩ := exists_parts (bare line)
  have hrow : ∀ {key' val'},CRow line key' val' ↔
      (key' = key ∧ val' = val ∧ s ≠ [] ∧ val ≠ []) ∧ ¬BeginsWithEnd key' :=
    and_congr_left' h.isEntry_iff
  by_cases hend : BeginsWithEnd key
  · refine readLine_skip (fun key' val' hR => ?_) (by rw [hline,h.split_empty h0 r hend])
    obtain ⟨⟨rfl,-⟩,hno⟩ := hrow.mp hR
    exact hno hend
  cases s with
  | nil =>
    refine readLine_skip (fun key' val' hR => ?_) (by rw [hline,h.split_key h0 r hend])
    exact (hrow.mp hR).1.2.2.1 rfl
  | cons c s =>
    by_cases hval : val = []
    · obtain ⟨q,hq⟩ := h.split_value h0 r hend
      rw [if_pos hval] at hq
      exact readLine_skip (fun key' val' hR => (hrow.mp hR).1.2.2.2 hval) (by rw [hline,hq])
    · have hread : readLine 2 rc (line++[0]) = _ :=
        h.readLine_entry h0 h35 hend hval hline
      cases hfind : rc.findIdx? fun e => e.key = key with
      | none =>
        rw [hfind] at hread
        refine ⟨_,rc,hread,handles_of_no_row (fun e he val' hR => ?_) (by simp),rfl⟩
        have hne := List.findIdx?_eq_none_iff.mp hfind e he
        exact of_decide_eq_false hne (hrow.mp hR).1.1
      | some i =>
        rw [hfind] at hread
        refine ⟨_,_,hread,⟨fun j e val' hj hR => ?_,fun hno => ?_⟩,map_modify_notEmpty rc i⟩
        · obtain ⟨⟨hkey,rfl,-⟩,-⟩ := hrow.mp hR
          rw [findIdx_key hd hfind hj hkey]
        · obtain ⟨hi,hat,-⟩ := List.findIdx?_eq_some_iff_getElem.mp hfind
          have hkey := of_decide_eq_true hat
          refine absurd (hrow.mpr ?_) (hno _ (List.getElem_mem hi) val)
          exact ⟨⟨hkey,rfl,List.cons_ne_nil c s,hval⟩,by rwa [hkey]⟩

end Line

/-! ## A file -/

theorem fgets_line {t : Bytes} (h : 10 ∉ t) (n : ℕ) (file : Bytes) :
    fgets (t.length+1+n) (t++10::file) = (t++[10],file) := by
  induction t with
  | nil =>
    rw [List.length_nil,Nat.zero_add,Nat.add_comm,List.nil_append,fgets,if_pos rfl,
      List.nil_append]
  | cons c t ih =>
    have hc : c ≠ 10 := fun hc => h (hc ▸ List.mem_cons_self)
    have htail := ih fun hmem => h (List.mem_cons_of_mem c hmem)
    have hlen : (c::t).length+1+n = (t.length+1+n)+1 := Nat.add_right_comm _ _ _
    rw [hlen,List.cons_append,fgets,if_neg hc,htail,List.cons_append]

theorem fgets_open {t : Bytes} (h : 10 ∉ t) (n : ℕ) : fgets (t.length+n) t = (t,[]) := by
  induction t with
  | nil =>
    cases [].length+n with
    | zero => rfl
    | succ n => rfl
  | cons c t ih =>
    have hc : c ≠ 10 := fun hc => h (hc ▸ List.mem_cons_self)
    have htail := ih fun hmem => h (List.mem_cons_of_mem c hmem)
    have hlen : (c::t).length+n = (t.length+n)+1 := Nat.add_right_comm _ _ _
    rw [hlen,fgets,if_neg hc,htail]

/-- `fgets` takes the next line off the file. -/
theorem fgets_eq {file : Bytes} {n : ℕ} (hne : file ≠ []) (h : ∀ l ∈ lines file,l.length ≤ n) :
    ∃ l file',fgets n file = (l,file') ∧ lines file = l::lines file' ∧ l ≠ [] ∧
      file'.length < file.length := by
  by_cases hmem : 10 ∈ file
  · obtain ⟨t,file,rfl,ht⟩ := List.eq_append_cons_of_mem hmem
    rw [HoGetline.lines_line ht] at h ⊢
    have hlen := h _ List.mem_cons_self
    rw [List.length_append,List.length_singleton] at hlen
    obtain ⟨m,rfl⟩ := Nat.exists_eq_add_of_le hlen
    refine ⟨t++[10],file,fgets_line ht m file,rfl,by simp,?_⟩
    rw [List.length_append,List.length_cons]
    omega
  · rw [HoGetline.lines_open hmem hne] at h ⊢
    obtain ⟨m,rfl⟩ := Nat.exists_eq_add_of_le (h _ List.mem_cons_self)
    exact ⟨file,[],fgets_open hmem m,rfl,hne,List.length_pos_iff.mpr hne⟩

/-- The run: each line in turn, and the keys stay. -/
theorem readLoop_handles {rc : List Rc} (hd : (rc.map Rc.key).Nodup) {fuel : ℕ} {file : Bytes}
    (hfuel : file.length < fuel) (h : ∀ l ∈ lines file,l.length ≤ 1023) :
    ∃ evs rc',readLoop fuel rc file = .ok (evs.flatten,rc') ∧
      List.Forall₂ (Handles CRow rc) (lines file) evs := by
  induction fuel generalizing rc file with
  | zero => exact absurd hfuel (Nat.not_lt_zero _)
  | succ fuel ih =>
    by_cases hne : file = []
    · refine ⟨[],rc,?_,?_⟩
      · rw [hne]
        rfl
      · rw [hne]
        exact List.Forall₂.nil
    · obtain ⟨l,file',hget,hlines,hl,hshort⟩ := fgets_eq hne h
      obtain ⟨ev,rc₁,hread,hhandles,hkeys⟩ := readLine_handles hd l
      rw [hlines] at h ⊢
      obtain ⟨evs,rc₂,hloop,hrest⟩ := ih (hkeys ▸ hd) (by omega : file'.length < fuel)
        fun m hm => h m (List.mem_cons_of_mem l hm)
      refine ⟨ev::evs,rc₂,?_,List.Forall₂.cons hhandles ?_⟩
      · rw [readLoop]
        simp only [hget,if_neg hl,hread,hloop,ok_bind,List.flatten_cons]
      · exact hrest.imp fun m evs' hm => handles_congr hkeys hm

/-- With distinct keys and short lines each line is handled: as a text up to its first NUL, and
none that begins with a line end. -/
theorem ho_read_conf_core_reads {rc : List Rc} (hd : (rc.map Rc.key).Nodup) {file : Bytes}
    (h : ∀ l ∈ lines file,l.length ≤ 1023) : Reads CRow rc file := by
  obtain ⟨evs,rc',hloop,hlines⟩ := readLoop_handles hd (Nat.lt_succ_self file.length) h
  refine ⟨evs,rc',?_,hlines⟩
  rw [ho_read_conf_core]
  simp only [hloop,ok_bind]

theorem ho_read_conf_core_reads_port :
    Reads CRow [⟨ascii "port",false⟩,⟨ascii "ip",false⟩] (ascii "port = 80 # p\n# none\nip:1") :=
  ho_read_conf_core_reads (by decide) (by decide)

/-- The keys are distinct, without `#` and separators, and the lines are short. -/
def Admits (rc : List Rc) (file : Bytes) : Prop :=
  (rc.map Rc.key).Nodup ∧ (∀ e ∈ rc,∀ c ∈ e.key,c ≠ 35 ∧ c ∉ seps) ∧
    ∀ l ∈ lines file,l.length < 1023

theorem Reads.single {R : Bytes → Bytes → Bytes → Prop} {rc rc' : List Rc} {file l : Bytes}
    {evs : List Event} (h : Reads R rc file) (hl : lines file = [l])
    (hrun : ho_read_conf_core (some file) rc = .ok (0,evs,rc')) : Handles R rc l evs := by
  obtain ⟨evss,rc₁,hcore,hlines⟩ := h
  rw [hl] at hlines
  cases hlines with
  | cons hhandles hnil =>
    cases hnil
    rw [hrun,List.flatten_singleton] at hcore
    cases hcore
    exact hhandles

theorem row_sep {c d : UInt8} {line key val : Bytes}
    (hline : line.takeWhile (· ≠ 35) = d::key++c::val) (hc : c ∈ seps)
    (hkey : ∀ e ∈ d::key,e ∉ seps) (hval : ∀ e ∈ val,e ∉ seps ∧ e ∉ ends) (hne : val ≠ []) :
    Row line (d::key) val := by
  rw [Row,hline]
  refine ⟨[],[c],[],⟨?_,by simp,hkey,?_,?_,?_,?_,by simp,by simp⟩,by simp,hne⟩
  · simp
  · intro e he
    rwa [List.mem_singleton.mp he]
  · intro e he hblank
    cases he
    have hsub : ∀ e ∈ blanks,e ∈ seps := by simp [blanks,seps]
    exact hkey d List.mem_cons_self (hsub d hblank)
  · exact fun e he => (hval e (List.mem_of_head? he)).1
  · exact fun e he => (hval e he).2

/-- A NUL ends the value, and a key that begins with a carriage return is not read. -/
theorem not_reads_row :
    (Admits [⟨[107],false⟩] [107,61,97,0,98] ∧ ¬Reads Row [⟨[107],false⟩] [107,61,97,0,98]) ∧
      Admits [⟨[13,107],false⟩] [13,107,61,49] ∧
        ¬Reads Row [⟨[13,107],false⟩] [13,107,61,49] := by
  refine ⟨⟨by simp [Admits,seps,lines],fun h => ?_⟩,by simp [Admits,seps,lines],fun h => ?_⟩
  · have hhandles := h.single (by rfl) (by rfl)
    have hrow : Row [107,61,97,0,98] [107] [97,0,98] :=
      row_sep (c := 61) (by rfl) (by simp [seps]) (by simp [seps]) (by simp [seps,ends]) (by simp)
    cases hhandles.1 0 ⟨[107],false⟩ [97,0,98] rfl hrow
  · have hhandles := h.single (by rfl) (by rfl)
    have hrow : Row [13,107,61,49] [13,107] [49] :=
      row_sep (c := 61) (by rfl) (by simp [seps]) (by simp [seps]) (by simp [seps,ends]) (by simp)
    cases hhandles.1 0 ⟨[13,107],false⟩ [49] rfl hrow

end HoReadConf
end RecycleBin
