import RecycleBin.HoReadConf

/-! `get_dns_ip` of `ant_dns.c`: the address of the name server, as `/etc/resolv.conf` has it. -/
namespace RecycleBin
namespace AntNameServer
open AntHash (Bytes cstr)
open AntVisited (isspace)
open CString (ascii)
open HoGetline (lines)
open HoReadConf (fgets fgets_eq)

/-- The body of the loop, on the string in `line`; `isAddr` is `inet_addr(p) != -1`. -/
def serverOf (isAddr : Bytes → Bool) (line : Bytes) : Option Bytes :=
  if line.head? = some 35 then none
  else
    let line := line.takeWhile (· ≠ 10)
    let word := line.takeWhile fun b => !isspace b
    -- without a blank behind the word the line is passed over
    (line.dropWhile fun b => !isspace b).tail?.bind fun p =>
      if word = ascii "nameserver" then if p = ascii "127.0.0.1" then none else some p
      else if word = ascii "search" then if isAddr p then some p else none
      else none

/-- `while (fgets(line, sizeof(line), fp))`. -/
def serverLoop (isAddr : Bytes → Bool) : ℕ → Bytes → Option Bytes
  | 0, _ => none
  | fuel+1, file =>
    let r := fgets 511 file
    if r.1 = [] then none
    else (serverOf isAddr (cstr r.1)).or (serverLoop isAddr fuel r.2)

/-- `get_dns_ip`, with the text it leaves in `buf`; none is -1. -/
def getDnsIp (isAddr : Bytes → Bool) (n : ℕ) (file : Option Bytes) : Option Bytes :=
  file.bind fun file => (serverLoop isAddr (file.length+1) file).map (List.take (n-1))

/-- The text of a line, without its end. -/
def text (l : Bytes) : Bytes := (cstr l).takeWhile (· ≠ 10)

/-- What the text of a line names as the server. -/
inductive Names (isAddr : Bytes → Bool) : Bytes → Bytes → Prop
  | nameserver (c : UInt8) (v : Bytes) : isspace c = true → v ≠ ascii "127.0.0.1" →
      Names isAddr (ascii "nameserver"++c::v) v
  | search (c : UInt8) (v : Bytes) : isspace c = true → isAddr v = true →
      Names isAddr (ascii "search"++c::v) v

section Word
variable {w v t : Bytes} {c : UInt8}

theorem takeWhile_word (hw : ∀ b ∈ w,isspace b = false) (hc : isspace c = true) :
    (w++c::v).takeWhile (fun b => !isspace b) = w := by
  rw [List.takeWhile_append_of_pos fun b hb => by rw [hw b hb]; rfl,
    List.takeWhile_cons_of_neg (by rw [hc]; decide),List.append_nil]

theorem dropWhile_word (hw : ∀ b ∈ w,isspace b = false) (hc : isspace c = true) :
    (w++c::v).dropWhile (fun b => !isspace b) = c::v := by
  rw [List.dropWhile_append_of_pos fun b hb => by rw [hw b hb]; rfl,
    List.dropWhile_cons_of_neg (by rw [hc]; decide)]

/-- Where the first blank is. -/
theorem eq_word (h : t.dropWhile (fun b => !isspace b) = c::v) :
    t = t.takeWhile (fun b => !isspace b)++c::v ∧ isspace c = true := by
  have hne : t.dropWhile (fun b => !isspace b) ≠ [] := by
    rw [h]
    exact List.cons_ne_nil c v
  have hhead := List.head_dropWhile_not (fun b => !isspace b) hne
  simp only [h,List.head_cons,Bool.not_eq_false'] at hhead
  exact ⟨by rw [← h,List.takeWhile_append_dropWhile],hhead⟩

end Word

theorem nameserver_plain : ∀ b ∈ ascii "nameserver",isspace b = false := by decide +kernel

theorem search_plain : ∀ b ∈ ascii "search",isspace b = false := by decide +kernel

theorem Names.head {isAddr : Bytes → Bool} {t v : Bytes} (h : Names isAddr t v) :
    t.head? ≠ some 35 := by
  cases h with
  | nameserver c v _ _ => exact fun h => absurd (Option.some.inj h) (by decide)
  | search c v _ _ => exact fun h => absurd (Option.some.inj h) (by decide)

theorem Names.length_lt {isAddr : Bytes → Bool} {t v : Bytes} (h : Names isAddr t v) :
    v.length < t.length := by
  cases h with
  | nameserver c v _ _ =>
    rw [List.length_append,List.length_cons]
    omega
  | search c v _ _ =>
    rw [List.length_append,List.length_cons]
    omega

theorem length_text_le (l : Bytes) : (text l).length ≤ l.length :=
  (List.takeWhile_prefix _).length_le.trans (List.takeWhile_prefix _).length_le

/-- The body of the loop finds what the line names. -/
theorem serverOf_iff (isAddr : Bytes → Bool) (line v : Bytes) :
    serverOf isAddr line = some v ↔ Names isAddr (line.takeWhile (· ≠ 10)) v := by
  by_cases h35 : line.head? = some 35
  · -- a comment keeps its first byte
    have hhead : (line.takeWhile (· ≠ 10)).head? = some 35 := by
      obtain ⟨l,rfl⟩ := List.head?_eq_some_iff.mp h35
      rw [List.takeWhile_cons_of_pos (by decide)]
      rfl
    rw [serverOf,if_pos h35]
    exact ⟨fun h => (by cases h),fun h => absurd hhead h.head⟩
  rw [serverOf,if_neg h35]
  generalize line.takeWhile (· ≠ 10) = t
  dsimp only
  constructor
  · intro h
    obtain ⟨p,hp,h⟩ := Option.bind_eq_some_iff.mp h
    cases hdrop : t.dropWhile fun b => !isspace b with
    | nil =>
      rw [hdrop] at hp
      cases hp
    | cons c q =>
      rw [hdrop] at hp
      cases hp
      obtain ⟨ht,hc⟩ := eq_word hdrop
      rw [ht]
      split_ifs at h with hn h127 hs ha <;> cases h
      · rw [hn]
        exact .nameserver c v hc h127
      · rw [hs]
        exact .search c v hc ha
  · intro h
    cases h with
    | nameserver c v hc hv =>
      rw [takeWhile_word nameserver_plain hc,dropWhile_word nameserver_plain hc]
      simp [hv]
    | search c v hc hv =>
      have hne : ascii "search" ≠ ascii "nameserver" := by decide
      rw [takeWhile_word search_plain hc,dropWhile_word search_plain hc]
      simp [hne,hv]

/-- The loop takes the lines of the file in turn. -/
theorem serverLoop_eq (isAddr : Bytes → Bool) {fuel : ℕ} {file : Bytes}
    (hfuel : file.length < fuel) (h : ∀ l ∈ lines file,l.length ≤ 511) :
    serverLoop isAddr fuel file = (lines file).findSome? fun l => serverOf isAddr (cstr l) := by
  induction fuel generalizing file with
  | zero => exact absurd hfuel (Nat.not_lt_zero _)
  | succ fuel ih =>
    rw [serverLoop]
    by_cases hne : file = []
    · subst hne
      rfl
    · obtain ⟨l,file',hget,hlines,hl,hshort⟩ := fgets_eq hne h
      rw [hlines] at h ⊢
      have hrest := ih (by omega : file'.length < fuel) fun m hm => h m (List.mem_cons_of_mem l hm)
      simp only [hget,if_neg hl,hrest,List.findSome?_cons]
      cases serverOf isAddr (cstr l) with
      | none => rfl
      | some p => rfl

/-- In a file whose lines fit the buffer, whatever they hold: the server is the one that the first
line names that names one. It is a `nameserver` other than 127.0.0.1, or a `search` of an address;
if no line names one, the result is -1. -/
theorem getDnsIp_first (isAddr : Bytes → Bool) {n : ℕ} (hn : 512 ≤ n) {file : Bytes}
    (h : ∀ l ∈ lines file,l.length ≤ 511) (v : Bytes) :
    getDnsIp isAddr n (some file) = some v ↔
      ∃ pre l post,lines file = pre++l::post ∧ Names isAddr (text l) v ∧
        ∀ m ∈ pre,∀ w,¬Names isAddr (text m) w := by
  have hnone : ∀ m,serverOf isAddr (cstr m) = none ↔ ∀ w,¬Names isAddr (text m) w := fun m => by
    rw [Option.eq_none_iff_forall_ne_some]
    exact forall_congr' fun w => not_congr (serverOf_iff isAddr (cstr m) w)
  have hloop := serverLoop_eq isAddr (Nat.lt_succ_self file.length) h
  have htake : ∀ w,((lines file).findSome? fun l => serverOf isAddr (cstr l)) = some w →
      w.take (n-1) = w := by
    intro w hw
    obtain ⟨pre,l,post,hl,hsome,-⟩ := List.findSome?_eq_some_iff.mp hw
    have hlt := ((serverOf_iff isAddr (cstr l) w).mp hsome).length_lt
    have htext := length_text_le l
    rw [text] at htext
    have hline := h l (by rw [hl]; simp)
    exact List.take_of_length_le (by omega)
  rw [getDnsIp,Option.bind_some,hloop]
  constructor
  · intro hv
    obtain ⟨w,hw,rfl⟩ := Option.map_eq_some_iff.mp hv
    rw [htake w hw]
    obtain ⟨pre,l,post,hl,hsome,hpre⟩ := List.findSome?_eq_some_iff.mp hw
    exact ⟨pre,l,post,hl,(serverOf_iff isAddr (cstr l) w).mp hsome,
      fun m hm => (hnone m).mp (hpre m hm)⟩
  · rintro ⟨pre,l,post,hl,hnames,hpre⟩
    have hsome := (serverOf_iff isAddr (cstr l) v).mpr hnames
    have hw := List.findSome?_eq_some_iff.mpr
      ⟨pre,l,post,hl,hsome,fun m hm => (hnone m).mpr (hpre m hm)⟩
    rw [hw,Option.map_some,htake v hw]

/-- A comment, the machine itself, a domain, and then a server. -/
theorem getDnsIp_first_eights : ∃ pre l post,
    lines (ascii "# a\nnameserver 127.0.0.1\nsearch lan\nnameserver 8.8.8.8\n") = pre++l::post ∧
      Names (· = ascii "8.8.8.8") (text l) (ascii "8.8.8.8") ∧
        ∀ m ∈ pre,∀ w,¬Names (· = ascii "8.8.8.8") (text m) w :=
  (getDnsIp_first (· = ascii "8.8.8.8") le_rfl (by decide +kernel) _).mp (by decide +kernel)

end AntNameServer
end RecycleBin
