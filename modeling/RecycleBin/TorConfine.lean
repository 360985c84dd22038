import RecycleBin.Paths
import RecycleBin.TorHead

/-!
# The file name stays below the data directory

The name handed to `stat` is `data_dir`, what the `Referer` lines append, and the path of
the request. It is resolved by its components `.` and `..`.
-/

namespace RecycleBin
namespace TorHttp

open AntHash AntVisited CString Paths

/-! ## Names as paths -/

/-- The parts of a name between its slashes. -/
def split : Bytes → List Bytes
  | [] => [[]]
  | c::s =>
    if c = 47 then []::split s
    else
      match split s with
      | seg::segs => (c::seg)::segs
      | [] => [[c]]

def component (seg : Bytes) : Comp Bytes :=
  if seg = [] ∨ seg = [46] then .cur else if seg = [46,46] then .up else .name seg

def components (s : Bytes) : List (Comp Bytes) :=
  (split s).map component

def rooted (s : Bytes) : Bool :=
  s.head? = some 47

/-- Where a name leads, from the root or from the working directory. -/
def place (s : Bytes) : Place Bytes :=
  resolve (rooted s) start (components s)

/-- `name` leads to the directory `d` or below it. -/
def LiesUnder (d name : Bytes) : Prop :=
  rooted name = rooted d ∧ Under (place d) (place name)

theorem split_cons_slash (s : Bytes) : split (47::s) = []::split s := rfl

theorem split_cons {c : UInt8} (hc : c ≠ 47) {s seg : Bytes} {segs : List Bytes}
    (h : split s = seg::segs) : split (c::s) = (c::seg)::segs := by
  simp only [split,if_neg hc,h]

theorem exists_split (s : Bytes) : ∃ seg segs, split s = seg::segs := by
  cases s with
  | nil => exact ⟨[],[],rfl⟩
  | cons c s =>
    by_cases hc : c = 47
    · subst hc
      exact ⟨[],split s,rfl⟩
    · rcases hs : split s with _ | ⟨seg,segs⟩
      · exact ⟨[c],[],by simp [split,hc,hs]⟩
      · exact ⟨c::seg,segs,split_cons hc hs⟩

/-- What stands behind the last slash. -/
def lastName (s : Bytes) : Bytes :=
  (split s).getLastD []

/-- Appended text continues the part behind the last slash. -/
theorem split_append (a b : Bytes) : split (a++b) = (split a).dropLast++split (lastName a++b) := by
  induction a with
  | nil => rfl
  | cons c a ih =>
    obtain ⟨seg,segs,ha⟩ := exists_split a
    by_cases hc : c = 47
    · subst hc
      have hlast : lastName (47::a) = lastName a := by
        simp [lastName,split_cons_slash,ha]
      rw [List.cons_append,split_cons_slash,split_cons_slash,ih,hlast,ha]
      rfl
    · have hsplit := split_cons hc ha
      rcases segs with _ | ⟨seg',segs⟩
      · have hlast : lastName a = seg := by simp [lastName,ha]
        have hlast' : lastName (c::a) = c::seg := by simp [lastName,hsplit]
        obtain ⟨x,xs,hx⟩ := exists_split (seg++b)
        rw [hlast,ha,hx] at ih
        rw [List.cons_append,split_cons hc ih,hlast',hsplit,List.cons_append,split_cons hc hx]
        rfl
      · have hlast : lastName (c::a) = lastName a := by simp [lastName,hsplit,ha]
        rw [ha] at ih
        rw [List.cons_append,split_cons hc ih,hsplit,hlast]
        rfl

/-- The place the parts in front of the last slash lead to. -/
def above (s : Bytes) : Place Bytes :=
  resolve (rooted s) start ((split s).dropLast.map component)

theorem place_eq_step (s : Bytes) :
    place s = step (rooted s) (above s) (component (lastName s)) := by
  obtain ⟨seg,segs,hs⟩ := exists_split s
  have hne : split s ≠ [] := by
    rw [hs]
    exact List.cons_ne_nil _ _
  have hlast : (split s).dropLast++[lastName s] = split s := by
    rw [lastName,List.getLastD_eq_getLast?,List.getLast?_eq_getLast_of_ne_nil hne]
    exact List.dropLast_append_getLast hne
  have hmap : components s = (split s).dropLast.map component++[component (lastName s)] := by
    rw [components,← List.map_singleton,← List.map_append,hlast]
  rw [place,hmap,resolve_append,above]
  rfl

theorem place_append {d t : Bytes} (h : rooted (d++t) = rooted d) :
    place (d++t) = resolve (rooted d) (above d) (components (lastName d++t)) := by
  rw [place,h,components,split_append,List.map_append,resolve_append]
  rfl

/-- The text appended to `d` comes back below `d`. Together with what stands behind the last
slash of `d` it climbs a number of levels; it goes down the same names again, and
the last one of `d` with them. -/
def Stays (d t : Bytes) : Prop :=
  (d = [] → t.head? ≠ some 47) ∧
    Returns (rooted d) (above d) (component (lastName d)) (reduce (components (lastName d++t)))

theorem rooted_append_iff (d t : Bytes) :
    rooted (d++t) = rooted d ↔ (d = [] → t.head? ≠ some 47) := by
  cases d with
  | nil => simp [rooted]
  | cons c d => simp [rooted]

theorem liesUnder_append_iff (d t : Bytes) : LiesUnder d (d++t) ↔ Stays d t := by
  rw [LiesUnder,Stays,← rooted_append_iff]
  constructor
  · rintro ⟨hroot,hunder⟩
    rw [place_append hroot,place_eq_step,under_step_iff] at hunder
    exact ⟨hroot,hunder⟩
  · rintro ⟨hroot,hreturns⟩
    rw [place_append hroot,place_eq_step,under_step_iff]
    exact ⟨hroot,hreturns⟩

/-! ## The request -/

variable {isDir : Bytes → Bool}

/-- `process_line` accepts the lines one after another, from line `n` on. -/
inductive Accepted (isDir : Bytes → Bool) : List Bytes → ℕ → Http → Http → Prop
  | nil {n : ℕ} {http : Http} : Accepted isDir [] n http http
  | cons {line : Bytes} {lines : List Bytes} {n : ℕ} {http http₁ http' : Http} :
      processLine isDir http line n = .ok (1,http₁) → Accepted isDir lines (n+1) http₁ http' →
      Accepted isDir (line::lines) n http http'

/-- A run of lines only appends to the file name. -/
theorem Accepted.extends {lines : List Bytes} {n : ℕ} {http http' : Http}
    (h : Accepted isDir lines n http http') : ∃ t, http'.fname = http.fname++t := by
  induction h with
  | nil => exact ⟨[],(List.append_nil _).symm⟩
  | cons hline _ ih =>
    obtain ⟨t,ht⟩ := processLine_extends hline
    obtain ⟨t',ht'⟩ := ih
    exact ⟨t++t',by rw [ht',ht,List.append_assoc]⟩

/-- What stands behind `data_dir` in the name handed to `stat`: what the `Referer` lines
appended, and of the path what the bound of `strncat` lets through. -/
def appended (d : DataDir) (http : Http) : Bytes :=
  http.fname.drop d.name.length++
    http.path.take (MAX_URL_SIZE-http.fname.length-http.path.length-1)

/-- The name `http_join_head_body` hands to `stat` and `open` lies under `data_dir`. -/
def Confined (d : DataDir) (http : Http) : Prop :=
  ∃ name, joinName http = .ok name ∧ LiesUnder d.name name

/-- After any accepted lines, the name is confined exactly where it fits its array and the
text behind `data_dir` stays below it. -/
theorem confined_iff (d : DataDir) (lines : List Bytes) (http : Http)
    (h : Accepted isDir lines 0 (httpNew d) http) :
    Confined d http ↔ http.fname.length+http.path.length+1 ≤ MAX_URL_SIZE ∧
      Stays d.name (appended d http) := by
  obtain ⟨t,ht⟩ := h.extends
  rw [httpNew_fname] at ht
  have hname : http.fname++http.path.take (MAX_URL_SIZE-http.fname.length-http.path.length-1) =
      d.name++appended d http := by
    have hdrop : http.fname.drop d.name.length = t := by rw [ht,List.drop_left]
    rw [appended,hdrop,← List.append_assoc,← ht]
  rw [Confined,joinName,hname]
  split_ifs with hfits
  · constructor
    · rintro ⟨name,heq,hunder⟩
      cases heq
      exact ⟨hfits,(liesUnder_append_iff _ _).mp hunder⟩
    · rintro ⟨-,hstays⟩
      exact ⟨_,rfl,(liesUnder_append_iff _ _).mpr hstays⟩
  · refine iff_of_false ?_ (fun hcond => hfits hcond.1)
    rintro ⟨name,heq,-⟩
    cases heq

/-! ## Names without `..` -/

theorem reduce_noUp {cs : List (Comp Bytes)} (h : .up ∉ cs) (q : Place Bytes) :
    (resolve false q cs).ups = q.ups := by
  induction cs generalizing q with
  | nil => rfl
  | cons c cs ih =>
    rw [resolve_cons,ih (fun hmem => h (List.mem_cons_of_mem _ hmem))]
    cases c with
    | cur => rfl
    | name a => rfl
    | up => exact absurd List.mem_cons_self h

/-- Behind a directory name that ends in a slash, text without `..` stays below it. -/
theorem stays_of_noUp {d t : Bytes} (hne : d ≠ []) (hslash : lastName d = [])
    (hup : .up ∉ components t) : Stays d t := by
  have hups : (reduce (components t)).ups = 0 := reduce_noUp hup start
  refine ⟨fun h => absurd h hne,?_⟩
  rw [hslash,List.nil_append]
  exact ⟨by rw [hups]; exact List.nil_suffix,Or.inr (by rw [hups]; exact Nat.zero_le _)⟩

/-! ## Requests -/

def srvWww : DataDir where
  name := ascii "/srv/www/"
  noNul := by decide
  fits := by decide

/-- What is left of `GET /dir/a`. -/
def afterDirA : Http := ⟨ascii "dir/a",ascii "/srv/www/",false,0⟩

theorem accepted_dirA :
    Accepted (fun _ => false) [ascii "GET /dir/a HTTP/1.1"] 0 (httpNew srvWww) afterDirA :=
  .cons (by decide) .nil

theorem confined_iff_dirA :
    Confined srvWww afterDirA ↔ afterDirA.fname.length+afterDirA.path.length+1 ≤ MAX_URL_SIZE ∧
      Stays srvWww.name (appended srvWww afterDirA) :=
  confined_iff srvWww [ascii "GET /dir/a HTTP/1.1"] afterDirA accepted_dirA

/-- `GET /../secret` leaves the data directory. -/
theorem not_confined_dotdot :
    ¬∀ (isDir : Bytes → Bool) (d : DataDir) (lines : List Bytes) (http : Http),
      Accepted isDir lines 0 (httpNew d) http → Confined d http := by
  intro h
  have haccepted : Accepted (fun _ => false) [ascii "GET /../secret HTTP/1.1"] 0 (httpNew srvWww)
      ⟨ascii "../secret",ascii "/srv/www/",false,0⟩ := .cons (by decide) .nil
  obtain ⟨name,hname,-,hunder⟩ := h _ _ _ _ haccepted
  have hjoin : joinName ⟨ascii "../secret",ascii "/srv/www/",false,0⟩ =
      .ok (ascii "/srv/www/../secret") := by decide
  rw [hjoin] at hname
  cases hname
  revert hunder
  decide

end TorHttp
end RecycleBin
