import RecycleBin.NgHostPort
import RecycleBin.NgParseTime

/-! The `listen` directive of `stream/core.go`: its parameters, and how a second listener
on an address is found. -/
namespace RecycleBin
namespace NgListen
open GurlCal (Bytes Literal atoi isDigit)
open GoSlice CString NgInet
open NgParse (ERROR parseTime)

def LISTEN_BACKLOG : ℤ := -1

/-- `syscall.SOCK_STREAM`. -/
def SOCK_STREAM : ℕ := 1

structure StreamListen where
  addr : Bytes := []
  bind : Bool := false
  wildcard : Bool := false
  ssl : Bool := false
  ipv6only : Bool := false
  reuseport : Bool := false
  soKeepalive : ℕ := 0
  proxyProtocol : Bool := false
  tcpKeepidle : ℤ := 0
  tcpKeepintvl : ℤ := 0
  tcpKeepcnt : ℤ := 0
  backlog : ℤ := 0
  sockType : ℕ := 0
  deriving DecidableEq

/-- What the errors of the directive are about. -/
inductive ListenError
  | url (err : String)
  | backlog (value : Bytes)
  | ipv6only (flags : Bytes)
  | soKeepalive (text : Bytes)
  | parameter (value : Bytes)
  | duplicate (url : Bytes)
  deriving DecidableEq

/-- The listener as it is left, and an error. -/
abbrev Result := StreamListen × Option ListenError

/-- `len(value) > len(key) && value[:len(key)] == key`: the rest of the value. -/
def keyed (key value : Bytes) : Option Bytes :=
  if key.length < value.length ∧ value.take key.length = key then some (value.drop key.length) else none

/-! ### `so_keepalive` -/

/-- The position `p`, or the end for `-1`. -/
def orEnd (p : ℤ) (value : Bytes) : ℤ := if p = -1 then value.length else p

/-- `goto invalid_so_keepalive`. -/
def invalidKeepalive (ls : StreamListen) (value : Bytes) : Except Fault Result := do
  let s ← sliceFrom value 13
  pure (ls,some (.soKeepalive s))

def keepaliveDone (ls : StreamListen) (value : Bytes) : Except Fault Result :=
  if ls.tcpKeepidle = 0 ∧ ls.tcpKeepintvl = 0 ∧ ls.tcpKeepcnt = 0 then invalidKeepalive ls value
  else .ok ({ ls with soKeepalive := 1,bind := false },none)

def keepaliveCnt (ls : StreamListen) (value : Bytes) (spos p : ℤ) : Except Fault Result := do
  let s ← sliceFrom value (if p < value.length then p+1 else value.length)
  if spos < value.length then
    let ls := { ls with tcpKeepcnt := atoiNumber s }
    if atoi s = none then invalidKeepalive ls value else keepaliveDone ls value
  else keepaliveDone ls value

/-- `p` is where the part before ends. -/
def keepaliveIntvl (ls : StreamListen) (value : Bytes) (p : ℤ) : Except Fault Result := do
  let spos := if p < value.length then p+1 else value.length
  let s ← sliceFrom value spos
  -- an offset in `s`, used in the value
  let p := orEnd (lastIndex s 58) value
  if p > spos then
    let t ← slice value spos p
    let ls := { ls with tcpKeepintvl := parseTime t true }
    if ls.tcpKeepintvl = ERROR then invalidKeepalive ls value else keepaliveCnt ls value spos p
  else keepaliveCnt ls value spos p

def keepaliveIdle (ls : StreamListen) (value : Bytes) : Except Fault Result := do
  let s ← sliceFrom value 13
  let p := orEnd (lastIndex s 58) value
  if p > 13 then
    let t ← slice value 13 p
    let ls := { ls with tcpKeepidle := parseTime t true }
    if ls.tcpKeepidle = ERROR then invalidKeepalive ls value else keepaliveIntvl ls value p
  else keepaliveIntvl ls value p

/-- The branch of `so_keepalive=`. -/
def soKeepalive (ls : StreamListen) (value : Bytes) : Except Fault Result := do
  let s ← sliceFrom value 13
  if s = ascii "on" then pure ({ ls with soKeepalive := 1,bind := false },none)
  else if s = ascii "off" then pure ({ ls with soKeepalive := 2,bind := false },none)
  else keepaliveIdle ls value

/-! ### The directive -/

/-- One round of the loop over the parameters. -/
def listenParam (ls : StreamListen) (value : Bytes) : Except Fault Result :=
  if value = ascii "bind" then .ok ({ ls with bind := true },none)
  else if let some n := keyed (ascii "backlog=") value then
    .ok ({ ls with backlog := atoiNumber n,bind := true },
      if atoi n = none ∨ atoiNumber n = 0 then some (.backlog value) else none)
  else if let some s := keyed (ascii "ipv6only=o") value then
    if s = ascii "n" then .ok ({ ls with ipv6only := true,bind := true },none)
    else if s = ascii "ff" then .ok ({ ls with ipv6only := false,bind := true },none)
    else .ok (ls,some (.ipv6only (value.drop 9)))
  else if value = ascii "reuseport" then .ok ({ ls with reuseport := true,bind := true },none)
  else if value = ascii "ssl" then .ok ({ ls with ssl := true },none)
  else if (keyed (ascii "so_keepalive=") value).isSome then soKeepalive ls value
  else if value = ascii "proxy_protocol" then .ok ({ ls with proxyProtocol := true },none)
  else .ok (ls,some (.parameter value))

def listenParams (ls : StreamListen) : List Bytes → Except Fault Result
  | [] => .ok (ls,none)
  | value::values => do
    let r ← listenParam ls value
    if r.2.isSome then pure r else listenParams r.1 values

/-- The listener before its parameters. -/
def StreamListen.new (addr : Bytes) (wildcard : Bool) : StreamListen where
  addr := addr
  backlog := LISTEN_BACKLOG
  sockType := SOCK_STREAM
  wildcard := wildcard
  ipv6only := true

/-- `coreListen` on the list `cmcf.listen`: its error, and the list. The checks of
`SOCK_DGRAM` are left out, as `sockType` is always `SOCK_STREAM`. -/
def coreListen (listen : List StreamListen) (args : List Bytes) :
    Except Fault (Option ListenError × List StreamListen) := do
  let url ← elem args 1
  let (rc,u) ← parseUrl { Url := url,Listen := true }
  if rc ≠ OK then pure (some (.url u.Err),listen)
  else
    -- the list has the listener from here on, whatever comes of it
    let (ls,e) ← listenParams (.new u.Addr u.Wildcard) (args.drop 2)
    if e.isSome then pure (e,listen++[ls])
    else if listen.any fun l => l.sockType = ls.sockType ∧ l.addr = ls.addr then
      pure (some (.duplicate u.Url),listen++[ls])
    else pure (none,listen++[ls])

/-! ### The branch of `so_keepalive=` -/

def keepaliveKey : Bytes := ascii "so_keepalive="

theorem keepaliveKey_length : keepaliveKey.length = 13 := rfl

theorem keyed_append (key : Bytes) {text : Bytes} (h : text ≠ []) : keyed key (key++text) = some text := by
  have hpos := List.length_pos_of_ne_nil h
  rw [keyed,if_pos ⟨by rw [List.length_append]; omega,List.take_left⟩,List.drop_left]

theorem keyed_of_head_ne {key value : Bytes} {b c : UInt8} (hk : key.head? = some b)
    (hv : value.head? = some c) (hne : b ≠ c) : keyed key value = none := by
  rw [keyed,if_neg]
  rintro ⟨-,htake⟩
  rcases key with _ | ⟨x,key⟩
  · cases hk
  rcases value with _ | ⟨y,value⟩
  · cases hv
  cases hk
  cases hv
  exact hne (List.cons.inj htake).1.symm

theorem listenParam_keepalive (ls : StreamListen) {text : Bytes} (h : text ≠ []) :
    listenParam ls (keepaliveKey++text) = soKeepalive ls (keepaliveKey++text) := by
  have hpos := List.length_pos_of_ne_nil h
  have hword : ∀ word : Bytes, word.length ≤ 13 → keepaliveKey++text ≠ word := by
    rintro _ hle rfl
    rw [List.length_append,keepaliveKey_length] at hle
    omega
  have hbacklog : keyed (ascii "backlog=") (keepaliveKey++text) = none :=
    keyed_of_head_ne (b:=98) (c:=115) rfl rfl (by decide)
  have hipv6 : keyed (ascii "ipv6only=o") (keepaliveKey++text) = none :=
    keyed_of_head_ne (b:=105) (c:=115) rfl rfl (by decide)
  have hkey : (keyed (ascii "so_keepalive=") (keepaliveKey++text)).isSome = true := by
    rw [← keepaliveKey,keyed_append keepaliveKey h]
    rfl
  unfold listenParam
  rw [if_neg (hword _ (by decide))]
  simp only [hbacklog,hipv6]
  rw [if_neg (hword _ (by decide)),if_neg (hword _ (by decide)),if_pos hkey]

section Keepalive
variable (ls : StreamListen) {text : Bytes}

theorem sliceFrom_key : sliceFrom (keepaliveKey++text) 13 = .ok text := sliceFrom_append rfl

theorem invalidKeepalive_eq :
    invalidKeepalive ls (keepaliveKey++text) = .ok (ls,some (.soKeepalive text)) := by
  rw [invalidKeepalive,sliceFrom_key]
  rfl

/-- Without a colon the text is the first part. -/
theorem keepaliveIdle_plain (hne : text ≠ []) (hcolon : 58 ∉ text) :
    keepaliveIdle ls (keepaliveKey++text) =
      if parseTime text true = ERROR then
        .ok ({ ls with tcpKeepidle := parseTime text true },some (.soKeepalive text))
      else keepaliveDone { ls with tcpKeepidle := parseTime text true } (keepaliveKey++text) := by
  have hpos := List.length_pos_of_ne_nil hne
  generalize hv : keepaliveKey++text = value
  have hlen : (value.length : ℤ) = 13+text.length := by
    rw [← hv,List.length_append,keepaliveKey_length,Nat.cast_add]
    rfl
  have hs : sliceFrom value 13 = .ok text := by rw [← hv,sliceFrom_key]
  have hnil : sliceFrom value value.length = .ok [] := by
    have h := sliceFrom_append (a:=value) (b:=[]) rfl
    rwa [List.append_nil] at h
  have hidle : slice value 13 value.length = .ok text := hs
  have hend : orEnd (lastIndex text 58) value = value.length := by
    rw [lastIndex_of_notMem hcolon,orEnd,if_pos rfl]
  have hend' : orEnd (lastIndex ([] : Bytes) 58) value = value.length := if_pos rfl
  have hinvalid : ∀ ls, invalidKeepalive ls value = .ok (ls,some (.soKeepalive text)) := by
    intro ls
    rw [← hv,invalidKeepalive_eq]
  have hrest : ∀ ls, keepaliveIntvl ls value value.length = keepaliveDone ls value := by
    intro ls
    rw [keepaliveIntvl]
    dsimp only
    rw [if_neg (lt_irrefl _),hnil,ok_bind,hend',if_neg (lt_irrefl _),keepaliveCnt,if_neg (lt_irrefl _),
      hnil,ok_bind,if_neg (lt_irrefl _)]
  rw [keepaliveIdle,hs,ok_bind]
  dsimp only
  rw [hend,if_pos (by omega),hidle,ok_bind,hinvalid,hrest]

/-- No end of `so_keepalive` is a time. -/
theorem parseTime_key : ∀ n : Fin 11,
    parseTime ((keepaliveKey.take 12).drop (n.val+1)) true = ERROR := by
  decide

/-- With a colon the second part is looked for in `so_keepalive=`, and the third is the
whole text. -/
theorem keepaliveIntvl_colon {a b : Bytes} (hb : 58 ∉ b) :
    ∃ ls', keepaliveIntvl ls (keepaliveKey++(a++58::b)) a.length =
      .ok (ls',some (.soKeepalive (a++58::b))) := by
  generalize hv : keepaliveKey++(a++58::b) = value
  have hlen : (value.length : ℤ) = 14+a.length+b.length := by
    rw [← hv,List.length_append,List.length_append,keepaliveKey_length,List.length_cons]
    omega
  have hinvalid : ∀ ls, invalidKeepalive ls value = .ok (ls,some (.soKeepalive (a++58::b))) := by
    intro ls
    rw [← hv,invalidKeepalive_eq]
  have hrest : sliceFrom value ((a.length : ℤ)+1) =
      .ok ((keepaliveKey++a).drop (a.length+1)++58::b) := by
    rw [sliceFrom_ok (by omega) (by omega),← hv,← List.append_assoc]
    have hn : ((a.length : ℤ)+1).toNat = a.length+1 := by omega
    rw [hn,List.drop_append_of_le_length]
    rw [List.length_append,keepaliveKey_length]
    omega
  -- the last colon is twelve bytes behind the offset
  have hlast : orEnd (lastIndex ((keepaliveKey++a).drop (a.length+1)++58::b) 58) value = 12 := by
    rw [lastIndex_append hb,List.length_drop,List.length_append,keepaliveKey_length,orEnd,if_neg]
    · omega
    · omega
  have hcnt : ∀ ls, ∃ ls', keepaliveCnt ls value (a.length+1) 12 =
      .ok (ls',some (.soKeepalive (a++58::b))) := by
    intro ls
    have hs : sliceFrom value (12+1) = .ok (a++58::b) := by rw [← hv]; exact sliceFrom_key
    have hatoi : atoi (a++58::b) = none := by
      by_contra hne
      obtain ⟨v,hv⟩ := Option.ne_none_iff_exists'.mp hne
      have h58 := atoi_bytes hv 58 (by simp)
      revert h58
      decide
    rw [keepaliveCnt,if_pos (by omega),hs,ok_bind,if_pos (by omega)]
    dsimp only
    rw [if_pos hatoi]
    exact ⟨_,hinvalid _⟩
  rw [keepaliveIntvl]
  dsimp only
  rw [if_pos (by omega),hrest,ok_bind,hlast]
  by_cases ha : (12 : ℤ) > a.length+1
  · have ht : slice value ((a.length : ℤ)+1) 12 =
        .ok ((keepaliveKey.take 12).drop (a.length+1)) := by
      have hn : ((a.length : ℤ)+1).toNat = a.length+1 := by omega
      rw [slice,if_pos (by omega),hn,← hv]
      rfl
    have herr := parseTime_key ⟨a.length,by omega⟩
    rw [if_pos ha,ht,ok_bind]
    dsimp only at herr ⊢
    rw [if_pos herr]
    exact ⟨_,hinvalid _⟩
  · rw [if_neg ha]
    exact hcnt ls

/-- Any text with a colon is invalid. -/
theorem soKeepalive_colon (hcolon : 58 ∈ text) :
    ∃ ls', soKeepalive ls (keepaliveKey++text) = .ok (ls',some (.soKeepalive text)) := by
  obtain ⟨a,b,rfl,hb⟩ : ∃ a b, text = a++58::b ∧ 58 ∉ b := by
    obtain ⟨a,b,hab,ha⟩ := List.eq_append_cons_of_mem (List.mem_reverse.mpr hcolon)
    refine ⟨b.reverse,a.reverse,?_,by simpa using ha⟩
    rw [← List.reverse_reverse text,hab]
    simp
  have hon : a++58::b ≠ ascii "on" := fun h => by
    have hmem : (58 : UInt8) ∈ ascii "on" := by rw [← h]; simp
    revert hmem
    decide
  have hoff : a++58::b ≠ ascii "off" := fun h => by
    have hmem : (58 : UInt8) ∈ ascii "off" := by rw [← h]; simp
    revert hmem
    decide
  have hend : orEnd (lastIndex (a++58::b) 58) (keepaliveKey++(a++58::b)) = a.length := by
    rw [lastIndex_append hb,orEnd,if_neg (by omega)]
  rw [soKeepalive,sliceFrom_key,ok_bind,if_neg hon,if_neg hoff,keepaliveIdle,sliceFrom_key,ok_bind]
  dsimp only
  rw [hend]
  split_ifs with hlt
  · obtain ⟨t,ht⟩ : ∃ t, slice (keepaliveKey++(a++58::b)) 13 a.length = .ok t := by
      rw [slice,if_pos]
      · exact ⟨_,rfl⟩
      · simp only [List.length_append]
        omega
    rw [ht,ok_bind]
    split_ifs
    · exact ⟨_,invalidKeepalive_eq _⟩
    · exact keepaliveIntvl_colon _ hb
  · exact keepaliveIntvl_colon ls hb

theorem keepaliveDone_returns (ls : StreamListen) (text : Bytes) :
    ∃ r, keepaliveDone ls (keepaliveKey++text) = .ok r := by
  rw [keepaliveDone,invalidKeepalive_eq]
  split_ifs <;> exact ⟨_,rfl⟩

/-- No text makes the parameter panic. -/
theorem listenParam_returns (ls : StreamListen) (text : Bytes) :
    ∃ r, listenParam ls (keepaliveKey++text) = .ok r := by
  by_cases hne : text = []
  · rw [hne,List.append_nil]
    exact ⟨_,rfl⟩
  rw [listenParam_keepalive ls hne]
  by_cases hcolon : 58 ∈ text
  · obtain ⟨ls',h⟩ := soKeepalive_colon ls hcolon
    exact ⟨_,h⟩
  · rw [soKeepalive,sliceFrom_key,ok_bind,keepaliveIdle_plain ls hne hcolon]
    split_ifs
    · exact ⟨_,rfl⟩
    · exact ⟨_,rfl⟩
    · exact ⟨_,rfl⟩
    · exact keepaliveDone_returns _ _

end Keepalive

/-! ### Among the other parameters -/

/-- No parameter of the list is a `so_keepalive=`. -/
def Plain (values : List Bytes) : Prop := ∀ value ∈ values, keyed keepaliveKey value = none

/-- The parts of a listener that `so_keepalive` and the duplicates are about. -/
structure SameKeepalive (ls ls' : StreamListen) : Prop where
  idle : ls'.tcpKeepidle = ls.tcpKeepidle
  intvl : ls'.tcpKeepintvl = ls.tcpKeepintvl
  cnt : ls'.tcpKeepcnt = ls.tcpKeepcnt
  on : ls'.soKeepalive = ls.soKeepalive

theorem SameKeepalive.refl (ls : StreamListen) : SameKeepalive ls ls := ⟨rfl,rfl,rfl,rfl⟩

theorem SameKeepalive.trans {a b c : StreamListen} (h : SameKeepalive a b) (h' : SameKeepalive b c) :
    SameKeepalive a c :=
  ⟨h'.idle.trans h.idle,h'.intvl.trans h.intvl,h'.cnt.trans h.cnt,h'.on.trans h.on⟩

/-- The error of any other parameter does not depend on the listener. -/
theorem listenParam_plain {value : Bytes} (h : keyed keepaliveKey value = none) :
    ∃ e, ∀ ls, ∃ ls', listenParam ls value = .ok (ls',e) ∧ SameKeepalive ls ls' := by
  have hkey : ¬(keyed (ascii "so_keepalive=") value).isSome = true := by
    rw [← keepaliveKey,h]
    exact Bool.false_ne_true
  unfold listenParam
  by_cases h1 : value = ascii "bind"
  · exact ⟨none,fun ls => ⟨_,if_pos h1,⟨rfl,rfl,rfl,rfl⟩⟩⟩
  simp only [if_neg h1]
  rcases keyed (ascii "backlog=") value with _ | n
  · rcases keyed (ascii "ipv6only=o") value with _ | s
    · dsimp only
      by_cases h2 : value = ascii "reuseport"
      · exact ⟨none,fun ls => ⟨_,if_pos h2,⟨rfl,rfl,rfl,rfl⟩⟩⟩
      simp only [if_neg h2]
      by_cases h3 : value = ascii "ssl"
      · exact ⟨none,fun ls => ⟨_,if_pos h3,⟨rfl,rfl,rfl,rfl⟩⟩⟩
      simp only [if_neg h3,if_neg hkey]
      by_cases h4 : value = ascii "proxy_protocol"
      · exact ⟨none,fun ls => ⟨_,if_pos h4,⟨rfl,rfl,rfl,rfl⟩⟩⟩
      · exact ⟨_,fun ls => ⟨_,if_neg h4,⟨rfl,rfl,rfl,rfl⟩⟩⟩
    · dsimp only
      by_cases h2 : s = ascii "n"
      · exact ⟨none,fun ls => ⟨_,if_pos h2,⟨rfl,rfl,rfl,rfl⟩⟩⟩
      simp only [if_neg h2]
      by_cases h3 : s = ascii "ff"
      · exact ⟨none,fun ls => ⟨_,if_pos h3,⟨rfl,rfl,rfl,rfl⟩⟩⟩
      · exact ⟨_,fun ls => ⟨_,if_neg h3,⟨rfl,rfl,rfl,rfl⟩⟩⟩
  · exact ⟨_,fun ls => ⟨_,rfl,⟨rfl,rfl,rfl,rfl⟩⟩⟩

theorem listenParams_plain {values : List Bytes} (h : Plain values) :
    ∃ e, ∀ ls, ∃ ls', listenParams ls values = .ok (ls',e) ∧ SameKeepalive ls ls' := by
  induction values with
  | nil => exact ⟨none,fun ls => ⟨ls,rfl,.refl ls⟩⟩
  | cons value values ih =>
    obtain ⟨e,he⟩ := listenParam_plain (h value List.mem_cons_self)
    obtain ⟨e',he'⟩ := ih fun v hv => h v (List.mem_cons_of_mem value hv)
    rcases e with _ | e
    · refine ⟨e',fun ls => ?_⟩
      obtain ⟨ls₁,h₁,hs₁⟩ := he ls
      obtain ⟨ls₂,h₂,hs₂⟩ := he' ls₁
      exact ⟨ls₂,by rw [listenParams,h₁,ok_bind]; exact h₂,hs₁.trans hs₂⟩
    · refine ⟨some e,fun ls => ?_⟩
      obtain ⟨ls₁,h₁,hs₁⟩ := he ls
      exact ⟨ls₁,by rw [listenParams,h₁]; rfl,hs₁⟩

theorem listenParams_append (a b : List Bytes) (ls : StreamListen) :
    listenParams ls (a++b) =
      listenParams ls a >>= fun r => if r.2.isSome then pure r else listenParams r.1 b := by
  induction a generalizing ls with
  | nil => rfl
  | cons value a ih =>
    rw [List.cons_append,listenParams,listenParams,bind_assoc]
    refine bind_congr fun r => ?_
    cases hr : r.2.isSome with
    | true =>
      rw [if_pos rfl,if_pos rfl,pure_bind,if_pos hr]
    | false =>
      rw [if_neg Bool.false_ne_true,if_neg Bool.false_ne_true]
      exact ih r.1

/-- Parameters that are accepted, none of them a `so_keepalive=`. -/
structure Others (values : List Bytes) : Prop where
  plain : Plain values
  accepted : ∃ ls, listenParams {} values = .ok (ls,none)

theorem Others.listenParams {values : List Bytes} (h : Others values) (ls : StreamListen) :
    ∃ ls', listenParams ls values = .ok (ls',none) ∧ SameKeepalive ls ls' := by
  obtain ⟨e,he⟩ := listenParams_plain h.plain
  obtain ⟨ls₀,h₀⟩ := h.accepted
  obtain ⟨ls₁,h₁,-⟩ := he {}
  rw [h₀] at h₁
  cases h₁
  exact he ls

/-! ### The settings -/

/-- A time text that `ParseTime` accepts. -/
structure TimeText where
  text : Bytes
  accepted : parseTime text true ≠ ERROR

/-- A decimal number of type `int`. -/
structure Count where
  num : Literal
  lt_max : num.val < 2^63

structure Keepalive where
  idle : Option TimeText
  intvl : Option TimeText
  cnt : Option Count
  given : idle.isSome ∨ intvl.isSome ∨ cnt.isSome

namespace Keepalive

def timeText : Option TimeText → Bytes
  | some t => t.text
  | none => []

def timeValue : Option TimeText → ℤ
  | some t => parseTime t.text true
  | none => 0

def cntText : Option Count → Bytes
  | some c => c.num.digits
  | none => []

def cntValue : Option Count → ℤ
  | some c => c.num.val
  | none => 0

/-- `[idle]:[intvl]:[cnt]`, of which absent parts at the end may be omitted. -/
inductive Spelled (k : Keepalive) : Bytes → Prop
  | full : Spelled k (timeText k.idle++58::(timeText k.intvl++58::cntText k.cnt))
  | two (hc : k.cnt = none) : Spelled k (timeText k.idle++58::timeText k.intvl)
  | one (hi : k.intvl = none) (hc : k.cnt = none) : Spelled k (timeText k.idle)

/-- The listener has the settings. -/
def Sets (k : Keepalive) (r : Except Fault Result) : Prop :=
  ∃ ls, r = .ok (ls,none) ∧ ls.tcpKeepidle = timeValue k.idle ∧ ls.tcpKeepintvl = timeValue k.intvl ∧
    ls.tcpKeepcnt = cntValue k.cnt ∧ ls.soKeepalive = 1

/-- Without a colon there is the first part alone. -/
theorem Spelled.plain {k : Keepalive} {text : Bytes} (h : k.Spelled text) (hcolon : 58 ∉ text) :
    k.intvl = none ∧ k.cnt = none ∧ ∃ t, k.idle = some t ∧ text = t.text := by
  cases h with
  | full => exact absurd (by simp) hcolon
  | two => exact absurd (by simp) hcolon
  | one hi hc =>
    refine ⟨hi,hc,?_⟩
    have hgiven := k.given
    rw [hi,hc] at hgiven
    rcases ht : k.idle with _ | t
    · simp [ht] at hgiven
    · exact ⟨t,rfl,rfl⟩

theorem Spelled.ne_nil {k : Keepalive} {text : Bytes} (h : k.Spelled text) : text ≠ [] := by
  rintro rfl
  obtain ⟨-,-,t,-,ht⟩ := h.plain List.not_mem_nil
  have hacc := t.accepted
  rw [← ht] at hacc
  exact hacc rfl

end Keepalive

open Keepalive

/-- The parameter on a listener without settings. -/
theorem listenParam_sets_iff (k : Keepalive) {text : Bytes} (hs : k.Spelled text) {ls : StreamListen}
    (hls : SameKeepalive {} ls) :
    ∃ ls' e, listenParam ls (keepaliveKey++text) = .ok (ls',e) ∧
      (58 ∉ text ∧ timeValue k.idle ≠ 0 → e = none ∧ ls'.tcpKeepidle = timeValue k.idle ∧
        ls'.tcpKeepintvl = timeValue k.intvl ∧ ls'.tcpKeepcnt = cntValue k.cnt ∧ ls'.soKeepalive = 1) ∧
      (¬(58 ∉ text ∧ timeValue k.idle ≠ 0) → e.isSome = true) := by
  rw [listenParam_keepalive ls hs.ne_nil]
  by_cases hcolon : 58 ∈ text
  · obtain ⟨ls',h⟩ := soKeepalive_colon ls hcolon
    exact ⟨ls',_,h,fun hcon => absurd hcolon hcon.1,fun _ => rfl⟩
  obtain ⟨hi,hc,t,hidle,htext⟩ := hs.plain hcolon
  have hacc := t.accepted
  have hon : text ≠ ascii "on" := by
    rintro hon
    rw [← htext,hon] at hacc
    exact hacc rfl
  have hoff : text ≠ ascii "off" := by
    rintro hoff
    rw [← htext,hoff] at hacc
    exact hacc rfl
  rw [soKeepalive,sliceFrom_key,ok_bind,if_neg hon,if_neg hoff,
    keepaliveIdle_plain ls hs.ne_nil hcolon,htext,if_neg hacc,hidle,hi,hc,timeValue,timeValue,cntValue,
    keepaliveDone]
  by_cases hzero : parseTime t.text true = 0
  · rw [if_pos ⟨hzero,hls.intvl,hls.cnt⟩,invalidKeepalive_eq]
    exact ⟨_,_,rfl,fun hcon => absurd hzero hcon.2,fun _ => rfl⟩
  · rw [if_neg fun hcon => hzero hcon.1]
    rw [htext] at hcolon
    exact ⟨_,_,rfl,fun _ => ⟨rfl,rfl,hls.intvl,hls.cnt,rfl⟩,fun hcon => absurd ⟨hcolon,hzero⟩ hcon⟩

/-- No text of `so_keepalive=` panics. The settings are made exactly if they are a first part
without a colon that is not zero. -/
theorem keepalive_sets_iff (k : Keepalive) {text : Bytes} (hs : k.Spelled text) (addr : Bytes)
    (wildcard : Bool) {before after : List Bytes} (hb : Others before) (ha : Others after) :
    (∀ (ls : StreamListen) (value : Bytes), ∃ r, listenParam ls (keepaliveKey++value) = .ok r) ∧
      (k.Sets (listenParams (.new addr wildcard) (before++(keepaliveKey++text)::after)) ↔
        58 ∉ text ∧ timeValue k.idle ≠ 0) := by
  refine ⟨listenParam_returns,?_⟩
  obtain ⟨ls₁,h₁,hs₁⟩ := hb.listenParams (.new addr wildcard)
  have hnew : SameKeepalive {} (.new addr wildcard) := ⟨rfl,rfl,rfl,rfl⟩
  have hfresh : SameKeepalive {} ls₁ := hnew.trans hs₁
  obtain ⟨ls₂,e,h₂,hgood,hbad⟩ := listenParam_sets_iff k hs hfresh
  have hrun : listenParams (.new addr wildcard) (before++(keepaliveKey++text)::after) =
      if e.isSome then .ok (ls₂,e) else listenParams ls₂ after := by
    rw [listenParams_append,h₁,ok_bind,if_neg (by simp),NgListen.listenParams,h₂]
    rfl
  rw [hrun]
  by_cases hcond : 58 ∉ text ∧ timeValue k.idle ≠ 0
  · obtain ⟨rfl,hidle,hintvl,hcnt,hon⟩ := hgood hcond
    obtain ⟨ls₃,h₃,hs₃⟩ := ha.listenParams ls₂
    refine iff_of_true ⟨ls₃,h₃,?_,?_,?_,?_⟩ hcond
    · exact hs₃.idle.trans hidle
    · exact hs₃.intvl.trans hintvl
    · exact hs₃.cnt.trans hcnt
    · exact hs₃.on.trans hon
  · refine iff_of_false ?_ hcond
    rintro ⟨ls₃,h₃,-⟩
    have he := hbad hcond
    rw [if_pos he] at h₃
    cases h₃
    cases he

/-- `so_keepalive=5` behind `bind`, in front of `ssl`. -/
def five : TimeText := ⟨ascii "5",by decide⟩

theorem keepalive_sets_iff_five :
    (∀ (ls : StreamListen) (value : Bytes), ∃ r, listenParam ls (keepaliveKey++value) = .ok r) ∧
      (Sets ⟨some five,none,none,.inl rfl⟩
        (listenParams (.new [] false) ([ascii "bind"]++(keepaliveKey++five.text)::[ascii "ssl"])) ↔
          58 ∉ five.text ∧ timeValue (some five) ≠ 0) := by
  have hb : Others [ascii "bind"] :=
    ⟨fun v hv => by rw [List.mem_singleton.mp hv]; decide,_,rfl⟩
  have ha : Others [ascii "ssl"] :=
    ⟨fun v hv => by rw [List.mem_singleton.mp hv]; decide,_,rfl⟩
  exact keepalive_sets_iff ⟨some five,none,none,.inl rfl⟩ (.one rfl rfl) [] false hb ha

/-- `so_keepalive=5:5:3`. -/
theorem not_sets_three :
    ¬Sets ⟨some five,some five,some ⟨⟨ascii "3",by decide,List.all_eq_true.mp (by decide)⟩,by decide⟩,.inl rfl⟩
      (listenParams (.new [] false) [keepaliveKey++ascii "5:5:3"]) := by
  rintro ⟨ls,h,-⟩
  cases h

end NgListen
end RecycleBin
