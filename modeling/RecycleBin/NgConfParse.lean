import RecycleBin.NgToken

/-! Parsing a configuration file: directives are read and handled until the file or the block
ends, and a handler may parse a block or another file in its turn. Files and buffers live behind
pointers, a configuration is one object that all handlers write to. -/
namespace RecycleBin.NgConfParse

open NgToken (Rc File Buffer)

/-- The position of the parser: the two pointers may be nil. -/
structure ConfFile where
  file : Option ℕ := none
  line : ℕ := 0
  offset : ℕ := 0
  buf : Option ℕ := none
  deriving DecidableEq,Repr

structure Conf (Ctx : Type) where
  name : List UInt8 := []
  args : List (List UInt8) := []
  cmdType : ℕ := 0
  confFile : ConfFile := { }
  ctx : Option Ctx := none

/-- The open files, the buffers, and what else the handlers work on. -/
structure World (Mem : Type) where
  files : List File
  buffers : List Buffer
  memory : Mem

/-- What a handler does: it may use the memory, change the context, parse a block or a file, keep
a copy of the whole configuration, and write the last copy back. -/
inductive Script (Ctx Mem : Type)
  | ret (rc : ℤ)
  | panic
  | act (f : Conf Ctx → Mem → Mem) (k : Conf Ctx → Mem → Script Ctx Mem)
  | assign (cmdType : ℕ) (ctx : Option Ctx) (k : Script Ctx Mem)
  | parse (filename : List UInt8) (k : ℤ → Script Ctx Mem)
  | save (k : Script Ctx Mem)
  | restore (k : Script Ctx Mem)

structure Command (Ctx Val Mem : Type) where
  type : ℕ
  set : Conf Ctx → Val → Script Ctx Mem

/-- What the parser is run with: `os.Open` with the content of the file, the table of commands, and
the part of the context that a command is given. -/
structure Host (Ctx Val Mem : Type) where
  contents : List UInt8 → Option (List UInt8)
  getCommand : List UInt8 → ℕ → Option (Command Ctx Val Mem × ℕ)
  locate : Command Ctx Val Mem → ℕ → Conf Ctx → Mem → Except Fault Val

def OK : ℤ := 0
def ERROR : ℤ := -1

def CONF_BLOCK : ℕ := 0x100
def CONF_FLAG : ℕ := 0x200
def CONF_ANY : ℕ := 0x400
def CONF_1MORE : ℕ := 0x800
def CONF_2MORE : ℕ := 0x1000
def CONF_MAX_ARGS : ℕ := 8
def ARGUMENT_NUMBER : List ℕ := [0x1,0x2,0x4,0x8,0x10,0x20,0x40,0x80]

variable {Ctx Val Mem : Type}

/-- A result with the configuration and the world behind it. -/
abbrev Outcome (Ctx Mem α : Type) := α × Conf Ctx × World Mem

/-- The address in a pointer, and what is there. -/
def deref {α : Type} (xs : List α) : Option ℕ → Except Fault (ℕ × α)
  | none => .error .panic
  | some a =>
    match xs[a]? with
    | none => .error .panic
    | some x => .ok (a,x)

def readToken (cf : Conf Ctx) (w : World Mem) : Except Fault (Outcome Ctx Mem Rc) := do
  let (b,buffer) ← deref w.buffers cf.confFile.buf
  -- `Stat` of a nil file fails
  if cf.confFile.file = none then .ok (.error,{ cf with args := [] },w)
  else
    let (a,file) ← deref w.files cf.confFile.file
    let (rc,s) ← NgToken.readToken ⟨file,cf.confFile.line,cf.confFile.offset,buffer,cf.args⟩
    .ok (rc,
      { cf with
        args := s.args
        confFile := { cf.confFile with line := s.line, offset := s.offset } },
      { w with files := w.files.set a s.file, buffers := w.buffers.set b s.buffer })

/-- `ConfParse` as the handlers call it. -/
abbrev Parse (Ctx Mem : Type) :=
  List UInt8 → Conf Ctx → World Mem → Except Fault (Outcome Ctx Mem ℤ)

/-- Run a handler; `ps` are the copies it has kept. -/
def runScript (parse : Parse Ctx Mem) :
    Script Ctx Mem → List (Conf Ctx) → Conf Ctx → World Mem → Except Fault (Outcome Ctx Mem ℤ)
  | .ret rc, _, cf, w => .ok (rc,cf,w)
  | .panic, _, _, _ => .error .panic
  | .act f k, ps, cf, w =>
    let memory := f cf w.memory
    runScript parse (k cf memory) ps cf { w with memory := memory }
  | .assign cmdType ctx k, ps, cf, w =>
    runScript parse k ps { cf with cmdType := cmdType, ctx := ctx } w
  | .parse filename k, ps, cf, w => do
    let (rc,cf,w) ← parse filename cf w
    runScript parse (k rc) ps cf w
  | .save k, ps, cf, w => runScript parse k (cf::ps) cf w
  | .restore k, p::ps, _, w => runScript parse k (p::ps) p w
  | .restore _, [], _, _ => .error .panic

/-- The number of arguments, the name of the directive among them, is one that the type allows. -/
def argsAllowed (type n : ℕ) : Bool :=
  if type &&& CONF_ANY = CONF_ANY then true
  else if type &&& CONF_FLAG = CONF_FLAG then n = 2
  else if type &&& CONF_1MORE = CONF_1MORE then 2 ≤ n
  else if type &&& CONF_2MORE = CONF_2MORE then 3 ≤ n
  else n ≤ CONF_MAX_ARGS ∧ type &&& ARGUMENT_NUMBER.getD (n-1) 0 ≠ 0

def handler (h : Host Ctx Val Mem) (parse : Parse Ctx Mem)
    (cf : Conf Ctx) (last : Rc) (w : World Mem) : Except Fault (Outcome Ctx Mem ℤ) :=
  match cf.args with
  | [] => .error .panic
  | name::_ =>
    match h.getCommand name cf.cmdType with
    | none => .ok (ERROR,cf,w)
    | some (cmd,pos) =>
      if cmd.type &&& CONF_BLOCK ≠ CONF_BLOCK ∧ last ≠ .ok then .ok (ERROR,cf,w)
      else if cmd.type &&& CONF_BLOCK = CONF_BLOCK ∧ last ≠ .blockStart then .ok (ERROR,cf,w)
      else if argsAllowed cmd.type cf.args.length then do
        let conf ← h.locate cmd pos cf w.memory
        let (rv,cf,w) ← runScript parse (cmd.set cf conf) [] cf w
        .ok (if rv = OK then OK else ERROR,cf,w)
      else .ok (ERROR,cf,w)

inductive Kind
  | file | block | param
  deriving DecidableEq,Repr

/-- The loop of `ConfParse`. -/
def parseLoop (h : Host Ctx Val Mem) (parse : Parse Ctx Mem)
    (kind : Kind) : ℕ → Conf Ctx → World Mem → Except Fault (Outcome Ctx Mem ℤ)
  | 0, _, _ => .error .exhausted
  | fuel+1, cf, w => do
    let (rc,cf,w) ← readToken cf w
    if rc = .error then .ok (ERROR,cf,w)
    else if rc = .blockDone then .ok (if kind = .block then OK else ERROR,cf,w)
    else if rc = .fileDone then .ok (if kind = .block then ERROR else OK,cf,w)
    else if rc = .blockStart ∧ kind = .param then .ok (ERROR,cf,w)
    else
      let (rc,cf,w) ← handler h parse cf rc w
      if rc = ERROR then .ok (ERROR,cf,w) else parseLoop h parse kind fuel cf w

/-- A configuration that has just been pointed at a file just opened. -/
def openFile (cf : Conf Ctx) (content : List UInt8) (w : World Mem) : Conf Ctx × World Mem :=
  ({ cf with confFile := { file := some w.files.length, buf := some w.buffers.length } },
    { w with
      files := w.files++[{ content := content }]
      buffers := w.buffers++[{ buf := List.replicate 4096 0 }] })

/-- A block is parsed under the empty name. `prev` is the address of the field, not a copy of it:
what is read through it in the end is what stands in the field then. -/
def confParse (h : Host Ctx Val Mem) :
    ℕ → List UInt8 → Conf Ctx → World Mem → Except Fault (Outcome Ctx Mem ℤ)
  | 0, _, _, _ => .error .exhausted
  | fuel+1, filename, cf, w =>
    if filename = [] then
      parseLoop h (confParse h fuel) (if cf.confFile.file = none then .param else .block) fuel cf w
    else
      match h.contents filename with
      | none => .ok (ERROR,cf,w)
      | some content => do
        let prev := fun cf : Conf Ctx => cf.confFile
        let (cf,w) := openFile cf content w
        let (rc,cf,w) ← parseLoop h (confParse h fuel) .file fuel cf w
        .ok (rc,{ cf with confFile := prev cf },w)

/-- The handler of an include: the test for a pattern is on the name of the configuration. -/
def includeFile (cf : Conf Ctx) : Script Ctx Mem :=
  match cf.args[1]? with
  | none => .panic
  | some file =>
    if cf.name.any fun b => b = 42 ∨ b = 63 ∨ b = 91 then .ret OK else .parse file .ret

/-- The file has been opened when there were at least `n` files open. -/
def Later (n : ℕ) (c : ConfFile) : Prop := ∃ i, c.file = some i ∧ n ≤ i

/-- The configuration is at a file opened since there were `n` files, of which none is gone. -/
structure Since (n : ℕ) (cf : Conf Ctx) (w : World Mem) : Prop where
  later : Later n cf.confFile
  files : n ≤ w.files.length

variable {h : Host Ctx Val Mem} {n : ℕ} {cf : Conf Ctx} {w : World Mem}
  {parse : Parse Ctx Mem}

theorem Since.of_ok {α : Type} {a : α} (hs : Since n cf w) {r : Outcome Ctx Mem α}
    (hr : (.ok (a,cf,w) : Except Fault (Outcome Ctx Mem α)) = .ok r) : Since n r.2.1 r.2.2 :=
  Except.ok.inj hr ▸ hs

theorem Since.readToken (hs : Since n cf w) {r : Outcome Ctx Mem Rc}
    (hr : readToken cf w = .ok r) : Since n r.2.1 r.2.2 := by
  have ⟨b,_,hr⟩ := bind_eq_ok.mp hr
  by_cases hnil : cf.confFile.file = none
  · simp only [hnil,if_true,Except.ok.injEq] at hr
    exact hr ▸ ⟨hs.later,hs.files⟩
  · simp only [hnil,if_false] at hr
    have ⟨a,_,hr⟩ := bind_eq_ok.mp hr
    have ⟨s,_,hr⟩ := bind_eq_ok.mp hr
    rw [Except.ok.injEq] at hr
    have hfiles : n ≤ (w.files.set a.1 s.2.file).length := by
      rw [List.length_set]
      exact hs.files
    exact hr ▸ ⟨hs.later,hfiles⟩

/-- Parsing keeps to files opened since then. -/
def Keeps (n : ℕ) (parse : Parse Ctx Mem) : Prop :=
  ∀ filename cf w r, Since n cf w → parse filename cf w = .ok r → Since n r.2.1 r.2.2

theorem Since.runScript (hparse : Keeps n parse) {s : Script Ctx Mem} {ps : List (Conf Ctx)}
    (hps : ∀ p ∈ ps, Later n p.confFile) (hs : Since n cf w) {r : Outcome Ctx Mem ℤ}
    (hr : runScript parse s ps cf w = .ok r) : Since n r.2.1 r.2.2 := by
  induction s generalizing ps cf w with
  | ret rc =>
    exact hs.of_ok hr
  | panic => cases hr
  | act f k ih => exact ih _ _ hps (w := { w with memory := f cf w.memory }) ⟨hs.later,hs.files⟩ hr
  | assign cmdType ctx k ih =>
    have hs' : Since n { cf with cmdType := cmdType, ctx := ctx } w := ⟨hs.later,hs.files⟩
    exact ih hps hs' hr
  | parse filename k ih =>
    have ⟨r',hr',hk⟩ := bind_eq_ok.mp hr
    exact ih _ hps (hparse filename cf w r' hs hr') hk
  | save k ih =>
    have hps' : ∀ p ∈ cf::ps, Later n p.confFile := by
      intro p hp
      cases List.mem_cons.mp hp with
      | inl he => exact he ▸ hs.later
      | inr hp => exact hps p hp
    exact ih hps' hs hr
  | restore k ih =>
    cases ps with
    | nil => cases hr
    | cons p ps =>
      have hs' : Since n p w := ⟨hps p (by simp),hs.files⟩
      exact ih hps hs' hr

theorem Since.handler (hparse : Keeps n parse) (hs : Since n cf w) {last : Rc}
    {r : Outcome Ctx Mem ℤ} (hr : handler h parse cf last w = .ok r) : Since n r.2.1 r.2.2 := by
  unfold NgConfParse.handler at hr
  split at hr
  · cases hr
  · split at hr
    · exact hs.of_ok hr
    · split_ifs at hr
      · exact hs.of_ok hr
      · exact hs.of_ok hr
      · have ⟨conf,_,hr⟩ := bind_eq_ok.mp hr
        have ⟨r',hr',hr⟩ := bind_eq_ok.mp hr
        exact (hs.runScript hparse (by simp) hr').of_ok hr
      · exact hs.of_ok hr

theorem Since.parseLoop (hparse : Keeps n parse) {kind : Kind} {fuel : ℕ} (hs : Since n cf w)
    {r : Outcome Ctx Mem ℤ} (hr : parseLoop h parse kind fuel cf w = .ok r) :
    Since n r.2.1 r.2.2 := by
  induction fuel generalizing cf w with
  | zero => cases hr
  | succ fuel ih =>
    have ⟨⟨rc,cf',w'⟩,ht,hr⟩ := bind_eq_ok.mp hr
    have hread := hs.readToken ht
    dsimp only at hr
    split_ifs at hr
    · exact hread.of_ok hr
    · exact hread.of_ok hr
    · exact hread.of_ok hr
    · exact hread.of_ok hr
    · exact hread.of_ok hr
    · exact hread.of_ok hr
    · have ⟨⟨rv,cf'',w''⟩,hu,hr⟩ := bind_eq_ok.mp hr
      have hhandler := hread.handler hparse hu
      dsimp only at hr
      split_ifs at hr
      · exact hhandler.of_ok hr
      · exact ih hhandler hr

/-- A file that is opened is the next one. -/
theorem Since.openFile (cf : Conf Ctx) (content : List UInt8) (hn : n ≤ w.files.length) :
    Since n (openFile cf content w).1 (openFile cf content w).2 := by
  refine ⟨⟨w.files.length,rfl,hn⟩,?_⟩
  simp only [NgConfParse.openFile,List.length_append]
  omega

/-- Parsing a file that can be opened ends at a file that has been opened since. -/
theorem confParse_opened {fuel : ℕ} {filename : List UInt8} (hname : filename ≠ [])
    (hparse : Keeps n (confParse h fuel)) (hn : n ≤ w.files.length) {content : List UInt8}
    (hopen : h.contents filename = some content) {r : Outcome Ctx Mem ℤ}
    (hr : confParse h (fuel+1) filename cf w = .ok r) : Since n r.2.1 r.2.2 := by
  rw [confParse,if_neg hname,hopen] at hr
  have ⟨⟨rc,cf',w'⟩,hloop,hr⟩ := bind_eq_ok.mp hr
  exact ((Since.openFile cf content hn).parseLoop hparse hloop).of_ok hr

theorem confParse_keeps (h : Host Ctx Val Mem) (n fuel : ℕ) : Keeps n (confParse h fuel) := by
  induction fuel with
  | zero =>
    intro filename cf w r hs hr
    cases hr
  | succ fuel ih =>
    intro filename cf w r hs hr
    by_cases hname : filename = []
    · rw [confParse,if_pos hname] at hr
      exact hs.parseLoop ih hr
    · cases hopen : h.contents filename with
      | some content => exact confParse_opened hname ih hs.files hopen hr
      | none =>
        simp only [confParse,hname,if_false,hopen,Except.ok.injEq] at hr
        exact hr ▸ hs

/-- The position before the call is lost. -/
theorem confParse_moved {fuel : ℕ} {filename : List UInt8} (hname : filename ≠ [])
    (hfile : ∀ a, cf.confFile.file = some a → a < w.files.length) {content : List UInt8}
    (hopen : h.contents filename = some content) {r : Outcome Ctx Mem ℤ}
    (hr : confParse h fuel filename cf w = .ok r) : r.2.1.confFile ≠ cf.confFile := by
  cases fuel with
  | zero => cases hr
  | succ fuel =>
    have hs := confParse_opened hname (confParse_keeps h w.files.length fuel) le_rfl hopen hr
    have ⟨i,hi,hle⟩ := hs.later
    intro he
    rw [he] at hi
    have := hfile i hi
    omega

/-- So an include does not come back to the file it stands in. -/
theorem includeFile_moved {fuel : ℕ} {filename : List UInt8} (hargs : cf.args[1]? = some filename)
    (hname : filename ≠ []) (hplain : ∀ b ∈ cf.name, b ≠ 42 ∧ b ≠ 63 ∧ b ≠ 91)
    (hfile : ∀ a, cf.confFile.file = some a → a < w.files.length) {content : List UInt8}
    (hopen : h.contents filename = some content) {r : Outcome Ctx Mem ℤ}
    (hr : runScript (confParse h fuel) (includeFile cf) [] cf w = .ok r) :
    r.2.1.confFile ≠ cf.confFile := by
  have hpattern : (cf.name.any fun b => b = 42 ∨ b = 63 ∨ b = 91) = false := by
    rw [List.any_eq_false]
    intro b hb
    have := hplain b hb
    simp [this]
  simp only [includeFile,hargs,hpattern,Bool.false_eq_true,if_false,runScript] at hr
  have ⟨r',hparse,hr⟩ := bind_eq_ok.mp hr
  rw [Except.ok.injEq] at hr
  exact hr ▸ confParse_moved hname hfile hopen hparse

/-- When parsing a file returns, the position is the one before the call if and only if the file
could not be opened. -/
theorem restored_iff (h : Host Ctx Val Mem) (fuel : ℕ) (filename : List UInt8)
    (hname : filename ≠ []) (cf : Conf Ctx) (w : World Mem)
    (hfile : ∀ a, cf.confFile.file = some a → a < w.files.length) (r : Outcome Ctx Mem ℤ)
    (hr : confParse h fuel filename cf w = .ok r) :
    r.2.1.confFile = cf.confFile ↔ h.contents filename = none := by
  cases hopen : h.contents filename with
  | some content => simp [confParse_moved hname hfile hopen hr]
  | none =>
    cases fuel with
    | zero => cases hr
    | succ fuel =>
      simp only [confParse,hname,if_false,hopen,Except.ok.injEq] at hr
      simp [← hr]

/-- A host with empty files under all names and no commands. -/
def emptyHost : Host Unit Unit Unit := ⟨fun _ => some [],fun _ _ => none,fun _ _ _ _ => .ok ()⟩

/-- In the middle of the only file. -/
def inFile : Conf Unit := { confFile := { file := some 0, line := 2, offset := 9, buf := some 0 } }

def oneFile : World Unit := ⟨[⟨[],0⟩],[⟨0,[]⟩],()⟩

/-- The result of including an empty file there. -/
def afterEmpty : Outcome Unit Unit ℤ :=
  (OK,{ inFile with confFile := { file := some 1, buf := some 1 } },
    ⟨[⟨[],0⟩,⟨[],0⟩],[⟨0,[]⟩,⟨0,List.replicate 4096 0⟩],()⟩)

/-- An empty file is at its end at once. -/
theorem readToken_empty (buf : List UInt8) (args : List (List UInt8)) :
    NgToken.readToken ⟨⟨[],0⟩,0,0,⟨0,buf⟩,args⟩ = .ok (.fileDone,⟨⟨[],0⟩,0,0,⟨0,buf⟩,[]⟩) := by
  simp [NgToken.readToken,NgToken.tokenLoop,NgToken.refill]

theorem confParse_empty : confParse emptyHost 2 [97] inFile oneFile = .ok afterEmpty := by
  simp [-List.reduceReplicate,confParse,emptyHost,openFile,inFile,oneFile,parseLoop,readToken,deref,
    readToken_empty,afterEmpty]

theorem restored_empty :
    afterEmpty.2.1.confFile = inFile.confFile ↔ emptyHost.contents [97] = none :=
  restored_iff emptyHost 2 [97] (by decide) inFile oneFile (by decide) afterEmpty confParse_empty

theorem not_restored_empty :
    ¬∀ (h : Host Unit Unit Unit) (fuel : ℕ) (filename : List UInt8), filename ≠ [] →
      ∀ (cf : Conf Unit) (w : World Unit),
        (∀ a, cf.confFile.file = some a → a < w.files.length) →
        ∀ r, confParse h fuel filename cf w = .ok r → r.2.1.confFile = cf.confFile := by
  intro hall
  have h := hall emptyHost 2 [97] (by decide) inFile oneFile (by decide) afterEmpty confParse_empty
  exact absurd h (by decide)

end RecycleBin.NgConfParse
