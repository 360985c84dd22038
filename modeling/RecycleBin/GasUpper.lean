import RecycleBin.GasAsm

/-! A filter in assembly: `to_upper.s` copies a file through a buffer of 512 bytes, by system
calls that may fail, stop short or come in pieces. -/
namespace RecycleBin
namespace GasUpper
open GasAsm (signed)
open AntHash GasInt Halting

/-! ### The program -/

inductive Label
  | main | open_fd_in | open_fd_out | read_write_begin | to_upper | to_upper_begin | to_upper_end
  | written | main_end | main_error

def BUFFER_SIZE : ℕ := 512

/-- What the kernel answers: to the two `open`s, and to the `read` and the `write` of each round;
none is an error, and a number a limit to the bytes that are moved. -/
structure Kernel where
  openIn : Bool
  openOut : Bool
  read : ℕ → Option ℕ
  write : ℕ → Option ℕ

/-- The registers in use and `BUFFER`; `count` is the argument on the stack, `input` what is left of
one file and `output` what the other holds. -/
structure State where
  rsi : BitVec 64
  rcx : BitVec 64
  r8 : BitVec 64
  bl : UInt8
  count : BitVec 64
  buffer : Bytes
  input : Bytes
  output : Bytes
  round : ℕ

/-- The bytes of one `read`, at least one of a file that is not at its end. -/
def chunk (limit : ℕ) (input : Bytes) : Bytes := input.take (min BUFFER_SIZE (limit+1))

/-- One block: where control goes, or the exit status with the output. -/
def block (argc : Word) (k : Kernel) : Label × State → (Label × State) ⊕ Except Fault (ℕ × Bytes)
  | (.main,s) => if argc.toInt < 3 then .inl (.main_error,s) else .inl (.open_fd_in,s)
  | (.open_fd_in,s) =>
    -- `main_error` returns to what `pushq %rsi` has left on the stack
    if k.openIn then .inl (.open_fd_out,s) else .inr (.error .undefined)
  | (.open_fd_out,s) =>
    if k.openOut then .inl (.read_write_begin,s) else .inl (.main_end,s)
  | (.read_write_begin,s) =>
    (k.read s.round).elim (.inl (.main_end,s)) fun limit =>
      let bs := chunk limit s.input
      if bs.length = 0 then .inl (.main_end,s)
      else
        let rax := BitVec.ofNat 64 bs.length
        .inl (.to_upper,{ s with
          input := s.input.drop bs.length
          buffer := bs++s.buffer.drop bs.length
          r8 := rax
          count := rax })
  | (.to_upper,s) =>
    let esi := s.count.setWidth 32
    let s := { s with rsi := esi.setWidth 64 }
    if esi.toInt ≤ 0 then .inl (.to_upper_end,s)
    else .inl (.to_upper_begin,{ s with rcx := 0 })
  | (.to_upper_begin,s) =>
    if s.rsi.toInt ≤ s.rcx.toInt then .inl (.to_upper_end,s)
    else (s.buffer[s.rcx.toNat]?).elim (.inr (.error .undefined)) fun b =>
      let s := { s with bl := b }
      let s := { s with rcx := s.rcx+1 }
      if signed s.bl < 97 then .inl (.to_upper_begin,s)
      else if 122 < signed s.bl then .inl (.to_upper_begin,s)
      else
        let s := { s with bl := s.bl+(65-97) }
        .inl (.to_upper_begin,{ s with buffer := s.buffer.set (s.rcx.toNat-1) s.bl })
  | (.to_upper_end,s) => .inl (.written,s)
  | (.written,s) =>
    (k.write s.round).elim (.inl (.main_end,s)) fun limit =>
      let n := min limit s.r8.toNat
      let s := { s with output := s.output++s.buffer.take n, round := s.round+1 }
      if n = 0 then .inl (.main_end,s) else .inl (.read_write_begin,s)
  | (.main_end,s) => .inr (.ok (0,s.output))
  | (.main_error,s) => .inr (.ok (1,s.output))

/-! ### One chunk -/

def upper (b : UInt8) : UInt8 := if 97 ≤ b ∧ b ≤ 122 then b-32 else b

theorem upper_eq : ∀ b : UInt8,
    (signed b < 97 ∨ 122 < signed b → upper b = b) ∧
      (¬signed b < 97 → ¬122 < signed b → upper b = b+(65-97)) :=
  CString.forall_byte (by decide +kernel)

/-- Of the `n` bytes to convert `left` are left. -/
structure Turned (buffer : Bytes) (n : ℕ) (t : State) (left : ℕ) (s : Label × State) : Prop where
  label : s.1 = .to_upper_begin
  small : n ≤ BUFFER_SIZE
  fits : n ≤ buffer.length
  rsi : s.2.rsi.toNat = n
  rcx : s.2.rcx.toNat+left = n
  buffer : s.2.buffer = (buffer.take s.2.rcx.toNat).map upper++buffer.drop s.2.rcx.toNat
  rest : s.2.r8 = t.r8 ∧ s.2.input = t.input ∧ s.2.output = t.output ∧ s.2.round = t.round

theorem toInt_of_small {x : BitVec 64} (h : x.toNat ≤ BUFFER_SIZE) : x.toInt = x.toNat := by
  rw [BUFFER_SIZE] at h
  exact BitVec.toInt_eq_toNat_of_lt (by omega)

theorem turn {argc : Word} {k : Kernel} {buffer : Bytes} {n : ℕ} {t : State} {left : ℕ}
    {s : Label × State} (h : Turned buffer n t (left+1) s) :
    ∃ s',block argc k s = .inl s' ∧ Turned buffer n t left s' := by
  obtain ⟨l,s⟩ := s
  obtain ⟨rfl,hsmall,hfits,hrsi,hleft,hbuffer,hrest⟩ := h
  dsimp only at hrsi hleft hbuffer hrest
  obtain ⟨i,hi⟩ : ∃ i,i = s.rcx.toNat := ⟨_,rfl⟩
  rw [← hi] at hbuffer hleft
  have hlt : i < buffer.length := by omega
  have hold : s.buffer = (buffer.take i).map upper++buffer[i]::buffer.drop (i+1) := by
    rw [hbuffer,← List.drop_eq_getElem_cons hlt]
  have hnew : (buffer.take (i+1)).map upper++buffer.drop (i+1) =
      (buffer.take i).map upper++upper buffer[i]::buffer.drop (i+1) := by
    rw [← List.take_append_getElem hlt,List.map_append,List.append_assoc]
    rfl
  have hlen : ((buffer.take i).map upper).length = i := by simp; omega
  have hload : s.buffer[i]? = some buffer[i] := by
    rw [hold,List.getElem?_append_right hlen.le,hlen,Nat.sub_self]
    rfl
  have hnext : (s.rcx+1).toNat = i+1 := by
    have hmax : BUFFER_SIZE = 512 := rfl
    rw [BitVec.toNat_add,← hi]
    exact Nat.mod_eq_of_lt (by change i+1 < 2^64; omega)
  have hgo : ¬s.rsi.toInt ≤ s.rcx.toInt := by
    rw [toInt_of_small (by omega),toInt_of_small (by omega)]
    omega
  obtain ⟨hkeep,hconvert⟩ := upper_eq buffer[i]
  simp only [block,if_neg hgo,← hi,hload,Option.elim]
  by_cases hother : signed buffer[i] < 97 ∨ 122 < signed buffer[i]
  · have hstay : s.buffer = (buffer.take (i+1)).map upper++buffer.drop (i+1) := by
      rw [hnew,hkeep hother,hold]
    refine ⟨(.to_upper_begin,{ s with bl := buffer[i], rcx := s.rcx+1 }),?_,rfl,hsmall,hfits,hrsi,
      ?_,?_,hrest⟩
    · by_cases hlow : signed buffer[i] < 97
      · rw [if_pos hlow]
      · rw [if_neg hlow,if_pos (hother.resolve_left hlow)]
    · simp only [hnext]
      omega
    · simp only [hnext]
      exact hstay
  · obtain ⟨hlow,hhigh⟩ := not_or.mp hother
    rw [if_neg hlow,if_neg hhigh]
    refine ⟨_,rfl,rfl,hsmall,hfits,hrsi,?_,?_,hrest⟩
    · simp only [hnext]
      omega
    · simp only [hnext,Nat.add_sub_cancel,hnew,hold,hconvert hlow hhigh]
      rw [List.set_append_right _ _ hlen.le,hlen,Nat.sub_self]
      rfl

/-- The call of `to_upper` converts the bytes of the chunk, and no other. -/
theorem convert {argc : Word} {k : Kernel} {s : State} {bs rest : Bytes} {v : Except Fault (ℕ × Bytes)}
    (hpos : 0 < bs.length) (hlen : bs.length ≤ BUFFER_SIZE) (hbuffer : s.buffer = bs++rest)
    (hcount : s.count = BitVec.ofNat 64 bs.length)
    (hwritten : ∀ s',s'.buffer = bs.map upper++rest → s'.r8 = s.r8 → s'.input = s.input →
      s'.output = s.output → s'.round = s.round → Returns (block argc k) (.written,s') v) :
    Returns (block argc k) (.to_upper,s) v := by
  rw [BUFFER_SIZE] at hlen
  have hesi : (s.count.setWidth 32).toNat = bs.length := by
    rw [hcount,BitVec.toNat_setWidth,BitVec.toNat_ofNat]
    omega
  have hrsi : ((s.count.setWidth 32).setWidth 64).toNat = bs.length := by
    rw [BitVec.toNat_setWidth,hesi]
    exact Nat.mod_eq_of_lt (by omega)
  have hint : (s.count.setWidth 32).toInt = bs.length := by
    rw [BitVec.toInt_eq_toNat_of_lt (by omega),hesi]
  have hmax : BUFFER_SIZE = 512 := rfl
  refine .next (by rw [block,if_neg (by omega)]) (Returns.countdown
    (I:=Turned s.buffer bs.length s) (fun left s' => turn) ?_ (k:=bs.length) ?_)
  · rintro ⟨l,s'⟩ ⟨rfl,-,-,hrsi',hleft,hdone,hr8,hinput,houtput,hround⟩
    dsimp only at hrsi' hleft hdone hr8 hinput houtput hround
    have hend : s'.rsi.toInt ≤ s'.rcx.toInt := by
      rw [toInt_of_small (by omega),toInt_of_small (by omega)]
      omega
    have hrcx : s'.rcx.toNat = bs.length := by omega
    rw [hrcx,hbuffer,List.take_left,List.drop_left] at hdone
    exact .next (by rw [block,if_pos hend]) (.next rfl (hwritten s' hdone hr8 hinput houtput hround))
  · refine ⟨rfl,by omega,?_,hrsi,?_,?_,rfl,rfl,rfl,rfl⟩
    · rw [hbuffer,List.length_append]
      omega
    · simp
    · simp

/-! ### The whole program -/

/-- Every `read` succeeds until the file is at its end, and every `write` takes the whole chunk. -/
inductive Complete (k : Kernel) : ℕ → Bytes → Prop
  | done (r : ℕ) : Complete k r []
  | round {r limit room : ℕ} {input : Bytes} (hread : k.read r = some limit)
      (hwrite : k.write r = some room) (hroom : (chunk limit input).length ≤ room)
      (hrest : Complete k (r+1) (input.drop (chunk limit input).length)) : Complete k r input

theorem chunk_length (limit : ℕ) (input : Bytes) :
    (chunk limit input).length ≤ BUFFER_SIZE ∧ ((chunk limit input).length = 0 ↔ input = []) := by
  rw [chunk,List.length_take,← List.length_eq_zero_iff,BUFFER_SIZE]
  omega

theorem not_complete {k : Kernel} {r : ℕ} {input : Bytes} (hne : input ≠ [])
    (h : ∀ limit room,k.read r = some limit → k.write r = some room →
      room < (chunk limit input).length) : ¬Complete k r input := by
  rintro (_ | ⟨hread,hwrite,hroom,-⟩)
  · exact hne rfl
  · exact absurd hroom (Nat.not_le.mpr (h _ _ hread hwrite))

/-- What a round writes of its chunk, and what the rounds behind it write. -/
theorem written_iff {k : Kernel} {r limit room : ℕ} {input out : Bytes}
    (hread : k.read r = some limit) (hwrite : k.write r = some room) (hne : input ≠ [])
    (hsub : out.Sublist ((input.drop (chunk limit input).length).map upper))
    (hiff : out = (input.drop (chunk limit input).length).map upper ↔
      Complete k (r+1) (input.drop (chunk limit input).length)) :
    (((chunk limit input).map upper).take room++out).Sublist (input.map upper) ∧
      (((chunk limit input).map upper).take room++out = input.map upper ↔ Complete k r input) := by
  obtain ⟨bs,hbs⟩ : ∃ bs,bs = chunk limit input := ⟨_,rfl⟩
  rw [← hbs] at hsub hiff ⊢
  have hsplit : input.map upper = bs.map upper++(input.drop bs.length).map upper := by
    have htake : bs = input.take bs.length := by
      rw [hbs,chunk,List.length_take,List.take_eq_take_iff]
      omega
    conv_lhs => rw [← List.take_append_drop bs.length input,← htake]
    rw [List.map_append]
  rw [hsplit]
  refine ⟨(List.take_sublist _ _).append hsub,?_⟩
  by_cases hroom : bs.length ≤ room
  · rw [List.take_of_length_le (by simpa using hroom),List.append_cancel_left_eq,hiff]
    constructor
    · intro h
      exact .round hread hwrite (hbs ▸ hroom) (hbs ▸ h)
    · rintro (_ | ⟨hread',-,-,hrest⟩)
      · exact absurd rfl hne
      · rw [hread] at hread'
        cases hread'
        exact hbs ▸ hrest
  · constructor
    · intro h
      have hlen := congrArg List.length h
      have hle := hsub.length_le
      simp only [List.length_append,List.length_take,List.length_map] at hlen hle
      omega
    · intro h
      refine absurd h (not_complete hne ?_)
      intro limit' room' hread' hwrite'
      rw [hread] at hread'
      rw [hwrite] at hwrite'
      cases hread'
      cases hwrite'
      exact hbs ▸ Nat.not_le.mp hroom

theorem returns_end (argc : Word) (k : Kernel) (s : State) :
    Returns (block argc k) (.main_end,s) (.ok (0,s.output)) := .ret rfl

/-- A round up to its `write`: the chunk is read and converted. -/
theorem round_written {argc : Word} {k : Kernel} {s : State} {limit : ℕ}
    {v : Except Fault (ℕ × Bytes)} (hread : k.read s.round = some limit) (hne : s.input ≠ [])
    (hwritten : ∀ s',
      s'.buffer = (chunk limit s.input).map upper++s.buffer.drop (chunk limit s.input).length →
      s'.r8.toNat = (chunk limit s.input).length →
      s'.input = s.input.drop (chunk limit s.input).length → s'.output = s.output →
      s'.round = s.round → Returns (block argc k) (.written,s') v) :
    Returns (block argc k) (.read_write_begin,s) v := by
  obtain ⟨hshort,hzero⟩ := chunk_length limit s.input
  have hpos : 0 < (chunk limit s.input).length := Nat.pos_of_ne_zero (mt hzero.mp hne)
  have hr8 : (BitVec.ofNat 64 (chunk limit s.input).length).toNat = (chunk limit s.input).length := by
    rw [BUFFER_SIZE] at hshort
    rw [BitVec.toNat_ofNat]
    omega
  have hbegin : block argc k (.read_write_begin,s) = .inl (.to_upper,{ s with
      input := s.input.drop (chunk limit s.input).length
      buffer := chunk limit s.input++s.buffer.drop (chunk limit s.input).length
      r8 := BitVec.ofNat 64 (chunk limit s.input).length
      count := BitVec.ofNat 64 (chunk limit s.input).length }) := by
    simp only [block,hread,Option.elim,if_neg hpos.ne']
  refine .next hbegin (convert hpos hshort rfl rfl ?_)
  intro s' hbuffer hs'r8 hinput houtput hround
  exact hwritten s' hbuffer (by rw [hs'r8,hr8]) hinput houtput hround

/-- What the rounds from `r` on write depends on the file and the kernel only. -/
theorem rounds (argc : Word) (k : Kernel) (r : ℕ) (input : Bytes) :
    ∃ out : Bytes,out.Sublist (input.map upper) ∧ (out = input.map upper ↔ Complete k r input) ∧
      ∀ s : State,s.buffer.length = BUFFER_SIZE → s.input = input → s.round = r →
        Returns (block argc k) (.read_write_begin,s) (.ok (0,s.output++out)) := by
  induction hn : input.length using Nat.strong_induction_on generalizing r input with
  | _ n ih =>
    -- the copy ends here
    have hlost : input ≠ [] → ¬Complete k r input → ([] = input.map upper ↔ Complete k r input) := by
      intro hne hnot
      exact ⟨fun h => absurd (List.map_eq_nil_iff.mp h.symm) hne,fun h => absurd h hnot⟩
    rcases eq_or_ne input [] with rfl | hne
    · refine ⟨[],List.nil_sublist _,⟨fun _ => .done _,fun _ => rfl⟩,?_⟩
      rintro s - hs rfl
      rw [List.append_nil]
      refine .next (t:=(.main_end,s)) ?_ (returns_end argc k s)
      cases hread : k.read s.round with
      | none => rw [block,hread,Option.elim]
      | some limit =>
        simp only [block,hread,Option.elim,if_pos ((chunk_length limit s.input).2.mpr hs)]
    cases hread : k.read r with
    | none =>
      refine ⟨[],List.nil_sublist _,hlost hne (not_complete hne (by simp [hread])),?_⟩
      rintro s - - rfl
      rw [List.append_nil]
      exact .next (t:=(.main_end,s)) (by rw [block,hread,Option.elim]) (returns_end argc k s)
    | some limit =>
      have hpos : 0 < (chunk limit input).length :=
        Nat.pos_of_ne_zero (mt (chunk_length limit input).2.mp hne)
      cases hwrite : k.write r with
      | none =>
        refine ⟨[],List.nil_sublist _,hlost hne (not_complete hne (by simp [hwrite])),?_⟩
        rintro s - rfl rfl
        rw [List.append_nil]
        refine round_written hread hne fun s' _ _ _ houtput hround => ?_
        refine .next (t:=(.main_end,s')) ?_ (houtput ▸ returns_end argc k s')
        simp only [block,hround,hwrite,Option.elim]
      | some room =>
        have hless : (input.drop (chunk limit input).length).length < n := by
          have hlen := mt List.length_eq_zero_iff.mp hne
          rw [List.length_drop]
          omega
        obtain ⟨out,hsub,hiff,hrun⟩ := ih _ hless (r+1) (input.drop (chunk limit input).length) rfl
        by_cases hnone : room = 0
        · have hzero : ¬Complete k r input := by
            refine not_complete hne fun limit' room' hread' hwrite' => ?_
            rw [hread] at hread'
            rw [hwrite] at hwrite'
            cases hread'
            cases hwrite'
            rw [hnone]
            exact hpos
          refine ⟨[],List.nil_sublist _,hlost hne hzero,?_⟩
          rintro s - rfl rfl
          refine round_written hread hne fun s' _ _ _ houtput hround => ?_
          refine .next (t:=(.main_end,_)) ?_ (returns_end argc k { s' with
            output := s.output++[],round := s'.round+1 })
          simp only [block,hround,hwrite,Option.elim,hnone,Nat.zero_min,if_true,List.take_zero,
            List.append_nil,houtput]
        · obtain ⟨hsub',hiff'⟩ := written_iff hread hwrite hne hsub hiff
          refine ⟨((chunk limit input).map upper).take room++out,hsub',hiff',?_⟩
          rintro s hbuffer rfl rfl
          refine round_written hread hne fun s' hs'buffer hs'r8 hs'input houtput hround => ?_
          have htake : s'.buffer.take (min room (chunk limit s.input).length) =
              ((chunk limit s.input).map upper).take room := by
            rw [hs'buffer,List.take_append_of_le_length (by simp),← List.length_map (f:=upper),
              ← List.take_eq_take_min]
          have hlen : s'.buffer.length = BUFFER_SIZE := by
            have hshort := (chunk_length limit s.input).1
            rw [hs'buffer]
            simp only [List.length_append,List.length_map,List.length_drop,hbuffer]
            omega
          have hnext := hrun { s' with
            output := s'.output++((chunk limit s.input).map upper).take room
            round := s'.round+1 } hlen hs'input (by simp only [hround])
          simp only [houtput,List.append_assoc] at hnext
          refine .next ?_ hnext
          have hmoved : min room (chunk limit s.input).length ≠ 0 := by omega
          simp only [block,hround,hwrite,Option.elim,hs'r8,htake,if_neg hmoved,houtput]

/-- At the start `BUFFER` is clear and the registers hold anything. -/
def start (input : Bytes) (rsi rcx r8 count : BitVec 64) (bl : UInt8) : Label × State :=
  (.main,⟨rsi,rcx,r8,bl,count,List.replicate BUFFER_SIZE 0,input,[],0⟩)

/-- The program copies a file in capitals: what it writes lacks bytes at most, and lacks none if and
only if no call fails and no `write` stops short. It tells neither by its exit status, and an input
that cannot be opened makes it jump to where `argv` lies. -/
theorem program_copies (argc : Word) (k : Kernel) (input : Bytes) :
    ∃ v,(∀ rsi rcx r8 count bl,Returns (block argc k) (start input rsi rcx r8 count bl) v) ∧
      (argc.toInt < 3 → v = .ok (1,[])) ∧
      (3 ≤ argc.toInt → k.openIn = false → v = .error .undefined) ∧
      (3 ≤ argc.toInt → k.openIn = true → k.openOut = false → v = .ok (0,[])) ∧
      (3 ≤ argc.toInt → k.openIn = true → k.openOut = true → ∃ out : Bytes,v = .ok (0,out) ∧
        out.Sublist (input.map upper) ∧ (out = input.map upper ↔ Complete k 0 input)) := by
  by_cases hargc : argc.toInt < 3
  · refine ⟨.ok (1,[]),?_,fun _ => rfl,by omega,by omega,by omega⟩
    intro rsi rcx r8 count bl
    exact .next (by rw [start,block,if_pos hargc]) (.ret rfl)
  have hmain : ∀ s,block argc k (.main,s) = .inl (.open_fd_in,s) := fun s => if_neg hargc
  cases hin : k.openIn with
  | false =>
    refine ⟨.error .undefined,?_,by omega,fun _ _ => rfl,by simp,by simp⟩
    intro rsi rcx r8 count bl
    exact .next (hmain _) (.ret (by rw [block,hin]; rfl))
  | true =>
    have hopened : ∀ s,block argc k (.open_fd_in,s) = .inl (.open_fd_out,s) := fun s => if_pos hin
    cases hout : k.openOut with
    | false =>
      refine ⟨.ok (0,[]),?_,by omega,by simp,fun _ _ _ => rfl,by simp⟩
      intro rsi rcx r8 count bl
      refine .next (hmain _) (.next (hopened _) (.next (by rw [block,hout]; rfl) (.ret rfl)))
    | true =>
      obtain ⟨out,hsub,hiff,hrun⟩ := rounds argc k 0 input
      refine ⟨.ok (0,out),?_,by omega,by simp,by simp,fun _ _ _ => ⟨out,rfl,hsub,hiff⟩⟩
      intro rsi rcx r8 count bl
      refine .next (hmain _) (.next (hopened _) (.next (if_pos hout) ?_))
      have hcopy := hrun ⟨rsi,rcx,r8,bl,count,List.replicate BUFFER_SIZE 0,input,[],0⟩
        List.length_replicate rfl rfl
      simpa using hcopy

end GasUpper
end RecycleBin
