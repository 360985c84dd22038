import RecycleBin.AntBuf

/-!
# A stack of pointers

`1_2.c` of the stack exercises. A pointer is its address, `NULL` is 0; the cleanup
function is used by `stack_free` only and is left out.
-/

namespace RecycleBin
namespace PointerStack

open AntBuf (int)

/-- `sizeof(void *)` -/
def pointerSize : ℕ := 8

/-- An allocation and the pointers in it, none where nothing was stored. `NULL` has no
bytes. -/
structure Block where
  bytes : ℕ
  slots : List (Option ℕ)
  slots_length : slots.length = bytes/pointerSize
  deriving DecidableEq

/-- `malloc` of so many bytes, or `NULL`. -/
def malloc (granted : Bool) (n : ℕ) : Block :=
  if granted then ⟨n,List.replicate (n/pointerSize) none,List.length_replicate⟩
  else ⟨0,[],rfl⟩

/-- A block of `n` bytes with what it can keep of `b`. -/
def Block.realloc (b : Block) (n : ℕ) : Block where
  bytes := n
  slots := b.slots.take (n/pointerSize)++List.replicate (n/pointerSize-b.slots.length) none
  slots_length := by
    rw [List.length_append,List.length_take,List.length_replicate]
    omega

/-- `s[i] = v` -/
def Block.store (b : Block) (i v : ℕ) : Except Fault Block :=
  if i < b.slots.length then
    .ok ⟨b.bytes,b.slots.set i (some v),by rw [List.length_set,b.slots_length]⟩
  else .error .undefined

/-- `s[i]` -/
def Block.load (b : Block) (i : ℕ) : Except Fault ℕ :=
  match b.slots[i]? with
  | some (some v) => .ok v
  | some none | none => .error .undefined

/-- `my_stack_t` -/
structure MyStack where
  s : Block
  use : ℕ
  size : ℕ
  deriving DecidableEq

/-- `DEFAULT_N` -/
def defaultN : ℕ := 100

/-- `stack_init`, which does not look at what `malloc` returns. -/
def stack_init (granted : Bool) : MyStack :=
  ⟨malloc granted (pointerSize*defaultN),0,defaultN⟩

/-- `s->s[s->use++] = v` -/
def MyStack.put (s : MyStack) (v : ℕ) : Except Fault MyStack := do
  let b ← s.s.store s.use v
  .ok ⟨b,s.use+1,s.size⟩

/-- `stack_push`: whether 0 is returned. `realloc` is asked for `size * 2` bytes. -/
def stack_push (grants : ℕ → Bool) (s : MyStack) (v : ℕ) : Except Fault (Bool × MyStack) :=
  if s.use = s.size then do
    let n ← int (s.size*2)
    if grants n then do
      let s ← MyStack.put ⟨s.s.realloc n,s.use,n⟩ v
      .ok (true,s)
    else .ok (false,s)
  else do
    let s ← s.put v
    .ok (true,s)

/-- `stack_pop` -/
def stack_pop (s : MyStack) : Except Fault (ℕ × MyStack) :=
  if s.use = 0 then .ok (0,s)
  else do
    let v ← s.s.load (s.use-1)
    .ok (v,{ s with use := s.use-1 })

/-- `stack_top` -/
def stack_top (s : MyStack) : Except Fault ℕ :=
  if s.use = 0 then .ok 0 else s.s.load (s.use-1)

/-- `stack_len` -/
def stack_len (s : MyStack) : ℕ :=
  s.use

/-! ## Runs -/

/-- The calls after `stack_init`. -/
inductive Op
  | push (v : ℕ) | pop | top | len
  deriving DecidableEq

/-- What a call returns. -/
inductive Res
  | status (ok : Bool) | pointer (v : ℕ) | length (n : ℕ)
  deriving DecidableEq

/-- One call on the stack of the code. -/
def exec (grants : ℕ → Bool) : Op → MyStack → Except Fault (Res × MyStack)
  | .push v,s => do
    let r ← stack_push grants s v
    .ok (.status r.1,r.2)
  | .pop,s => do
    let r ← stack_pop s
    .ok (.pointer r.1,r.2)
  | .top,s => do
    let v ← stack_top s
    .ok (.pointer v,s)
  | .len,s => .ok (.length (stack_len s),s)

/-- One call on a list, the last pointer pushed first. -/
def spec : Op → List ℕ → Res × List ℕ
  | .push v,a => (.status true,v::a)
  | .pop,a => (.pointer (a.headD 0),a.tail)
  | .top,a => (.pointer (a.headD 0),a)
  | .len,a => (.length a.length,a)

/-- In every state of the run the results are those of the list, and the block has room for
`size` pointers. An access outside of it returns no result. -/
def LifoFrom (grants : ℕ → Bool) (ops : List Op) (s : MyStack) (a : List ℕ) : Prop :=
  ∀ pre,pre <+: ops → ∃ s',runs (exec grants) pre s = .ok ((replay spec pre a).1,s') ∧
    s'.size*pointerSize ≤ s'.s.bytes

/-- The calls after `stack_init` behave as a list, inside the bytes that are allocated. -/
def Lifo (granted : Bool) (grants : ℕ → Bool) (ops : List Op) : Prop :=
  LifoFrom grants ops (stack_init granted) []

/-- The call does not push onto a stack of 100 pointers. -/
def Small (op : Op) (a : List ℕ) : Prop :=
  ∀ v,op = .push v → a.length ≠ defaultN

/-! ## The first block -/

/-- The stack is the list, in the block of `stack_init`. -/
structure Holds (s : MyStack) (a : List ℕ) : Prop where
  use_eq : s.use = a.length
  size_eq : s.size = defaultN
  bytes_eq : s.s.bytes = pointerSize*defaultN
  le_size : a.length ≤ defaultN
  slots : s.s.slots.take a.length = a.reverse.map some

namespace Holds

variable {s : MyStack} {a : List ℕ} {v : ℕ} {grants : ℕ → Bool}

theorem slots_length (h : Holds s a) : s.s.slots.length = defaultN := by
  rw [s.s.slots_length,h.bytes_eq]
  rfl

/-- The pointer on top. -/
theorem load_top (h : Holds s (v::a)) : s.s.load (s.use-1) = .ok v := by
  have huse : s.use-1 = a.length := by
    rw [h.use_eq,List.length_cons,Nat.add_sub_cancel]
  have hread : (s.s.slots.take (a.length+1))[a.length]? = some (some v) := by
    have hslots := h.slots
    rw [List.length_cons] at hslots
    rw [hslots,List.reverse_cons,List.map_append,List.getElem?_append_right (by simp)]
    simp
  rw [List.getElem?_take_of_succ] at hread
  rw [Block.load,huse,hread]

theorem put (h : Holds s a) (hlt : a.length < defaultN) :
    ∃ s',s.put v = .ok s' ∧ Holds s' (v::a) := by
  have hroom : s.use < s.s.slots.length := by rw [h.use_eq,h.slots_length]; exact hlt
  refine ⟨_,by rw [MyStack.put,Block.store,if_pos hroom]; rfl,?_⟩
  refine ⟨?_,h.size_eq,h.bytes_eq,hlt,?_⟩
  · simp only [h.use_eq,List.length_cons]
  · have hslots := h.slots
    have hlen := h.slots_length
    simp only [h.use_eq,List.length_cons,List.reverse_cons,List.map_append]
    rw [List.take_add_one,List.take_set_of_le le_rfl,hslots]
    simp [hlen,hlt]

theorem take_pop (h : Holds s (v::a)) : s.s.slots.take a.length = a.reverse.map some := by
  have hcut : s.s.slots.take a.length = (s.s.slots.take (v::a).length).take a.length := by
    rw [List.take_take,List.length_cons,Nat.min_eq_left (Nat.le_succ _)]
  rw [hcut,h.slots,List.reverse_cons,List.map_append]
  exact List.take_left' (by rw [List.length_map,List.length_reverse])

theorem push (h : Holds s a) (hlt : a.length < defaultN) :
    ∃ s',stack_push grants s v = .ok (true,s') ∧ Holds s' (v::a) := by
  obtain ⟨s',hput,hs'⟩ := h.put (v := v) hlt
  refine ⟨s',?_,hs'⟩
  rw [stack_push,if_neg (by rw [h.use_eq,h.size_eq]; omega),hput]
  rfl

theorem pop (h : Holds s a) : ∃ s',stack_pop s = .ok (a.headD 0,s') ∧ Holds s' a.tail := by
  cases a with
  | nil => exact ⟨s,if_pos h.use_eq,h⟩
  | cons v a =>
    have hne : s.use ≠ 0 := by rw [h.use_eq]; exact Nat.succ_ne_zero _
    refine ⟨{ s with use := s.use-1 },?_,?_,h.size_eq,h.bytes_eq,(Nat.le_succ _).trans h.le_size,
      h.take_pop⟩
    · rw [stack_pop,if_neg hne,h.load_top]
      rfl
    · rw [h.use_eq,List.length_cons,Nat.add_sub_cancel,List.tail_cons]

theorem top (h : Holds s a) : stack_top s = .ok (a.headD 0) := by
  cases a with
  | nil => exact if_pos h.use_eq
  | cons v a =>
    have hne : s.use ≠ 0 := by rw [h.use_eq]; exact Nat.succ_ne_zero _
    rw [stack_top,if_neg hne,h.load_top]
    rfl

theorem room (h : Holds s a) : s.size*pointerSize ≤ s.s.bytes := by
  rw [h.size_eq,h.bytes_eq,Nat.mul_comm]

end Holds

/-- A call that does not push onto 100 pointers is one on the list. -/
theorem exec_refines (grants : ℕ → Bool) : Refines (exec grants) spec Small Holds := by
  intro op s a h hsmall
  cases op with
  | push v =>
    have hlt : a.length < defaultN := lt_of_le_of_ne h.le_size (hsmall v rfl)
    obtain ⟨s',hpush,hs'⟩ : ∃ s',stack_push grants _ v = .ok (true,s') ∧ Holds s' (v::a) :=
      h.push hlt
    exact ⟨s',by rw [exec,hpush]; rfl,hs'⟩
  | pop =>
    obtain ⟨s',hpop,hs'⟩ := h.pop
    exact ⟨s',by rw [exec,hpop]; rfl,hs'⟩
  | top => exact ⟨s,by rw [exec,h.top]; rfl,h⟩
  | len => exact ⟨s,by rw [exec,stack_len,h.use_eq]; rfl,h⟩

/-- A push onto 100 pointers shrinks the block to 200 bytes, and stores behind it. -/
theorem exec_full {grants : ℕ → Bool} (hgrants : ∀ n,n < 2^31 → grants n = true) {s : MyStack}
    {a : List ℕ} (h : Holds s a) (hfull : a.length = defaultN) (v : ℕ) :
    exec grants (.push v) s = .error .undefined := by
  have hint : int (s.size*2) = .ok 200 := by
    rw [h.size_eq]
    rfl
  have hput : MyStack.put ⟨s.s.realloc 200,s.use,200⟩ v = .error .undefined := by
    have hlen : (s.s.realloc 200).slots.length = 25 :=
      (s.s.realloc 200).slots_length.trans (show 200/8 = 25 by decide)
    rw [MyStack.put,Block.store,if_neg]
    · rfl
    · rw [hlen,h.use_eq,hfull]
      decide
  rw [exec,stack_push,if_pos (by rw [h.use_eq,h.size_eq,hfull]),hint]
  simp only [ok_bind,hgrants 200 (by decide),if_true,hput,error_bind]

/-- From a state of the first block, a run is one of the list as long as no call pushes
onto 100 pointers, and no longer. -/
theorem lifoFrom_iff {grants : ℕ → Bool} (hgrants : ∀ n,n < 2^31 → grants n = true)
    (ops : List Op) {s : MyStack} {a : List ℕ} (h : Holds s a) :
    LifoFrom grants ops s a ↔ LegalRun Small spec ops a := by
  constructor
  · intro hlifo
    induction ops generalizing s a with
    | nil => trivial
    | cons op ops ih =>
      have hsmall : Small op a := by
        rintro v rfl hfull
        obtain ⟨s',hrun,-⟩ := hlifo [.push v] (by simp)
        rw [runs_cons,exec_full hgrants h hfull v] at hrun
        cases hrun
      obtain ⟨s₁,h₁,hs₁⟩ := exec_refines grants op s a h hsmall
      refine ⟨hsmall,ih hs₁ fun pre hpre => ?_⟩
      obtain ⟨s',hrun,hroom⟩ := hlifo (op::pre) (List.cons_prefix_cons.mpr ⟨rfl,hpre⟩)
      obtain ⟨r,s₂,rs,h₂,hrest,heq⟩ := runs_cons_eq_ok.mp hrun
      obtain ⟨rfl,rfl⟩ := Prod.mk.inj (Except.ok.inj (h₁.symm.trans h₂))
      exact ⟨s',by rw [hrest,← (List.cons_eq_cons.mp heq).2],hroom⟩
  · intro hlegal pre hpre
    obtain ⟨rest,rfl⟩ := hpre
    obtain ⟨s',hrun,hs'⟩ := (exec_refines grants).runs pre s a h
      ((legalRun_append pre rest a).mp hlegal).1
    exact ⟨s',hrun,hs'.room⟩

theorem stack_init_holds : Holds (stack_init true) [] :=
  ⟨rfl,rfl,rfl,Nat.zero_le _,rfl⟩

/-- Where `malloc` has failed there are no bytes at all. -/
theorem not_lifo_null (grants : ℕ → Bool) (ops : List Op) : ¬Lifo false grants ops := by
  intro h
  obtain ⟨s',hrun,hroom⟩ := h [] List.nil_prefix
  cases hrun
  exact absurd hroom (by decide)

/-- With memory to be had for every `realloc`, the stack is a list inside its bytes in the
runs whose first block is there and that never push onto 100 pointers. -/
theorem lifo_iff (granted : Bool) (grants : ℕ → Bool)
    (hgrants : ∀ n,n < 2^31 → grants n = true) (ops : List Op) :
    Lifo granted grants ops ↔ granted = true ∧ LegalRun Small spec ops [] := by
  cases granted with
  | false =>
    refine iff_of_false (not_lifo_null grants ops) ?_
    rintro ⟨h,-⟩
    cases h
  | true =>
    rw [Lifo,lifoFrom_iff hgrants ops stack_init_holds]
    exact ⟨fun h => ⟨rfl,h⟩,And.right⟩

/-- A pointer pushed and popped. -/
theorem lifo_iff_push_pop : Lifo true (fun _ => true) [.push 1,.pop] ↔
    true = true ∧ LegalRun Small spec [.push 1,.pop] [] :=
  lifo_iff true (fun _ => true) (fun _ _ => rfl) [.push 1,.pop]

/-- The hundred and first push stores behind the block. -/
theorem not_lifo_pushes : ¬Lifo true (fun _ => true) (List.replicate 101 (.push 1)) := by
  intro h
  obtain ⟨s',hrun,-⟩ := h _ (List.prefix_refl _)
  have herr : runs (exec fun _ => true) (List.replicate 101 (.push 1)) (stack_init true) =
      .error .undefined := by decide +kernel
  rw [herr] at hrun
  cases hrun

end PointerStack
end RecycleBin
