import RecycleBin.Bytes

/-!
# A selection sort on bytes

`ss.c`: elements of any size in an array of bytes, compared by a function of the caller and
exchanged byte by byte. The counters are of type `int`, the number of elements of `size_t`.
-/

namespace RecycleBin
namespace Ss

open Bytes

variable (cmp : List UInt8 → List UInt8 → Bool) (elemSize : ℕ)

/-! ## The code -/

/-- `swap`: the bytes at `a` and those at `b` change places, one after the other. -/
def swap (mem : List UInt8) (a b : ℕ) : ℕ → Except Fault (List UInt8)
  | 0 => .ok mem
  | n+1 => do
    let t ← readAt mem a 1
    let u ← readAt mem b 1
    let mem ← writeAt mem a u
    let mem ← writeAt mem b t
    swap mem (a+1) (b+1) n

/-- `k * elem_size`, an `int`. -/
def offset (k : ℕ) : Except Fault ℕ :=
  if k*elemSize < 2^31 then .ok (k*elemSize) else .error .undefined

/-- What `cmp` reads behind the pointer to element `k`. -/
def element (mem : List UInt8) (k : ℕ) : Except Fault (List UInt8) := do
  let p ← offset elemSize k
  readAt mem p elemSize

/-- The inner loop, with the passes that are left. -/
def select (mem : List UInt8) : ℕ → ℕ → ℕ → Except Fault ℕ
  | 0,_,k => .ok k
  | passes+1,j,k => do
    let x ← element elemSize mem k
    let y ← element elemSize mem j
    select mem passes (j+1) (if cmp x y then j else k)

/-- The outer loop, with the passes that are left. -/
def rounds (n : ℕ) : ℕ → ℕ → List UInt8 → Except Fault (List UInt8)
  | 0,_,mem => .ok mem
  | passes+1,i,mem => do
    -- `i + 1` overflows
    if 2^31 ≤ i+1 then .error .undefined
    let k ← select cmp elemSize mem (n-(i+1)) (i+1) i
    if k = i then rounds n passes (i+1) mem
    else do
      let a ← offset elemSize k
      let b ← offset elemSize i
      let mem ← swap mem a b elemSize
      rounds n passes (i+1) mem

/-- `ss`; the bound `n - 1` of its outer loop wraps for an empty array. -/
def ss (n : ℕ) (mem : List UInt8) : Except Fault (List UInt8) :=
  rounds cmp elemSize n ((n+2^64-1)%2^64) 0 mem

/-- The number in a little-endian field. -/
def number : List UInt8 → ℤ
  | [] => 0
  | [b] => b.toBitVec.toInt
  | b::bs => b.toNat+256*number bs

/-- `cmp_char`, `cmp_short` and `cmp_int`, each on fields of its own width. -/
def cmpNumber (x y : List UInt8) : Bool := number y < number x

/-! ## Blocks of bytes -/

theorem swap_eq (x : List UInt8) : ∀ (pre mid y post : List UInt8),y.length = x.length →
    swap (pre++x++mid++y++post) (pre.length+x.length+mid.length) pre.length x.length =
      .ok (pre++y++mid++x++post) := by
  induction x with
  | nil =>
    intro pre mid y post h
    obtain rfl := List.length_eq_zero_iff.mp h
    rfl
  | cons c x ih =>
    intro pre mid y post h
    obtain ⟨d,y,rfl⟩ : ∃ d y',y = d::y' := List.exists_cons_of_length_eq_add_one h
    have hmem : pre++c::x++mid++d::y++post = (pre++c::(x++mid))++[d]++(y++post) := by simp
    have ha : pre.length+(c::x).length+mid.length = (pre++c::(x++mid)).length := by
      simp only [List.length_append,List.length_cons]
      omega
    have hload : readAt (pre++c::x++mid++d::y++post)
        (pre.length+(c::x).length+mid.length) 1 = .ok [d] := by
      rw [hmem]
      exact readAt_append ha rfl
    have hload' : readAt (pre++c::x++mid++d::y++post) pre.length 1 = .ok [c] := by
      have hsplit : pre++c::x++mid++d::y++post = pre++[c]++(x++mid++d::y++post) := by simp
      rw [hsplit]
      exact readAt_append rfl rfl
    have hstore : writeAt (pre++c::x++mid++d::y++post)
        (pre.length+(c::x).length+mid.length) [c] =
          .ok (pre++c::(x++mid++c::y++post)) := by
      have hw : writeAt ((pre++c::(x++mid))++[d]++(y++post))
          (pre.length+(c::x).length+mid.length) [c] =
            .ok ((pre++c::(x++mid))++[c]++(y++post)) := writeAt_append ha rfl
      rw [hmem,hw]
      simp
    rw [List.length_cons] at hload hstore ⊢
    rw [swap,hload,ok_bind,hload',ok_bind,hstore,ok_bind,writeAt_cons rfl,ok_bind]
    have hrest := ih (pre++[d]) (mid++[c]) y post (Nat.succ.inj h)
    have hpre : (pre++[d]).length = pre.length+1 := by simp
    have hmid : (mid++[c]).length = mid.length+1 := by simp
    rw [hpre,hmid] at hrest
    have hat : pre.length+(x.length+1)+mid.length+1 = pre.length+1+x.length+(mid.length+1) := by
      omega
    rw [hat]
    simpa using hrest

section Elements
variable {cmp elemSize} {es : List (List UInt8)}

theorem flatten_length (h : ∀ e ∈ es,e.length = elemSize) :
    es.flatten.length = es.length*elemSize := by
  induction es with
  | nil => simp
  | cons e es ih =>
    rw [List.flatten_cons,List.length_append,ih fun e he => h e (List.mem_cons_of_mem _ he),
      h e List.mem_cons_self,List.length_cons,Nat.add_mul]
    omega

/-- The array holds its elements one behind the other, and its size is an `int`. -/
structure Fits (elemSize : ℕ) (es : List (List UInt8)) : Prop where
  same : ∀ e ∈ es,e.length = elemSize
  pos : 0 < elemSize
  small : es.length*elemSize < 2^31

theorem Fits.offset_lt (h : Fits elemSize es) {k : ℕ} (hk : k < es.length) :
    k*elemSize < 2^31 := by
  have hle : k*elemSize ≤ es.length*elemSize := Nat.mul_le_mul_right _ hk.le
  have hsmall := h.small
  omega

theorem Fits.length_lt (h : Fits elemSize es) : es.length < 2^31 := by
  have hle : es.length*1 ≤ es.length*elemSize := Nat.mul_le_mul_left _ h.pos
  have hsmall := h.small
  omega

theorem element_eq (h : Fits elemSize es) {k : ℕ} {x : List UInt8} (hx : es[k]? = some x) :
    element elemSize es.flatten k = .ok x := by
  obtain ⟨hk,rfl⟩ := List.getElem?_eq_some_iff.mp hx
  have hlt := h.offset_lt hk
  rw [element,offset,if_pos hlt,ok_bind]
  have hsplit : es.flatten = (es.take k).flatten++es[k]++(es.drop (k+1)).flatten := by
    conv_lhs => rw [← List.take_append_drop k es,List.drop_eq_getElem_cons hk,
      List.flatten_append,List.flatten_cons]
    rw [List.append_assoc]
  have hlen : k*elemSize = (es.take k).flatten.length := by
    rw [flatten_length fun e he => h.same e (List.mem_of_mem_take he),List.length_take,
      min_eq_left hk.le]
  rw [hsplit]
  exact readAt_append hlen (h.same _ (List.getElem_mem hk)).symm

/-- `cmp` tells which of two elements is greater. -/
structure Strict (cmp : List UInt8 → List UInt8 → Bool) : Prop where
  irrefl : ∀ x,cmp x x = false
  trans : ∀ x y z,cmp x y = true → cmp y z = true → cmp x z = true

theorem cmpNumber_strict : Strict cmpNumber where
  irrefl x := by simp [cmpNumber]
  trans x y z hxy hyz := by
    simp only [cmpNumber,decide_eq_true_eq] at *
    exact hyz.trans hxy

/-- The inner loop finds an element that is greater than none it has met. -/
theorem select_ok (h : Fits elemSize es) (passes : ℕ) : ∀ {j k : ℕ} {x : List UInt8},
    es[k]? = some x → j+passes ≤ es.length →
    ∃ k' x',select cmp elemSize es.flatten passes j k = .ok k' ∧ es[k']? = some x' ∧
      (k' = k ∨ j ≤ k') ∧ (Strict cmp → (∀ e,cmp x e = false → cmp x' e = false) ∧
        ∀ m e,j ≤ m → m < j+passes → es[m]? = some e → cmp x' e = false) := by
  induction passes with
  | zero =>
    intro j k x hx _
    exact ⟨k,x,rfl,hx,.inl rfl,fun _ => ⟨fun _ h => h,fun m e h₁ h₂ => by omega⟩⟩
  | succ passes ih =>
    intro j k x hx hj
    obtain ⟨y,hy⟩ : ∃ y,es[j]? = some y := ⟨_,List.getElem?_eq_getElem (by omega)⟩
    rw [select,element_eq h hx,ok_bind,element_eq h hy,ok_bind]
    by_cases hc : cmp x y = true
    · rw [if_pos hc]
      obtain ⟨k',x',hsel,hx',hle,hbest⟩ := ih hy (j := j+1) (by omega)
      refine ⟨k',x',hsel,hx',.inr (by omega),fun hs => ?_⟩
      obtain ⟨hworse,hmet⟩ := hbest hs
      constructor
      · intro e he
        refine hworse e ?_
        by_contra hye
        rw [hs.trans x y e hc (by simpa using hye)] at he
        cases he
      · intro m e hm hlt hem
        rcases hm.eq_or_lt with rfl | hm
        · rw [hy] at hem
          cases hem
          exact hworse y (hs.irrefl y)
        · exact hmet m e hm (by omega) hem
    · rw [if_neg hc]
      obtain ⟨k',x',hsel,hx',hle,hbest⟩ := ih hx (j := j+1) (by omega)
      refine ⟨k',x',hsel,hx',by omega,fun hs => ?_⟩
      obtain ⟨hworse,hmet⟩ := hbest hs
      refine ⟨hworse,fun m e hm hlt hem => ?_⟩
      rcases hm.eq_or_lt with rfl | hm
      · rw [hy] at hem
        cases hem
        exact hworse y (by simpa using hc)
      · exact hmet m e hm (by omega) hem

theorem split_at {α : Type*} {l : List α} {i k : ℕ} {x y : α} (hik : i < k)
    (hx : l[i]? = some x) (hy : l[k]? = some y) :
    ∃ front mid back,l = front++x::(mid++y::back) ∧ front.length = i ∧
      front.length+1+mid.length = k := by
  obtain ⟨hi,rfl⟩ := List.getElem?_eq_some_iff.mp hx
  obtain ⟨hk,rfl⟩ := List.getElem?_eq_some_iff.mp hy
  have hrest := List.take_append_drop (k-(i+1)) (l.drop (i+1))
  rw [List.drop_drop,Nat.add_sub_cancel' hik,List.drop_eq_getElem_cons hk] at hrest
  refine ⟨l.take i,(l.drop (i+1)).take (k-(i+1)),l.drop (k+1),?_,?_,?_⟩
  · rw [hrest,← List.drop_eq_getElem_cons hi,List.take_append_drop]
  · simp
    omega
  · simp
    omega

/-- Two elements of the array change places. -/
theorem swap_elements (h : Fits elemSize es) {i k : ℕ} {x y : List UInt8} (hik : i < k)
    (hx : es[i]? = some x) (hy : es[k]? = some y) :
    swap es.flatten (k*elemSize) (i*elemSize) elemSize =
      .ok ((es.set i y).set k x).flatten := by
  obtain ⟨front,mid,back,rfl,hi,hk⟩ := split_at hik hx hy
  have hfront : i*elemSize = front.flatten.length := by
    rw [flatten_length fun e he => h.same e (by simp [he]),hi]
  have hmid : mid.flatten.length = mid.length*elemSize :=
    flatten_length fun e he => h.same e (by simp [he])
  have hlx : x.length = elemSize := h.same x (by simp)
  have hly : y.length = elemSize := h.same y (by simp)
  have hback : k*elemSize = front.flatten.length+x.length+mid.flatten.length := by
    rw [← hfront,hlx,hmid,← hk,hi]
    ring
  have hswap := swap_eq x front.flatten mid.flatten y back.flatten (hly.trans hlx.symm)
  rw [← hback,← hfront,hlx] at hswap
  have hset : ((front++x::(mid++y::back)).set i y).set k x = front++y::(mid++x::back) := by
    subst hi hk
    simp [Nat.add_assoc,Nat.add_comm 1]
  rw [hset]
  simpa using hswap

/-! ## The outer loop -/

/-- The first `i` elements are greater than none behind them. -/
def Placed (cmp : List UInt8 → List UInt8 → Bool) (es : List (List UInt8)) (i : ℕ) : Prop :=
  ∀ a b x y,a < i → a < b → es[a]? = some x → es[b]? = some y → cmp x y = false

theorem Fits.perm (h : Fits elemSize es) {es' : List (List UInt8)} (hp : es'.Perm es) :
    Fits elemSize es' where
  same e he := h.same e (hp.mem_iff.mp he)
  pos := h.pos
  small := by rw [hp.length_eq]; exact h.small

theorem Placed.keep {i : ℕ} {x : List UInt8} (hp : Placed cmp es i) (hx : es[i]? = some x)
    (hbest : ∀ m e,i < m → es[m]? = some e → cmp x e = false) : Placed cmp es (i+1) := by
  intro a b u v ha hab hu hv
  rcases (Nat.lt_succ_iff.mp ha).eq_or_lt with rfl | ha
  · rw [hx] at hu
    cases hu
    exact hbest b v hab hv
  · exact hp a b u v ha hab hu hv

theorem Placed.swap {i k : ℕ} {x y : List UInt8} (hp : Placed cmp es i) (hik : i < k)
    (hx : es[i]? = some x) (hy : es[k]? = some y) (hyx : cmp y x = false)
    (hbest : ∀ m e,i < m → es[m]? = some e → cmp y e = false) :
    Placed cmp ((es.set i y).set k x) (i+1) := by
  have hi : i < es.length := (List.getElem?_eq_some_iff.mp hx).1
  have hk : k < es.length := (List.getElem?_eq_some_iff.mp hy).1
  have hat : ∀ m,((es.set i y).set k x)[m]? =
      if m = k then some x else if m = i then some y else es[m]? := by
    intro m
    simp only [List.getElem?_set,List.length_set]
    split_ifs <;> grind
  refine Placed.keep (x := y) ?_ ?_ ?_
  · intro a b u v ha hab hu hv
    rw [hat,if_neg (by omega),if_neg ha.ne] at hu
    rw [hat] at hv
    split_ifs at hv with hbk hbi
    · cases hv
      exact hp a i u x ha ha hu hx
    · cases hv
      exact hp a k u y ha (by omega) hu hy
    · exact hp a b u v ha hab hu hv
  · rw [hat,if_neg hik.ne,if_pos rfl]
  · intro m e hm he
    rw [hat] at he
    split_ifs at he with hmk hmi
    · cases he
      exact hyx
    · omega
    · exact hbest m e hm he

theorem rounds_ok (passes : ℕ) : ∀ {i : ℕ} {es : List (List UInt8)},Fits elemSize es →
    i+passes+1 = es.length →
    ∃ res,rounds cmp elemSize es.length passes i es.flatten = .ok res.flatten ∧ res.Perm es ∧
      (Strict cmp → Placed cmp es i → Placed cmp res (i+passes)) := by
  induction passes with
  | zero => exact fun {_ es} _ _ => ⟨es,rfl,.refl es,fun _ h => h⟩
  | succ passes ih =>
    intro i es h hn
    have hlt := h.length_lt
    obtain ⟨x,hx⟩ : ∃ x,es[i]? = some x := ⟨_,List.getElem?_eq_getElem (by omega)⟩
    obtain ⟨k,y,hsel,hy,hle,hbest⟩ := @select_ok cmp _ _ h (es.length-(i+1)) (i+1) i x hx (by omega)
    have hmet : Strict cmp → ∀ m e,i < m → es[m]? = some e → cmp y e = false := by
      intro hs m e hm he
      have hml := (List.getElem?_eq_some_iff.mp he).1
      exact (hbest hs).2 m e hm (by omega) he
    rw [rounds,if_neg (by omega),hsel,ok_bind]
    by_cases hki : k = i
    · subst hki
      rw [if_pos rfl]
      obtain ⟨res,hres,hperm,hplaced⟩ := ih h (i := k+1) (by omega)
      refine ⟨res,hres,hperm,fun hs hp => ?_⟩
      have hnext := hplaced hs (hp.keep hy (hmet hs))
      rwa [show k+1+passes = k+(passes+1) by omega] at hnext
    · have hik : i < k := by omega
      have hk := (List.getElem?_eq_some_iff.mp hy).1
      rw [if_neg hki,offset,if_pos (h.offset_lt hk),ok_bind,offset,
        if_pos (h.offset_lt (hik.trans hk)),ok_bind,swap_elements h hik hx hy,ok_bind]
      have hset : ((es.set i y).set k x).Perm es := by
        obtain ⟨hi,rfl⟩ := List.getElem?_eq_some_iff.mp hx
        obtain ⟨hk,rfl⟩ := List.getElem?_eq_some_iff.mp hy
        exact List.set_set_perm hi hk
      have hlen : ((es.set i y).set k x).length = es.length := by simp
      obtain ⟨res,hres,hperm,hplaced⟩ := ih (h.perm hset) (i := i+1) (by omega)
      rw [hlen] at hres
      refine ⟨res,hres,hperm.trans hset,fun hs hp => ?_⟩
      have hnext := hplaced hs
        (hp.swap hik hx hy ((hbest hs).1 x (hs.irrefl x)) (hmet hs))
      rwa [show i+1+passes = i+(passes+1) by omega] at hnext

/-- Without an element the outer loop ends only by its counter's overflow. -/
theorem rounds_nothing (passes : ℕ) : ∀ {i : ℕ} {mem : List UInt8},2^31 ≤ i+passes →
    i < 2^31 → rounds cmp elemSize 0 passes i mem = .error .undefined := by
  induction passes with
  | zero => intro i mem h hi; omega
  | succ passes ih =>
    intro i mem h hi
    rw [rounds]
    by_cases hlast : 2^31 ≤ i+1
    · rw [if_pos hlast]
      rfl
    · have hsel : select cmp elemSize mem (0-(i+1)) (i+1) i = .ok i := by rw [Nat.zero_sub]; rfl
      rw [if_neg hlast,hsel,ok_bind,if_pos rfl]
      exact ih (by omega) (by omega)

end Elements

/-- The elements that fit are put in order, none of them lost, and no byte outside the array is
touched; an empty array is the one exception, where the loop's bound wraps. -/
theorem ss_sorts (cmp : List UInt8 → List UInt8 → Bool) {elemSize : ℕ} {es : List (List UInt8)}
    (h : Fits elemSize es) :
    (es = [] → ss cmp elemSize es.length es.flatten = .error .undefined) ∧
      (es ≠ [] → ∃ res : List (List UInt8),
        ss cmp elemSize es.length es.flatten = .ok res.flatten ∧ res.Perm es ∧
          (Strict cmp → res.Pairwise fun x y => cmp x y = false)) := by
  constructor
  · rintro rfl
    exact rounds_nothing _ (by decide) (by decide)
  · intro hne
    have hpos := List.length_pos_iff.mpr hne
    have hlt := h.length_lt
    have hwrap : (es.length+2^64-1)%2^64 = es.length-1 := by omega
    obtain ⟨res,hres,hperm,hplaced⟩ := @rounds_ok cmp _ (es.length-1) 0 es h (by omega)
    refine ⟨res,by rw [ss,hwrap,hres],hperm,fun hs => ?_⟩
    have hall := hplaced hs fun a b x y ha => absurd ha (Nat.not_lt_zero a)
    rw [List.pairwise_iff_getElem]
    intro a b ha hb hab
    have hl := hperm.length_eq
    exact hall a b _ _ (by omega) hab (List.getElem?_eq_getElem ha) (List.getElem?_eq_getElem hb)

/-- Three `short`s, one of them negative. -/
theorem ss_sorts_shorts : ∃ res : List (List UInt8),
    ss cmpNumber 2 3 [2,1,255,255,7,0] = .ok res.flatten ∧ res.Perm [[2,1],[255,255],[7,0]] ∧
      res.Pairwise fun x y => cmpNumber x y = false := by
  have hfits : Fits 2 [[2,1],[255,255],[7,0]] := ⟨by decide,by decide,by decide⟩
  obtain ⟨res,hres,hperm,horder⟩ := (ss_sorts cmpNumber hfits).2 (by decide)
  exact ⟨res,hres,hperm,horder cmpNumber_strict⟩

example : ss cmpNumber 2 3 [2,1,255,255,7,0] = .ok [255,255,7,0,2,1] := by decide

end Ss
end RecycleBin
