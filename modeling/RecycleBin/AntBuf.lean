import RecycleBin.Refinement

/-! The growing buffer of `ant_buf.c`. An `int` that would overflow is undefined. -/
namespace RecycleBin
namespace AntBuf

abbrev Bytes := List UInt8

/-- The sizes `malloc` and `calloc` can serve; no object is larger than PTRDIFF_MAX. -/
structure Memory where
  grants : ℕ → Bool
  bounded : ∀ n, 2^63 ≤ n → grants n = false

/-- An allocator that never runs out. -/
def plenty : Memory := ⟨fun n => n < 2^63,fun _ h => decide_eq_false (Nat.not_lt_of_le h)⟩

theorem plenty_grants (n : ℕ) (h : n < 2^31) : plenty.grants n = true :=
  decide_eq_true (Nat.lt_trans h (by decide))

/-- A byte of an allocation: none where it was never written. -/
abbrev Cell := Option UInt8

/-- `ant_buf_t`; `buf` is none for NULL. -/
structure Buf where
  buf : Option (List Cell)
  length : ℕ
  ncurr : ℕ
  nmAlloc : ℕ
  deriving DecidableEq

/-- A value of an `int` computation on sizes. -/
def int (n : ℕ) : Except Fault ℕ := if n < 2^31 then .ok n else .error .undefined

/-- `ant_buf_new`. -/
def antBufNew (mem : Memory) (length : ℕ) : Buf where
  buf := if length = 0 ∨ mem.grants length = false then none else some (List.replicate length none)
  length := length
  ncurr := 0
  nmAlloc := 0

/-- `memcpy` of `size` cells to `off`. -/
def copyTo (m : List Cell) (off : ℕ) (cells : List Cell) : Except Fault (List Cell) :=
  if off+cells.length ≤ m.length then .ok (m.take off++cells++m.drop (off+cells.length))
  else .error .undefined

/-- The storage for `size` more bytes, where it could be had. -/
def reserve (mem : Memory) (b : Buf) (size : ℕ) : Except Fault (Bool × Buf) := do
  match b.buf with
  | some m =>
    if b.length ≠ 0 then
      let needed ← int (b.ncurr+size+1)
      if b.length < needed then
        let double ← int (2*b.length)
        let needed := max needed double
        if mem.grants needed then
          let m ← copyTo (List.replicate needed (some 0)) 0 (m.take b.ncurr)
          pure (true,⟨some m,needed,b.ncurr,(b.nmAlloc+1)%2^31⟩)
        else pure (false,b)
      else pure (true,b)
    else first
  | none => first
where
  /-- The first allocation. -/
  first : Except Fault (Bool × Buf) := do
    let length ← int (size+500)
    if mem.grants length then
      pure (true,⟨some (List.replicate length none),length,b.ncurr,1⟩)
    else pure (false,{ b with buf := none,length := length })

/-- `ant_buf_append`: whether it succeeds, and the buffer. -/
def antBufAppend (mem : Memory) (b : Buf) (elem : Bytes) : Except Fault (Bool × Buf) := do
  match ← reserve mem b elem.length with
  | (false,b) => pure (false,b)
  | (true,b) =>
    match b.buf with
    | none => .error .undefined
    | some m =>
      let m ← copyTo m b.ncurr (elem.map some)
      let ncurr ← int (b.ncurr+elem.length)
      pure (true,{ b with buf := some m,ncurr := ncurr })

/-! ### The content -/

/-- The bytes appended so far. -/
def Buf.content (b : Buf) : List Cell :=
  match b.buf with
  | none => []
  | some m => m.take b.ncurr

/-- The fields agree with the allocation. -/
structure Buf.Valid (b : Buf) : Prop where
  empty : b.buf = none → b.ncurr = 0
  fits : ∀ m, b.buf = some m → b.length = m.length ∧ b.length ≠ 0 ∧ b.ncurr ≤ m.length

theorem antBufNew_valid (mem : Memory) : (antBufNew mem 0).Valid :=
  ⟨fun _ => rfl,fun _ h => nomatch h⟩

theorem int_of_lt {n : ℕ} (h : n < 2^31) : int n = .ok n := if_pos h

theorem copyTo_of_le {m cells : List Cell} {off : ℕ} (h : off+cells.length ≤ m.length) :
    copyTo m off cells = .ok (m.take off++cells++m.drop (off+cells.length)) := if_pos h

theorem int_eq_ok {n k : ℕ} (h : int n = .ok k) : k = n := by
  rw [int] at h
  split_ifs at h
  cases h
  rfl

/-- How `reserve` goes on: the first allocation or its refusal, room that is there, or larger
storage, with zeros behind the content, or its refusal. -/
inductive Reserves (mem : Memory) (b : Buf) (size : ℕ) : Bool × Buf → Prop
  | first : b.buf = none → mem.grants (size+500) = true →
      Reserves mem b size (true,⟨some (List.replicate (size+500) none),size+500,b.ncurr,1⟩)
  | refused : b.buf = none → mem.grants (size+500) = false →
      Reserves mem b size (false,{ b with buf := none,length := size+500 })
  | fits (m : List Cell) : b.buf = some m → b.ncurr+size+1 ≤ b.length →
      Reserves mem b size (true,b)
  | grown (m : List Cell) (needed : ℕ) : b.buf = some m → b.length < b.ncurr+size+1 →
      needed = max (b.ncurr+size+1) (2*b.length) → mem.grants needed = true →
      Reserves mem b size (true,⟨some (m.take b.ncurr++List.replicate (needed-b.ncurr) (some 0)),
        needed,b.ncurr,(b.nmAlloc+1)%2^31⟩)
  | kept (m : List Cell) : b.buf = some m → b.length < b.ncurr+size+1 →
      mem.grants (max (b.ncurr+size+1) (2*b.length)) = false → Reserves mem b size (false,b)

section Reserve
variable {mem : Memory} {b : Buf} {size : ℕ}

/-- The content moves to the front of the zeroed storage. -/
theorem copyTo_zeros {m : List Cell} {needed : ℕ} (hcurr : b.ncurr ≤ m.length)
    (hle : b.ncurr ≤ needed) :
    copyTo (List.replicate needed (some 0)) 0 (m.take b.ncurr) =
      .ok (m.take b.ncurr++List.replicate (needed-b.ncurr) (some 0)) := by
  have hold : (m.take b.ncurr).length = b.ncurr := List.length_take_of_le hcurr
  rw [copyTo_of_le (by rw [hold,List.length_replicate]; omega),List.take_zero,List.nil_append,
    Nat.zero_add,hold,List.drop_replicate]

/-- On a valid buffer a `reserve` that returns goes on in one of these ways. -/
theorem reserve_ok (hv : b.Valid) {r : Bool × Buf} (h : reserve mem b size = .ok r) :
    Reserves mem b size r := by
  cases hbuf : b.buf with
  | none =>
    rw [reserve,hbuf] at h
    obtain ⟨length,hlen,h⟩ := bind_eq_ok.mp h
    rw [int_eq_ok hlen] at h
    split_ifs at h with hg
    · cases h
      exact .first hbuf hg
    · cases h
      exact .refused hbuf (Bool.eq_false_of_not_eq_true hg)
  | some m =>
    obtain ⟨-,hne,hcurr⟩ := hv.fits m hbuf
    rw [reserve,hbuf] at h
    simp only [if_pos hne] at h
    obtain ⟨needed,hneeded,h⟩ := bind_eq_ok.mp h
    rw [int_eq_ok hneeded] at h
    by_cases hfit : b.length < b.ncurr+size+1
    · rw [if_pos hfit] at h
      obtain ⟨double,hdouble,h⟩ := bind_eq_ok.mp h
      rw [int_eq_ok hdouble] at h
      have hle : b.ncurr ≤ max (b.ncurr+size+1) (2*b.length) := le_max_of_le_left (by omega)
      split_ifs at h with hg
      · rw [copyTo_zeros hcurr hle] at h
        cases h
        exact .grown m _ hbuf hfit rfl hg
      · cases h
        exact .kept m hbuf hfit (Bool.eq_false_of_not_eq_true hg)
    · rw [if_neg hfit] at h
      cases h
      exact .fits m hbuf (not_lt.mp hfit)

/-- Sizes below `2^30` do not overflow. -/
theorem reserve_returns (mem : Memory) (hv : b.Valid) (hs : b.ncurr+size < 2^30) :
    ∃ r,reserve mem b size = .ok r := by
  cases hbuf : b.buf with
  | none =>
    have hlen : size+500 < 2^31 := by omega
    rw [reserve,hbuf]
    simp only [reserve.first,int_of_lt hlen,ok_bind]
    split_ifs <;> exact ⟨_,rfl⟩
  | some m =>
    obtain ⟨-,hne,hcurr⟩ := hv.fits m hbuf
    have hneeded : b.ncurr+size+1 < 2^31 := by omega
    rw [reserve,hbuf]
    simp only [if_pos hne,int_of_lt hneeded,ok_bind]
    by_cases hfit : b.length < b.ncurr+size+1
    · have hdouble : 2*b.length < 2^31 := by omega
      have hle : b.ncurr ≤ max (b.ncurr+size+1) (2*b.length) := le_max_of_le_left (by omega)
      simp only [if_pos hfit,int_of_lt hdouble,ok_bind,copyTo_zeros hcurr hle]
      split_ifs <;> exact ⟨_,rfl⟩
    · rw [if_neg hfit]
      exact ⟨_,rfl⟩

/-- Where there is storage, there is room behind the same content. -/
theorem Reserves.room {r : Buf} (hv : b.Valid) (h : Reserves mem b size (true,r)) :
    r.ncurr = b.ncurr ∧ ∃ m,r.buf = some m ∧ r.length = m.length ∧ b.ncurr+size < m.length ∧
      m.take b.ncurr = b.content := by
  cases h with
  | first hbuf _ =>
    have hcurr := hv.empty hbuf
    refine ⟨rfl,_,rfl,List.length_replicate.symm,?_,?_⟩
    · rw [List.length_replicate]
      omega
    · rw [Buf.content,hbuf,hcurr,List.take_zero]
  | fits m hbuf hfit =>
    obtain ⟨hlen,-,-⟩ := hv.fits m hbuf
    exact ⟨rfl,m,hbuf,hlen,by omega,by rw [Buf.content,hbuf]⟩
  | grown m needed hbuf hfit hneeded _ =>
    obtain ⟨-,-,hcurr⟩ := hv.fits m hbuf
    have hold : (m.take b.ncurr).length = b.ncurr := List.length_take_of_le hcurr
    have hle : b.ncurr+size+1 ≤ needed := hneeded ▸ le_max_left _ _
    have hlen : (m.take b.ncurr++List.replicate (needed-b.ncurr) (some 0)).length = needed := by
      rw [List.length_append,hold,List.length_replicate]
      omega
    refine ⟨rfl,_,rfl,hlen.symm,by omega,?_⟩
    rw [List.take_left' hold,Buf.content,hbuf]

/-- A refused allocation leaves the content. -/
theorem Reserves.refuses {r : Buf} (hv : b.Valid) (h : Reserves mem b size (false,r)) :
    r.Valid ∧ r.buf = b.buf ∧ r.ncurr = b.ncurr ∧ r.nmAlloc = b.nmAlloc ∧
      (∀ m,b.buf = some m → r.length = b.length) := by
  cases h with
  | refused hbuf _ =>
    exact ⟨⟨fun _ => hv.empty hbuf,fun m hm => nomatch hm⟩,hbuf.symm,rfl,rfl,
      fun m hm => by rw [hbuf] at hm; cases hm⟩
  | kept m _ _ _ => exact ⟨hv,rfl,rfl,rfl,fun _ _ => rfl⟩

end Reserve

section Append
variable {mem : Memory} {b : Buf} {elem : Bytes}

/-- The storage with `elem` behind the first `n` cells. -/
def stored (m : List Cell) (n : ℕ) (elem : Bytes) : List Cell :=
  m.take n++elem.map some++m.drop (n+elem.length)

theorem stored_length {m : List Cell} {n : ℕ} (h : n+elem.length ≤ m.length) :
    (stored m n elem).length = m.length := by
  simp only [stored,List.length_append,List.length_take,List.length_map,List.length_drop]
  omega

theorem stored_take {m : List Cell} {n : ℕ} (h : n+elem.length ≤ m.length) :
    (stored m n elem).take (n+elem.length) = m.take n++elem.map some := by
  apply List.take_left'
  rw [List.length_append,List.length_take_of_le (by omega),List.length_map]

/-- An append that returns has reserved storage, or was refused it. -/
theorem antBufAppend_ok (hv : b.Valid) {r : Bool × Buf} (h : antBufAppend mem b elem = .ok r) :
    (r.1 = false ∧ Reserves mem b elem.length r) ∨
    ∃ b₁ m,Reserves mem b elem.length (true,b₁) ∧ b₁.buf = some m ∧ b₁.length = m.length ∧
      b.ncurr+elem.length < m.length ∧
      r = (true,{ b₁ with buf := some (stored m b.ncurr elem),ncurr := b.ncurr+elem.length }) := by
  obtain ⟨⟨granted,b₁⟩,hreserve,h⟩ := bind_eq_ok.mp h
  have hres := reserve_ok hv hreserve
  cases granted with
  | false =>
    cases h
    exact .inl ⟨rfl,hres⟩
  | true =>
    obtain ⟨hcurr,m,hbuf,hlen,hroom,-⟩ := hres.room hv
    refine .inr ⟨b₁,m,hres,hbuf,hlen,hroom,?_⟩
    have hcopy : b₁.ncurr+(elem.map some).length ≤ m.length := by
      rw [List.length_map,hcurr]
      omega
    simp only [hbuf,copyTo_of_le hcopy,ok_bind] at h
    obtain ⟨ncurr,hncurr,h⟩ := bind_eq_ok.mp h
    cases h
    rw [int_eq_ok hncurr,hcurr,List.length_map]
    rfl

theorem antBufAppend_returns (mem : Memory) (hv : b.Valid) (hs : b.ncurr+elem.length < 2^30) :
    ∃ r,antBufAppend mem b elem = .ok r := by
  obtain ⟨⟨granted,b₁⟩,hreserve⟩ := reserve_returns mem hv hs
  rw [antBufAppend,hreserve,ok_bind]
  cases granted with
  | false => exact ⟨_,rfl⟩
  | true =>
    obtain ⟨hcurr,m,hbuf,-,hroom,-⟩ := (reserve_ok hv hreserve).room hv
    have hcopy : b₁.ncurr+(elem.map some).length ≤ m.length := by
      rw [List.length_map,hcurr]
      omega
    have hint : b₁.ncurr+elem.length < 2^31 := by omega
    simp only [hbuf,copyTo_of_le hcopy,int_of_lt hint,ok_bind]
    exact ⟨_,rfl⟩

/-- A successful append adds its bytes to the content, a refused one adds nothing. -/
theorem antBufAppend_content (hv : b.Valid) {r : Bool × Buf}
    (h : antBufAppend mem b elem = .ok r) :
    r.2.Valid ∧ r.2.content = b.content++(if r.1 then elem.map some else []) ∧
      r.2.ncurr = b.ncurr+(if r.1 then elem.length else 0) := by
  rcases antBufAppend_ok hv h with ⟨hr,hres⟩ | ⟨b₁,m,hres,hbuf,hlen,hroom,rfl⟩
  · obtain ⟨granted,b'⟩ := r
    subst hr
    obtain ⟨hvalid,hbuf,hcurr,-,-⟩ := hres.refuses hv
    refine ⟨hvalid,?_,hcurr⟩
    show b'.content = b.content++[]
    rw [List.append_nil,Buf.content,Buf.content,hbuf,hcurr]
  · obtain ⟨-,m',hbuf',-,-,htake⟩ := hres.room hv
    cases hbuf.symm.trans hbuf'
    have hfit : b.ncurr+elem.length ≤ m.length := Nat.le_of_lt hroom
    refine ⟨⟨fun hnone => (nomatch hnone),?_⟩,?_,rfl⟩
    · rintro m₂ ⟨⟩
      rw [stored_length hfit]
      exact ⟨hlen,by show b₁.length ≠ 0; omega,hfit⟩
    · show (stored m b.ncurr elem).take (b.ncurr+elem.length) = _
      rw [stored_take hfit,htake]
      rfl

/-- An append that fits adds its bytes to the content. -/
theorem antBufAppend_of_lt (hv : b.Valid) (hmem : ∀ n < 2^31,mem.grants n = true)
    (hs : b.ncurr+elem.length < 2^30) :
    ∃ b',antBufAppend mem b elem = .ok (true,b') ∧ b'.Valid ∧
      b'.content = b.content++elem.map some ∧ b'.ncurr = b.ncurr+elem.length := by
  obtain ⟨⟨granted,b'⟩,happend⟩ := antBufAppend_returns mem hv hs
  cases granted with
  | true => exact ⟨b',happend,antBufAppend_content hv happend⟩
  | false =>
    rcases antBufAppend_ok hv happend with ⟨-,hres⟩ | ⟨_,_,-,-,-,-,hr⟩
    · cases hres with
      | refused _ hg =>
        rw [hmem _ (by omega)] at hg
        cases hg
      | kept _ _ hfit hg =>
        rw [hmem _ (max_lt (by omega) (by omega))] at hg
        cases hg
    · cases hr

end Append
end AntBuf
end RecycleBin
