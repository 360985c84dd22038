import RecycleBin.Refinement

/-! Byte buffers. A buffer is the list of its bytes; an access that leaves it is
undefined. Integers travel as fixed-width big-endian words, and are stored by the
host with the low byte first. -/
namespace RecycleBin
namespace Bytes

/-- The `k` low bytes of `n`, most significant first. -/
def be : ℕ → ℕ → List UInt8
  | 0, _ => []
  | k+1, n => UInt8.ofNat (n/256^k) :: be k n

/-- The value of a big-endian numeral behind the digits read so far. -/
def ofBeFrom : ℕ → List UInt8 → ℕ
  | a, [] => a
  | a, b::bs => ofBeFrom (a*256+b.toNat) bs

def ofBe (bs : List UInt8) : ℕ := ofBeFrom 0 bs

/-- The host is little-endian: memory holds the numeral reversed. -/
def ofLe (bs : List UInt8) : ℕ := ofBe bs.reverse

@[simp] theorem be_length (k n : ℕ) : (be k n).length = k := by
  induction k with
  | zero => rfl
  | succ k ih => simp [be,ih]

theorem ofBeFrom_be (k n a : ℕ) : ofBeFrom a (be k n) = a*256^k+n%256^k := by
  induction k generalizing a with
  | zero => simp [be,ofBeFrom,Nat.mod_one]
  | succ k ih =>
    have hm : n%256^(k+1) = n%256^k+256^k*(n/256^k%256) := by rw [pow_succ,Nat.mod_mul]
    have hb : (UInt8.ofNat (n/256^k)).toNat = n/256^k%256 := UInt8.toNat_ofNat'
    rw [be,ofBeFrom,ih,hm,hb]
    ring

@[simp] theorem ofBe_be (k n : ℕ) : ofBe (be k n) = n%256^k := by
  simp [ofBe,ofBeFrom_be]

theorem ofBe_be_of_lt {k n : ℕ} (h : n < 256^k) : ofBe (be k n) = n := by
  rw [ofBe_be,Nat.mod_eq_of_lt h]

theorem toNat_ofNat32 {n : ℕ} (h : n < 2^32) : (UInt32.ofNat n).toNat = n :=
  UInt32.toNat_ofNat_of_lt' h

/-- `len` bytes of the buffer from offset `off` on. -/
def readAt {α : Type} (buf : List α) (off len : ℕ) : Except Fault (List α) :=
  if off+len ≤ buf.length then .ok ((buf.drop off).take len) else .error .undefined

/-- Overwrite the buffer with `bs` from offset `off` on. -/
def writeAt {α : Type} (buf : List α) (off : ℕ) (bs : List α) : Except Fault (List α) :=
  if off+bs.length ≤ buf.length then .ok (buf.take off ++ bs ++ buf.drop (off+bs.length))
  else .error .undefined

section Access
variable {α : Type}

/-- A read that covers the middle of a buffer returns it. -/
theorem readAt_append {pre mid post : List α} {off len : ℕ} (hoff : off = pre.length)
    (hlen : len = mid.length) : readAt (pre++mid++post) off len = .ok mid := by
  subst hoff hlen
  have hfit : pre.length+mid.length ≤ (pre++mid++post).length := by simp
  rw [readAt,if_pos hfit,List.append_assoc,List.drop_left,List.take_left]

/-- A write that covers the middle of a buffer replaces it. -/
theorem writeAt_append {pre old new post : List α} {off : ℕ} (hoff : off = pre.length)
    (hlen : new.length = old.length) : writeAt (pre++old++post) off new = .ok (pre++new++post) := by
  subst hoff
  have hfit : pre.length+new.length ≤ (pre++old++post).length := by simp [hlen]
  have hdrop : (pre++old++post).drop (pre.length+new.length) = post := by
    rw [hlen,← List.length_append,List.drop_left]
  rw [writeAt,if_pos hfit,hdrop,List.append_assoc pre old post,List.take_left]

/-- The front of a buffer. -/
theorem readAt_zero {mid post : List α} {len : ℕ} (h : len = mid.length) :
    readAt (mid++post) 0 len = .ok mid := by
  have hr : readAt ([]++mid++post) 0 len = .ok mid := readAt_append rfl h
  simpa using hr

theorem writeAt_front {old new : List α} (post : List α) (h : new.length = old.length) :
    writeAt (old++post) 0 new = .ok (new++post) := by
  have hw : writeAt ([]++old++post) 0 new = .ok ([]++new++post) := writeAt_append rfl h
  simpa using hw

/-- The end of a buffer. -/
theorem writeAt_back {pre old new : List α} {off : ℕ} (hoff : off = pre.length)
    (h : new.length = old.length) : writeAt (pre++old) off new = .ok (pre++new) := by
  have hw : writeAt (pre++old++[]) off new = .ok (pre++new++[]) := writeAt_append hoff h
  simpa using hw

/-- One element replaced. -/
theorem writeAt_cons {pre post : List α} {a b : α} {off : ℕ} (hoff : off = pre.length) :
    writeAt (pre++a::post) off [b] = .ok (pre++b::post) := by
  have h : writeAt (pre++[a]++post) off [b] = .ok (pre++[b]++post) := writeAt_append hoff rfl
  simpa using h

theorem writeAt_zero {buf bs : List α} (h : bs.length ≤ buf.length) :
    writeAt buf 0 bs = .ok (bs++buf.drop bs.length) := by
  simp [writeAt,h]

/-- One byte is written where the array has it, and the array keeps its length. -/
theorem writeAt_one {buf : List α} {off : ℕ} (h : off < buf.length) (b : α) :
    ∃ buf',writeAt buf off [b] = .ok buf' ∧ buf'.length = buf.length := by
  have hfit : off+[b].length ≤ buf.length := h
  refine ⟨_,if_pos hfit,?_⟩
  simp only [List.length_append,List.length_take,List.length_drop,List.length_singleton]
  omega

theorem writeAt_length {buf buf' : List α} {off : ℕ} {bs : List α}
    (h : writeAt buf off bs = .ok buf') : buf'.length = buf.length := by
  rw [writeAt] at h
  split_ifs at h with hfit
  cases h
  simp only [List.length_append,List.length_take,List.length_drop]
  omega

theorem mem_writeAt {buf buf' bs : List α} {off : ℕ} (h : writeAt buf off bs = .ok buf') {b : α}
    (hb : b ∈ bs) : b ∈ buf' := by
  rw [writeAt] at h
  split_ifs at h
  cases h
  exact List.mem_append_left _ (List.mem_append_right _ hb)

/-- A buffer with room splits at the end of the room. -/
theorem exists_split {buf : List α} {n : ℕ} (h : n ≤ buf.length) :
    ∃ old rest, buf = old++rest ∧ old.length = n :=
  ⟨buf.take n,buf.drop n,(List.take_append_drop n buf).symm,by simp [h]⟩

/-- The whole blocks of `k` bytes a buffer consists of; a shorter rest is left out. -/
def blocks (k : ℕ) (buf : List α) : List (List α) :=
  (List.range (buf.length/k)).map fun i => (buf.drop (k*i)).take k

theorem blocks_of_lt {k : ℕ} {buf : List α} (h : buf.length < k) : blocks k buf = [] := by
  simp [blocks,Nat.div_eq_of_lt h]

theorem blocks_append {k : ℕ} (hk : 0 < k) {b : List α} (hb : b.length = k) (buf : List α) :
    blocks k (b++buf) = b::blocks k buf := by
  have hlen : (b++buf).length/k = buf.length/k+1 := by
    rw [List.length_append,hb,Nat.add_div_left _ hk]
  rw [blocks,hlen,List.range_succ_eq_map,List.map_cons,List.map_map]
  apply congrArg₂
  · simp [← hb]
  · apply List.map_congr_left
    intro i _
    change ((b++buf).drop (k*(i+1))).take k = _
    rw [show k*(i+1) = b.length+k*i by rw [hb,Nat.mul_succ,Nat.add_comm],← List.drop_drop,
      List.drop_left]

/-- A buffer of whole blocks and a rest shorter than a block. -/
theorem blocks_flatten {k : ℕ} (hk : 0 < k) {bs : List (List α)} (hbs : ∀ b ∈ bs, b.length = k)
    {rest : List α} (hr : rest.length < k) : blocks k (bs.flatten++rest) = bs := by
  induction bs with
  | nil => exact blocks_of_lt hr
  | cons b bs ih =>
    rw [List.flatten_cons,List.append_assoc,blocks_append hk (hbs b (by simp)),
      ih fun c hc => hbs c (by simp [hc])]

/-- Blocks at the front of a buffer of blocks are its first ones. -/
theorem flatten_append_eq {k : ℕ} {bs cs : List (List α)} {rest tail : List α}
    (hbs : ∀ b ∈ bs, b.length = k) (hcs : ∀ c ∈ cs, c.length = k) (ht : tail.length < k)
    (h : bs.flatten++rest = cs.flatten++tail) :
    ∃ ds, cs = bs++ds ∧ rest = ds.flatten++tail := by
  induction bs generalizing cs with
  | nil => exact ⟨cs,rfl,h⟩
  | cons b bs ih =>
    have hb : b.length = k := hbs b (by simp)
    cases cs with
    | nil =>
      have hlen := congrArg List.length h
      simp only [List.flatten_cons,List.flatten_nil,List.nil_append,List.length_append] at hlen
      omega
    | cons c cs =>
      have hc : c.length = k := hcs c (by simp)
      simp only [List.flatten_cons,List.append_assoc] at h
      obtain ⟨hbc,htail⟩ := List.append_inj h (hb.trans hc.symm)
      obtain ⟨ds,hds,hrest⟩ :=
        ih (fun d hd => hbs d (by simp [hd])) (fun d hd => hcs d (by simp [hd])) htail
      exact ⟨ds,by rw [hbc,hds,List.cons_append],hrest⟩

end Access
end Bytes
end RecycleBin
