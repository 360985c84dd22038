import RecycleBin.AntBuf

/-! Runs of appends, any of which may be refused its storage. -/
namespace RecycleBin
namespace AntBuf

/-- A call of `ant_buf_append`, and the memory it meets. -/
structure Call where
  mem : Memory
  elem : Bytes

def exec (c : Call) (b : Buf) : Except Fault (Bool × Buf) := antBufAppend c.mem b c.elem

def total (cs : List Call) : ℕ := (cs.map fun c => c.elem.length).sum

/-- The pieces of the calls that return 0. -/
def appended : List Call → List Bool → List Bytes
  | c::cs, true::rs => c.elem::appended cs rs
  | _::cs, false::rs => appended cs rs
  | _, _ => []

/-- The buffer holds the pieces, and its length has at least doubled with each reallocation;
the counter of these is far from overflowing. -/
structure Holds (ps : List Bytes) (b : Buf) : Prop where
  content : b.content = ps.flatten.map some
  ncurr : b.ncurr = ps.flatten.length
  fits : b.buf ≠ none → b.ncurr ≤ b.length
  amortised : b.buf ≠ none → 500*2^(b.nmAlloc-1) ≤ b.length
  few : b.nmAlloc ≤ 23

/-- What the calls rely on. -/
structure Inv (ps : List Bytes) (b : Buf) : Prop where
  valid : b.Valid
  content : b.content = ps.flatten.map some
  ncurr : b.ncurr = ps.flatten.length
  unallocated : b.buf = none → b.nmAlloc = 0
  allocated : b.buf ≠ none → 1 ≤ b.nmAlloc ∧ 500*2^(b.nmAlloc-1) ≤ b.length ∧ b.length < 2^31

/-- Doubled so often, the length of an `int` bounds the counter. -/
theorem nmAlloc_le {n length : ℕ} (h : 500*2^(n-1) ≤ length) (hlt : length < 2^31) : n ≤ 23 := by
  by_contra hn
  have hpow : 2^23 ≤ 2^(n-1) := Nat.pow_le_pow_right (by decide) (by omega)
  omega

theorem Inv.holds {ps : List Bytes} {b : Buf} (h : Inv ps b) : Holds ps b where
  content := h.content
  ncurr := h.ncurr
  fits hb := by
    obtain ⟨m,hm⟩ := Option.ne_none_iff_exists'.mp hb
    obtain ⟨hlen,-,hcurr⟩ := h.valid.fits m hm
    rw [hlen]
    exact hcurr
  amortised hb := (h.allocated hb).2.1
  few := by
    by_cases hb : b.buf = none
    · rw [h.unallocated hb]
      decide
    · exact nmAlloc_le (h.allocated hb).2.1 (h.allocated hb).2.2

theorem inv_new (mem : Memory) : Inv [] (antBufNew mem 0) where
  valid := antBufNew_valid mem
  content := rfl
  ncurr := rfl
  unallocated _ := rfl
  allocated h := absurd rfl h

section Step
variable {mem : Memory} {b r : Buf} {ps : List Bytes} {size : ℕ}

/-- Reserving storage keeps the relation between the counter and the length. -/
theorem Inv.reserves (h : Inv ps b) (hs : b.ncurr+size < 2^30)
    (hr : Reserves mem b size (true,r)) :
    1 ≤ r.nmAlloc ∧ 500*2^(r.nmAlloc-1) ≤ r.length ∧ r.length < 2^31 := by
  cases hr with
  | first hbuf _ =>
    refine ⟨le_refl 1,?_,?_⟩
    · show 500*2^0 ≤ size+500
      omega
    · show size+500 < 2^31
      omega
  | fits m hbuf _ => exact h.allocated (by rw [hbuf]; exact Option.some_ne_none m)
  | grown m needed hbuf hfit hneeded _ =>
    obtain ⟨hpos,hsize,hlt⟩ := h.allocated (by rw [hbuf]; exact Option.some_ne_none m)
    have hfew := nmAlloc_le hsize hlt
    have hmod : (b.nmAlloc+1)%2^31 = b.nmAlloc+1 := Nat.mod_eq_of_lt (by omega)
    have hdouble : 2*b.length ≤ needed := hneeded ▸ le_max_right _ _
    have hpow : 2^b.nmAlloc = 2*2^(b.nmAlloc-1) := by
      rw [← Nat.pow_succ',Nat.succ_eq_add_one,Nat.sub_add_cancel hpos]
    refine ⟨?_,?_,?_⟩
    · show 1 ≤ (b.nmAlloc+1)%2^31
      omega
    · show 500*2^((b.nmAlloc+1)%2^31-1) ≤ needed
      rw [hmod,Nat.add_sub_cancel,hpow]
      omega
    · show needed < 2^31
      rw [hneeded]
      exact max_lt (by omega) (by omega)

/-- A call returns, and adds its piece or nothing. -/
theorem Inv.exec (h : Inv ps b) {c : Call} (hs : b.ncurr+c.elem.length < 2^30) :
    ∃ ok b',AntBuf.exec c b = .ok (ok,b') ∧ Inv (ps++if ok then [c.elem] else []) b' ∧
      (ok = false → b'.content = b.content ∧ b'.ncurr = b.ncurr) := by
  obtain ⟨⟨ok,b'⟩,happend⟩ := antBufAppend_returns c.mem h.valid hs
  obtain ⟨hvalid,hcontent,hcurr⟩ := antBufAppend_content h.valid happend
  refine ⟨ok,b',happend,⟨hvalid,?_,?_,?_,?_⟩,?_⟩
  · rw [hcontent,h.content]
    cases ok <;> simp
  · rw [hcurr,h.ncurr]
    cases ok <;> simp
  · intro hnone
    rcases antBufAppend_ok h.valid happend with ⟨hok,hres⟩ | ⟨_,_,-,-,-,-,hb'⟩
    · cases hok
      obtain ⟨-,hbuf,-,hnm,-⟩ := hres.refuses h.valid
      exact hnm.trans (h.unallocated (hbuf.symm.trans hnone))
    · cases hb'
      cases hnone
  · intro hsome
    rcases antBufAppend_ok h.valid happend with ⟨hok,hres⟩ | ⟨b₁,m,hres,-,-,-,hb'⟩
    · cases hok
      obtain ⟨-,hbuf,-,hnm,hlen⟩ := hres.refuses h.valid
      have hb : b.buf ≠ none := hbuf ▸ hsome
      obtain ⟨m,hm⟩ := Option.ne_none_iff_exists'.mp hb
      have hlen : b'.length = b.length := hlen m hm
      have hnm : b'.nmAlloc = b.nmAlloc := hnm
      rw [hlen,hnm]
      exact h.allocated hb
    · cases hb'
      have hkept := h.reserves hs hres
      exact hkept
  · rintro rfl
    exact ⟨hcontent.trans (List.append_nil _),hcurr⟩

end Step

/-- A run of calls returns, and the buffer holds the pieces it appended. -/
theorem Inv.runs {cs : List Call} {ps : List Bytes} {b : Buf} (h : Inv ps b)
    (hs : b.ncurr+total cs < 2^30) :
    ∃ rs b',RecycleBin.runs AntBuf.exec cs b = .ok (rs,b') ∧ Inv (ps++appended cs rs) b' ∧
      b'.ncurr ≤ b.ncurr+total cs := by
  induction cs generalizing ps b with
  | nil =>
    have hnone : appended [] [] = [] := rfl
    exact ⟨[],b,rfl,by rwa [hnone,List.append_nil],Nat.le_add_right _ _⟩
  | cons c cs ih =>
    have htotal : total (c::cs) = c.elem.length+total cs := List.sum_cons
    obtain ⟨ok,b₁,hexec,hinv,-⟩ := h.exec (c := c) (by omega)
    have hcurr : b₁.ncurr ≤ b.ncurr+c.elem.length := by
      rw [hinv.ncurr,h.ncurr]
      cases ok <;> simp
    obtain ⟨rs,b',hruns,hinv',hle⟩ := ih hinv (by omega)
    refine ⟨ok::rs,b',runs_cons_eq_ok.mpr ⟨ok,b₁,rs,hexec,hruns,rfl⟩,?_,by omega⟩
    rw [List.append_assoc] at hinv'
    cases ok <;> exact hinv'

/-- After any calls with fewer than `2^30` bytes in all the buffer holds what was appended, and
so it does after one more, which changes nothing if it fails. -/
theorem antBufAppend_runs (mem : Memory) (cs : List Call) (c : Call)
    (h : total (cs++[c]) < 2^30) :
    ∃ rs b ok b',runs exec cs (antBufNew mem 0) = .ok (rs,b) ∧ Holds (appended cs rs) b ∧
      exec c b = .ok (ok,b') ∧ Holds (appended cs rs++if ok then [c.elem] else []) b' ∧
      (ok = false → b'.content = b.content ∧ b'.ncurr = b.ncurr) := by
  have htotal : total (cs++[c]) = total cs+c.elem.length := by simp [total]
  have hzero : (antBufNew mem 0).ncurr = 0 := rfl
  obtain ⟨rs,b,hruns,hinv,hle⟩ := Inv.runs (inv_new mem) (show (antBufNew mem 0).ncurr+total cs < 2^30 by omega)
  obtain ⟨ok,b',hexec,hinv',hfail⟩ := hinv.exec (c := c) (by omega)
  exact ⟨rs,b,ok,b',hruns,hinv.holds,hexec,hinv'.holds,hfail⟩

/-- One piece, in a memory that never runs out. -/
theorem antBufAppend_runs_one :
    ∃ rs b ok b',runs exec [] (antBufNew plenty 0) = .ok (rs,b) ∧ Holds (appended [] rs) b ∧
      exec ⟨plenty,[97]⟩ b = .ok (ok,b') ∧ Holds (appended [] rs++if ok then [[97]] else []) b' ∧
      (ok = false → b'.content = b.content ∧ b'.ncurr = b.ncurr) :=
  antBufAppend_runs plenty [] ⟨plenty,[97]⟩ (by decide)

end AntBuf
end RecycleBin
