import RecycleBin.AntBufRuns
import RecycleBin.CString

/-! The text of a page as `html_dump` hands it to `extract_fromcode` and `parse_page`: the bytes
appended to a buffer, and what stands behind them in its allocation. Memory of `malloc` that was
never written may hold anything, that of `calloc` is zero. -/
namespace RecycleBin
namespace AntPageText
open AntBuf AntHash CString

/-- The bytes an allocation may hold. -/
def Fills (m : List Cell) (bytes : AntHash.Bytes) : Prop :=
  List.Forall₂ (fun c b => ∀ x ∈ c,x = b) m bytes

/-- Whatever the allocation holds, a NUL stands in it behind the page, where the scans stop. -/
def Terminated (b : Buf) (page : AntHash.Bytes) : Prop :=
  ∃ m,b.buf = some m ∧ ∀ bytes,Fills m bytes → bytes[b.ncurr]? = some 0 ∧ cstr bytes = page

/-- The storage of a buffer that holds the pieces. Behind them it is not written as long as it is
that of the first piece, and zero once it has grown. -/
def Layout : List AntHash.Bytes → Buf → Prop
  | [], b => b.buf = none ∧ b.ncurr = 0
  | p::ps, b => ∃ k c,0 < k ∧ b.buf = some ((p::ps).flatten.map some++List.replicate k c) ∧
      b.ncurr = (p::ps).flatten.length ∧ b.length = (p::ps).flatten.length+k ∧
      (c = none ∧ b.length = p.length+500 ∨ c = some 0 ∧ p.length+500 ≤ b.ncurr)

/-! ### The layout over a run -/

theorem Layout.valid {ps : List AntHash.Bytes} {b : Buf} (h : Layout ps b) : b.Valid := by
  cases ps with
  | nil => exact ⟨fun _ => h.2,fun m hm => by rw [h.1] at hm; cases hm⟩
  | cons p ps =>
    obtain ⟨k,c,hk,hbuf,hcurr,hlen,-⟩ := h
    refine ⟨fun hm => ?_,fun m hm => ?_⟩
    · rw [hbuf] at hm
      cases hm
    cases hbuf.symm.trans hm
    rw [List.length_append,List.length_map,List.length_replicate]
    omega

/-- The cells behind the content are all alike. -/
theorem stored_replicate (page q : AntHash.Bytes) (k : ℕ) (c : Cell) :
    stored (page.map some++List.replicate k c) page.length q =
      (page++q).map some++List.replicate (k-q.length) c := by
  have hpage : (page.map some).length = page.length := List.length_map _
  rw [stored,List.take_left' hpage,List.drop_append,hpage,
    List.drop_of_length_le (by rw [hpage]; exact Nat.le_add_right _ _),List.nil_append,
    Nat.add_sub_cancel_left,List.drop_replicate,List.map_append]

/-- The first piece is stored at the front of its own allocation. -/
theorem layout_first {q : AntHash.Bytes} {b b₁ : Buf} {m : List Cell}
    (hm : m = List.replicate (q.length+500) none) (hlen : b₁.length = q.length+500)
    (hcurr : b.ncurr = 0) :
    Layout [q] { b₁ with buf := some (stored m b.ncurr q),ncurr := b.ncurr+q.length } := by
  have hstored := stored_replicate [] q (q.length+500) none
  rw [List.map_nil,List.nil_append,List.length_nil,List.nil_append,Nat.add_sub_cancel_left] at hstored
  have hflat : [q].flatten = q := List.append_nil q
  refine ⟨500,none,by decide,?_,?_,?_,.inl ⟨rfl,hlen⟩⟩
  · rw [hcurr,hm,hstored,hflat]
  · rw [hflat,hcurr,Nat.zero_add]
  · rw [hflat]
    exact hlen

theorem flatten_concat (p q : AntHash.Bytes) (ps : List AntHash.Bytes) :
    (p::(ps++[q])).flatten = (p::ps).flatten++q := by simp

/-- A piece that fits takes the place of the front of what is behind the content. -/
theorem Layout.fits {p q : AntHash.Bytes} {ps : List AntHash.Bytes} {b : Buf} {m : List Cell}
    (h : Layout (p::ps) b) (hbuf : b.buf = some m) (hfit : b.ncurr+q.length+1 ≤ b.length) :
    Layout (p::(ps++[q])) { b with buf := some (stored m b.ncurr q),ncurr := b.ncurr+q.length } := by
  obtain ⟨k,d,hk,hm,hcurr,hlen,hkind⟩ := h
  cases hbuf.symm.trans hm
  refine ⟨k-q.length,d,by omega,?_,?_,?_,?_⟩
  · rw [flatten_concat,hcurr,stored_replicate]
  · rw [flatten_concat,List.length_append,hcurr]
  · rw [flatten_concat,List.length_append]
    show b.length = _
    omega
  · rcases hkind with hkind | ⟨hd,hle⟩
    · exact .inl hkind
    · exact .inr ⟨hd,hle.trans (Nat.le_add_right _ _)⟩

/-- Memory that has grown is zero behind the content. -/
theorem Layout.grown {p q : AntHash.Bytes} {ps : List AntHash.Bytes} {b : Buf} {m : List Cell}
    {n a : ℕ} (h : Layout (p::ps) b) (hbuf : b.buf = some m) (hfit : b.length < b.ncurr+q.length+1)
    (hn : b.ncurr+q.length+1 ≤ n) :
    Layout (p::(ps++[q]))
      ⟨some (stored (m.take b.ncurr++List.replicate (n-b.ncurr) (some 0)) b.ncurr q),n,
        b.ncurr+q.length,a⟩ := by
  obtain ⟨k,d,hk,hm,hcurr,hlen,hkind⟩ := h
  cases hbuf.symm.trans hm
  have hpage : ((p::ps).flatten.map some).length = b.ncurr := by rw [List.length_map,hcurr]
  refine ⟨n-b.ncurr-q.length,some 0,by omega,?_,?_,?_,.inr ⟨rfl,?_⟩⟩
  · rw [flatten_concat,List.take_left' hpage,hcurr,stored_replicate]
  · rw [flatten_concat,List.length_append,hcurr]
  · rw [flatten_concat,List.length_append]
    show n = _
    omega
  · show p.length+500 ≤ b.ncurr+q.length
    rcases hkind with ⟨-,hsize⟩ | ⟨-,hsize⟩
    · omega
    · omega

/-- A call that returns keeps the layout, with its piece or without. -/
theorem Layout.exec {ps : List AntHash.Bytes} {b b' : Buf} {c : Call} {ok : Bool}
    (h : Layout ps b) (he : AntBuf.exec c b = .ok (ok,b')) :
    Layout (ps++if ok then [c.elem] else []) b' := by
  rcases antBufAppend_ok h.valid he with ⟨hok,hres⟩ | ⟨b₁,m,hres,hbuf₁,-,hroom,hb'⟩
  · cases hok
    rw [if_neg Bool.false_ne_true,List.append_nil]
    cases hres with
    | refused hbuf _ =>
      cases ps with
      | nil => exact ⟨rfl,h.2⟩
      | cons p ps =>
        obtain ⟨k,d,-,hsome,-⟩ := h
        rw [hbuf] at hsome
        cases hsome
    | kept => exact h
  · cases hb'
    rw [if_pos rfl]
    cases ps with
    | nil =>
      obtain ⟨hnone,hcurr⟩ := h
      cases hres with
      | first _ _ =>
        cases hbuf₁
        exact layout_first rfl rfl hcurr
      | fits m hbuf _ => rw [hnone] at hbuf; cases hbuf
      | grown m needed hbuf _ _ _ => rw [hnone] at hbuf; cases hbuf
    | cons p ps =>
      show Layout (p::(ps++[c.elem])) _
      cases hres with
      | first hnone _ =>
        obtain ⟨k,d,-,hbuf,-⟩ := h
        rw [hbuf] at hnone
        cases hnone
      | fits m' hm' hfit =>
        exact h.fits hbuf₁ hfit
      | grown m' needed hm' hfit hneeded _ =>
        cases hbuf₁
        have hle : b.ncurr+c.elem.length+1 ≤ needed := hneeded ▸ le_max_left _ _
        exact h.grown hm' hfit hle

theorem Layout.runs {cs : List Call} {ps : List AntHash.Bytes} {b b' : Buf} {rs : List Bool}
    (h : Layout ps b) (hr : RecycleBin.runs AntBuf.exec cs b = .ok (rs,b')) :
    Layout (ps++appended cs rs) b' := by
  induction cs generalizing ps b rs with
  | nil =>
    cases hr
    have hnone : appended [] [] = [] := rfl
    rwa [hnone,List.append_nil]
  | cons c cs ih =>
    obtain ⟨ok,b₁,rs,he,hr',rfl⟩ := runs_cons_eq_ok.mp hr
    have hrest := ih (h.exec he) hr'
    rw [List.append_assoc] at hrest
    cases ok <;> exact hrest

/-! ### What the scans meet -/

theorem fills_some (page : AntHash.Bytes) : Fills (page.map some) page := by
  rw [Fills,List.forall₂_map_left_iff,List.forall₂_same]
  rintro b - x ⟨⟩
  rfl

/-- An allocation holds the page, and anything the cells behind it allow. -/
theorem fills_append {page : AntHash.Bytes} {m : List Cell} {bytes : AntHash.Bytes} :
    Fills (page.map some++m) bytes ↔ ∃ rest,bytes = page++rest ∧ Fills m rest := by
  constructor
  · intro h
    induction page generalizing bytes with
    | nil => exact ⟨bytes,rfl,h⟩
    | cons b page ih =>
      cases h with
      | cons hb htail =>
        obtain ⟨rest,rfl,hrest⟩ := ih htail
        exact ⟨rest,by rw [hb b rfl]; rfl,hrest⟩
  · rintro ⟨rest,rfl,hrest⟩
    exact List.rel_append (fills_some page) hrest

theorem fills_zeros {k : ℕ} {rest : AntHash.Bytes} (h : Fills (List.replicate k (some 0)) rest) :
    rest = List.replicate k 0 := by
  induction k generalizing rest with
  | zero =>
    cases h
    rfl
  | succ k ih =>
    cases h with
    | cons hb htail =>
      rw [ih htail,← hb 0 rfl]
      rfl

theorem fills_anything (k : ℕ) (b : UInt8) : Fills (List.replicate k none) (List.replicate k b) := by
  induction k with
  | zero => exact .nil
  | succ k ih => exact .cons (fun x hx => by cases hx) ih

/-- With zeros behind it, a page without a NUL ends where the scans stop. -/
theorem terminated_zeros {b : Buf} {page : AntHash.Bytes} {k : ℕ} (hk : 0 < k) (hpage : 0 ∉ page)
    (hbuf : b.buf = some (page.map some++List.replicate k (some 0))) (hcurr : b.ncurr = page.length) :
    Terminated b page := by
  refine ⟨_,hbuf,fun bytes hfills => ?_⟩
  obtain ⟨rest,rfl,hrest⟩ := fills_append.mp hfills
  obtain ⟨k,rfl⟩ := Nat.exists_eq_succ_of_ne_zero hk.ne'
  rw [fills_zeros hrest,List.replicate_succ]
  refine ⟨?_,?_⟩
  · rw [hcurr,List.getElem?_append_right (le_refl _),Nat.sub_self]
    rfl
  · exact cstr_terminated hpage _

/-- Memory of `malloc` may hold another byte there. -/
theorem not_terminated_anything {b : Buf} {page page' : AntHash.Bytes} {k : ℕ} (hk : 0 < k)
    (hbuf : b.buf = some (page.map some++List.replicate k none)) (hcurr : b.ncurr = page.length) :
    ¬Terminated b page' := by
  rintro ⟨m,hm,hall⟩
  cases hbuf.symm.trans hm
  obtain ⟨hzero,-⟩ := hall _ (fills_append.mpr ⟨_,rfl,fills_anything k 1⟩)
  obtain ⟨k,rfl⟩ := Nat.exists_eq_succ_of_ne_zero hk.ne'
  rw [hcurr,List.getElem?_append_right (le_refl _),Nat.sub_self,List.replicate_succ] at hzero
  exact absurd (Option.some.inj hzero) (by decide)

/-- The bytes after the first piece fill the 500 that were allocated with it. -/
def Outgrown (ps : List AntHash.Bytes) : Prop :=
  ∃ p qs,ps = p::qs ∧ p.length+500 ≤ ps.flatten.length

theorem Layout.terminated {ps : List AntHash.Bytes} {b : Buf} (h : Layout ps b)
    (hnul : 0 ∉ ps.flatten) : Terminated b ps.flatten ↔ Outgrown ps := by
  cases ps with
  | nil =>
    refine iff_of_false ?_ ?_
    · rintro ⟨m,hm,-⟩
      rw [h.1] at hm
      cases hm
    · rintro ⟨p,qs,hps,-⟩
      cases hps
  | cons p ps =>
    have hout : Outgrown (p::ps) ↔ p.length+500 ≤ (p::ps).flatten.length :=
      ⟨fun ⟨_,_,hps,hle⟩ => by cases hps; exact hle,fun hle => ⟨p,ps,rfl,hle⟩⟩
    obtain ⟨k,c,hk,hbuf,hcurr,hlen,⟨rfl,hsize⟩ | ⟨rfl,hsize⟩⟩ := h
    · refine iff_of_false (not_terminated_anything hk hbuf hcurr) ?_
      rw [hout]
      omega
    · exact iff_of_true (terminated_zeros hk hnul hbuf hcurr) (hout.mpr (hcurr ▸ hsize))

/-- A page is terminated exactly when it has outgrown its first allocation. -/
theorem page_terminated_iff {mem : Memory} {cs : List Call} {rs : List Bool} {b : Buf}
    (h : runs AntBuf.exec cs (antBufNew mem 0) = .ok (rs,b)) (hnul : 0 ∉ (appended cs rs).flatten) :
    Terminated b (appended cs rs).flatten ↔ Outgrown (appended cs rs) := by
  have hnew : Layout [] (antBufNew mem 0) := ⟨rfl,rfl⟩
  exact (hnew.runs h).terminated hnul

/-- The buffer of a page of one letter. -/
def letter : Buf := ⟨some (some 97::List.replicate 500 none),501,1,1⟩

theorem runs_letter :
    runs AntBuf.exec [⟨plenty,[97]⟩] (antBufNew plenty 0) = .ok ([true],letter) := by decide +kernel

theorem page_terminated_iff_letter : Terminated letter [97] ↔ Outgrown [[97]] :=
  page_terminated_iff runs_letter (by decide)

theorem not_terminated_letter :
    ∃ rs b,runs AntBuf.exec [⟨plenty,[97]⟩] (antBufNew plenty 0) = .ok (rs,b) ∧ ¬Terminated b [97] := by
  have hbuf : letter.buf = some (([97] : AntHash.Bytes).map some++List.replicate 500 none) := rfl
  exact ⟨_,_,runs_letter,not_terminated_anything (by decide) hbuf rfl⟩

end AntPageText
end RecycleBin
