import RecycleBin.CString
import RecycleBin.StrMatch

/-! Sets of characters in `str_match`: `%N[set]` and `%N[^set]`. -/
namespace RecycleBin
namespace StrMatchSet
open AntHash AntVisited CString StrMatch

/-! ### Bits -/

theorem and_or_right (x m k : UInt8) : (x ||| m) &&& k = (x &&& k) ||| (m &&& k) := by
  apply UInt8.toBitVec_inj.mp
  ext i hi
  simp [Bool.and_or_distrib_right]

/-- The place of a character's bit in its byte. -/
def place (c : UInt8) : Fin 8 := ⟨c.toNat%8,Nat.mod_lt _ (by decide)⟩

theorem bitMask_eq (c : UInt8) : bitMask c = 1 <<< UInt8.ofNat (place c) := by
  have hplace : c%8 = UInt8.ofNat (place c) := by
    apply UInt8.toNat_inj.mp
    rw [UInt8.toNat_mod,UInt8.toNat_ofNat']
    exact (Nat.mod_eq_of_lt (Nat.lt_trans (place c).isLt (by decide))).symm
  rw [bitMask,hplace]

theorem mask_and : ∀ i j : Fin 8,
    ((1 : UInt8) <<< UInt8.ofNat i) &&& ((1 : UInt8) <<< UInt8.ofNat j) ≠ 0 ↔ i = j := by decide

theorem mask_complement : ∀ x : UInt8,∀ j : Fin 8,
    (~~~x &&& ((1 : UInt8) <<< UInt8.ofNat j) ≠ 0) ↔ ¬x &&& ((1 : UInt8) <<< UInt8.ofNat j) ≠ 0 :=
  forall_byte (by decide +kernel)

/-- A character is the byte of the set and the place in it. -/
theorem eq_of_place {b c : UInt8} : b = c ↔ bitIndex b = bitIndex c ∧ place c = place b := by
  rw [bitIndex,bitIndex,Fin.mk.inj_iff,place,place,Fin.mk.inj_iff]
  constructor
  · rintro rfl
    exact ⟨rfl,rfl⟩
  · rintro ⟨hindex,hplace⟩
    apply UInt8.toNat_inj.mp
    omega

theorem bitIsset_bitSet (bit : Bit) (c b : UInt8) :
    bitIsset (bitSet bit c) b = true ↔ bitIsset bit b = true ∨ b = c := by
  rw [bitIsset,bitIsset,decide_eq_true_eq,decide_eq_true_eq,bitSet,eq_of_place]
  by_cases hindex : bitIndex b = bitIndex c
  · rw [hindex,Function.update_self,and_or_right,Ne,UInt8.or_eq_zero_iff,not_and_or]
    refine or_congr_right ?_
    rw [bitMask_eq,bitMask_eq,and_iff_right rfl]
    exact mask_and _ _
  · rw [Function.update_of_ne hindex]
    exact (or_iff_left fun h => hindex h.1).symm

theorem bitIsset_bitRev (bit : Bit) (b : UInt8) :
    bitIsset (bitRev bit) b = true ↔ ¬bitIsset bit b = true := by
  rw [bitIsset,bitIsset,decide_eq_true_eq,decide_eq_true_eq,bitRev,bitMask_eq]
  exact mask_complement _ _

theorem bitIsset_bitZero (b : UInt8) : ¬bitIsset bitZero b = true := by
  rw [bitIsset,decide_eq_true_eq,bitZero,UInt8.zero_and]
  exact fun h => h rfl

/-- The loop over a range sets the characters from `x` on. -/
theorem bitIsset_setRange (k : ℕ) : ∀ {bit x b},x.toNat+k < 256 →
    (bitIsset (setRange bit x k) b = true ↔
      bitIsset bit b = true ∨ x.toNat ≤ b.toNat ∧ b.toNat < x.toNat+k) := by
  induction k with
  | zero =>
    intro bit x b _
    rw [setRange,or_iff_left]
    omega
  | succ k ih =>
    intro bit x b hk
    have hone : (x+1).toNat = x.toNat+1 := by
      rw [UInt8.toNat_add]
      exact Nat.mod_eq_of_lt (by change x.toNat+1 < 256; omega)
    have heq : b = x ↔ b.toNat = x.toNat := UInt8.toNat_inj.symm
    rw [setRange,ih (by rw [hone]; omega),bitIsset_bitSet,hone,heq,or_assoc]
    refine or_congr_right ?_
    omega

/-! ### Sets -/

/-- A character of a set, or a range. -/
inductive Elem
  | single (c : UInt8)
  | range (x y : UInt8)

/-- ASCII characters that are no part of the notation. -/
def Plain (c : UInt8) : Prop := c.toNat < 128 ∧ c ≠ 45 ∧ c ≠ 93

namespace Elem

def Valid : Elem → Prop
  | single c => Plain c
  | range x y => Plain x ∧ Plain y ∧ x ≤ y

def text : Elem → Bytes
  | single c => [c]
  | range x y => [x,45,y]

def Has (b : UInt8) : Elem → Prop
  | single c => b = c
  | range x y => x ≤ b ∧ b ≤ y

end Elem

/-- A set as it is written, which does not start with a caret. -/
structure CharSet where
  elems : List Elem
  valid : ∀ e ∈ elems,e.Valid
  noCaret : (elems.flatMap Elem.text).head? ≠ some 94

def CharSet.text (cs : CharSet) : Bytes := cs.elems.flatMap Elem.text

def CharSet.Has (cs : CharSet) (b : UInt8) : Prop := ∃ e ∈ cs.elems,e.Has b

theorem schar_of_lt {b : UInt8} (h : b.toNat < 128) : schar b = b.toNat := if_pos h

/-- The loop takes an element in, where no dash stands behind it. -/
theorem scanSet_elem {e : Elem} (he : e.Valid) {rest : Bytes} (hrest : peek rest ≠ 45) (bit : Bit) :
    ∃ bit',(∀ n,(e.text++rest).length < n → ∃ m,rest.length < m ∧
        scanSet n bit (e.text++rest) = scanSet m bit' rest) ∧
      ∀ b,bitIsset bit' b = true ↔ bitIsset bit b = true ∨ e.Has b := by
  cases e with
  | single c =>
    refine ⟨bitSet bit c,fun n hn => ?_,fun b => bitIsset_bitSet bit c b⟩
    have hlen : rest.length+1 < n := hn
    obtain ⟨n,rfl⟩ := Nat.exists_eq_succ_of_ne_zero (Nat.ne_zero_of_lt hn)
    refine ⟨n,by omega,?_⟩
    show scanSet (n+1) bit (c::rest) = _
    rw [scanSet,if_neg he.2.2,if_neg hrest]
  | range x y =>
    obtain ⟨hx,hy,hxy⟩ := he
    have hle : x.toNat ≤ y.toNat := hxy
    have hdiff : (schar y-schar x).toNat = y.toNat-x.toNat := by
      rw [schar_of_lt hx.1,schar_of_lt hy.1]
      omega
    have hsle : schar x ≤ schar y := by
      rw [schar_of_lt hx.1,schar_of_lt hy.1]
      omega
    refine ⟨bitSet (setRange bit x (y.toNat-x.toNat)) y,fun n hn => ?_,fun b => ?_⟩
    · have hlen : rest.length+3 < n := hn
      obtain ⟨n,rfl⟩ : ∃ m,n = m+2 := ⟨n-2,by omega⟩
      refine ⟨n,by omega,?_⟩
      show scanSet (n+2) bit (x::45::y::rest) = _
      have hdash : peek (45::y::rest) = 45 := rfl
      have hend : peek (45::y::rest).tail = y := rfl
      rw [scanSet,if_neg hx.2.2,if_pos hdash]
      simp only [hend,if_pos hsle,hdiff]
      show scanSet (n+1) _ (y::rest) = _
      rw [scanSet,if_neg hy.2.2,if_neg hrest]
    · have hy256 := hy.1
      have heq : b = y ↔ b.toNat = y.toNat := UInt8.toNat_inj.symm
      have hhas : (Elem.range x y).Has b ↔ x.toNat ≤ b.toNat ∧ b.toNat ≤ y.toNat := Iff.rfl
      rw [bitIsset_bitSet,bitIsset_setRange _ (by omega),heq,hhas,or_assoc]
      refine or_congr_right ?_
      omega

theorem peek_text {es : List Elem} (h : ∀ e ∈ es,e.Valid) :
    peek (es.flatMap Elem.text++[93]) ≠ 45 := by
  cases es with
  | nil => decide
  | cons e es =>
    have he := h e List.mem_cons_self
    cases e with
    | single c => exact he.2.1
    | range x y => exact he.1.2.1

/-- The loop takes the whole set in and stops at its bracket. -/
theorem scanSet_text {es : List Elem} (h : ∀ e ∈ es,e.Valid) : ∀ bit,
    ∃ bit',(∀ n,(es.flatMap Elem.text++[93]).length < n →
        scanSet n bit (es.flatMap Elem.text++[93]) = .ok (bit',[93])) ∧
      ∀ b,bitIsset bit' b = true ↔ bitIsset bit b = true ∨ ∃ e ∈ es,e.Has b := by
  induction es with
  | nil =>
    intro bit
    refine ⟨bit,fun n hn => ?_,fun b => ?_⟩
    · obtain ⟨n,rfl⟩ := Nat.exists_eq_succ_of_ne_zero (Nat.ne_zero_of_lt hn)
      exact if_pos rfl
    · rw [or_iff_left]
      rintro ⟨e,he,-⟩
      cases he
  | cons e es ih =>
    intro bit
    have hes : ∀ e ∈ es,e.Valid := fun e he => h e (List.mem_cons_of_mem _ he)
    obtain ⟨bit₁,hscan₁,hbit₁⟩ := scanSet_elem (h e List.mem_cons_self) (peek_text hes) bit
    obtain ⟨bit₂,hscan₂,hbit₂⟩ := ih hes bit₁
    refine ⟨bit₂,fun n hn => ?_,fun b => ?_⟩
    · rw [List.flatMap_cons,List.append_assoc] at hn ⊢
      obtain ⟨m,hm,heq⟩ := hscan₁ n hn
      rw [heq,hscan₂ m hm]
    · rw [hbit₂,hbit₁,or_assoc]
      simp

/-! ### Consumption -/

theorem upTo_all {p : UInt8 → Bool} (s : Bytes) : ∀ w,
    (upTo p w s).2 = [] ↔ (∀ b ∈ s,p b = true) ∧ s.length ≤ w := by
  induction s with
  | nil =>
    intro w
    rw [upTo]
    simp
  | cons b s ih =>
    intro w
    rw [upTo,List.forall_mem_cons,List.length_cons]
    by_cases hb : p b = true ∧ 0 < w
    · rw [if_pos hb,ih,and_iff_right hb.1]
      refine and_congr_right fun _ => ?_
      omega
    · rw [if_neg hb]
      refine iff_of_false (List.cons_ne_nil b s) ?_
      rintro ⟨⟨hp,-⟩,hlen⟩
      exact hb ⟨hp,by omega⟩

/-- The whole of `s` is passed over exactly when all of it is right and the width lasts. -/
theorem skip_all (p : UInt8 → Bool) (width : ℕ) (s : Bytes) :
    skip p width s = [] ↔ (∀ b ∈ s,p b = true) ∧ (width = 0 ∨ s.length ≤ width) := by
  rw [skip]
  by_cases hw : width = 0
  · rw [if_neg (not_not_intro hw),List.dropWhile_eq_nil_iff,and_iff_left (.inl hw)]
  · rw [if_pos hw,upTo_all,or_iff_right hw]

/-! ### The format -/

/-- A width as it is written; no digit is no limit, as is the width 0. -/
structure Width where
  digits : Bytes
  isdigit : ∀ d ∈ digits,isdigit d = true

def Width.value (w : Width) : ℕ := numeral 0 w.digits

/-- `%N[set]`, and with a caret `%N[^set]`. -/
def format (w : Width) (caret : Bool) (cs : CharSet) : Bytes :=
  37::(w.digits++(91::((if caret then [94] else [])++(cs.text++[93]))))

/-- `str_match` returns 1 exactly when all bytes are in the set, or with a caret none, and
there are not more than the width allows. -/
def Decides (w : Width) (caret : Bool) (cs : CharSet) (s : Bytes) : Prop :=
  ∃ r,Returns s (format w caret cs) r ∧
    (r = true ↔ (∀ b ∈ s,cs.Has b ↔ caret = false) ∧ (w.value = 0 ∨ s.length ≤ w.value))

section Format
variable {w : Width} {caret : Bool} {cs : CharSet}

theorem takeWhile_width (w : Width) (f : Bytes) :
    (w.digits++(91::f)).takeWhile AntVisited.isdigit = w.digits ∧
      (w.digits++(91::f)).dropWhile AntVisited.isdigit = 91::f := by
  have h91 : AntVisited.isdigit 91 = false := by decide
  constructor
  · rw [List.takeWhile_append_of_pos w.isdigit,List.takeWhile_cons,h91]
    exact List.append_nil _
  · rw [List.dropWhile_append_of_pos w.isdigit,List.dropWhile_cons,h91]
    rfl

theorem widthFits_iff (w : Width) (f : Bytes) :
    WidthFits (w.digits++(91::f)) ↔ w.digits = [] ∨ w.value+48 < 2^31 := by
  rw [WidthFits,(takeWhile_width w f).1]
  exact Iff.rfl

/-- What stands behind the bracket. -/
def body (caret : Bool) (cs : CharSet) : Bytes := (if caret then [94] else [])++(cs.text++[93])

theorem peek_body (caret : Bool) (cs : CharSet) : peek (body caret cs) = 94 ↔ caret = true := by
  cases caret with
  | true => exact iff_of_true rfl rfl
  | false =>
    refine iff_of_false ?_ Bool.false_ne_true
    have hcaret := cs.noCaret
    show peek (cs.elems.flatMap Elem.text++[93]) ≠ 94
    cases htext : cs.elems.flatMap Elem.text with
    | nil => decide
    | cons c t =>
      rw [htext] at hcaret
      exact fun h => hcaret (congrArg some h)

theorem setBody_body (caret : Bool) (cs : CharSet) : setBody (body caret cs) = cs.text++[93] := by
  rw [setBody]
  by_cases h : caret = true
  · rw [if_pos ((peek_body caret cs).mpr h),h]
    rfl
  · rw [if_neg fun hpeek => h ((peek_body caret cs).mp hpeek),Bool.eq_false_of_not_eq_true h]
    rfl

/-- The directive leaves nothing of the text exactly when the set and the width allow all of it. -/
theorem turn_format (hfit : w.digits = [] ∨ w.value+48 < 2^31) (s : Bytes) :
    ∃ t,(∀ n,(format w caret cs).length ≤ n → turn n s (format w caret cs) = .ok (.inr (t,[]))) ∧
      (t = [] ↔ (∀ b ∈ s,cs.Has b ↔ caret = false) ∧ (w.value = 0 ∨ s.length ≤ w.value)) := by
  obtain ⟨bit,hscan,hbit⟩ := scanSet_text cs.valid bitZero
  have hhas : ∀ b,bitIsset bit b = true ↔ cs.Has b := fun b =>
    (hbit b).trans (or_iff_right (bitIsset_bitZero b))
  let set := if peek (body caret cs) = 94 then bitRev bit else bit
  have hset : ∀ b,bitIsset set b = true ↔ (cs.Has b ↔ caret = false) := by
    intro b
    cases caret with
    | true =>
      have hrev : set = bitRev bit := if_pos ((peek_body true cs).mpr rfl)
      rw [hrev,bitIsset_bitRev,hhas]
      simp
    | false =>
      have hplain : set = bit := if_neg fun h => Bool.false_ne_true ((peek_body false cs).mp h)
      rw [hplain,hhas]
      simp
  refine ⟨skip (bitIsset set) w.value s,fun n hn => ?_,?_⟩
  · have hlen : (cs.text++[93]).length < n := by
      have hbody := setBody_length (body caret cs)
      rw [setBody_body] at hbody
      rw [format,List.length_cons,List.length_append,List.length_cons] at hn
      change _+((body caret cs).length+1)+1 ≤ n at hn
      omega
    have hok : scanSet n bitZero (setBody (body caret cs)) = .ok (bit,[93]) := by
      rw [setBody_body]
      exact hscan n hlen
    obtain ⟨htake,hdrop⟩ := takeWhile_width w (body caret cs)
    have hturn := turn_percent ((widthFits_iff w (body caret cs)).mpr hfit) n s
    rw [htake,hdrop,directive_scan hok,ok_bind] at hturn
    exact hturn
  · rw [skip_all]
    simp only [hset]

/-- A width that does not fit an `int` is added up all the same. -/
theorem not_returns_wide (hfit : ¬(w.digits = [] ∨ w.value+48 < 2^31)) {s : Bytes} {r : Bool} :
    ¬Returns s (format w caret cs) r := by
  intro h
  obtain ⟨hwidth,-⟩ := h.sound _ rfl
  exact hfit ((widthFits_iff w _).mp hwidth)

/-- A set is matched as it is written exactly when its width fits an `int`, with room for a
digit that is not yet taken down to its value. -/
theorem set_decides_iff (w : Width) (caret : Bool) (cs : CharSet) (s : Text) :
    Decides w caret cs s.bytes ↔ w.digits = [] ∨ w.value+48 < 2^31 := by
  constructor
  · rintro ⟨r,hr,-⟩
    by_contra hfit
    exact not_returns_wide hfit hr
  · intro hfit
    obtain ⟨t,hturn,ht⟩ := turn_format hfit s.bytes
    refine ⟨decide (t = []),(Returns.next_iff hturn).mpr (.of_turn fun n _ => rfl),?_⟩
    rw [decide_eq_true_eq,ht]

end Format

/-- `%4294967296[a]`. -/
def wide : Width := ⟨[52,50,57,52,57,54,55,50,57,54],List.all_eq_true.mp rfl⟩

theorem not_decides_wide : ¬Decides wide false ⟨[.single 97],by simp [Elem.Valid,Plain],by decide⟩ [97] := by
  rintro ⟨r,hr,-⟩
  exact not_returns_wide (by decide) hr

end StrMatchSet
end RecycleBin
