import RecycleBin.ProcessPool

/-! What the workers of the process pool find in the stream. The socket may take any part
of a record, and report a timeout or an error at any point; several workers may read at
the same time. -/
namespace RecycleBin
namespace ProcessPool
open Bytes

/-- The call moves bytes. -/
def Io.moves : Io → Bool
  | .moved k => 0 < k
  | _ => false

/-- The call makes the loop around it return before it is done. -/
def Io.fails : Io → Bool
  | .moved k => k = 0
  | .again .timeout => true
  | .again .error => true
  | .error => true
  | _ => false

/-- A pass that returns a count without moving bytes met a count of zero. -/
theorem timedwait_count_zero {len cnt n : ℕ} {msec : ℤ} {io : Io} (hf : io.fails)
    (h : timedwait len cnt msec io = some (.ret 0 (.count n))) : io = .moved 0 := by
  cases io with
  | moved j => rw [show j = 0 by simpa [Io.fails] using hf]
  | eintr => cases hf
  | error => cases h
  | again w =>
    cases w with
    | ready => cases hf
    | error => cases h
    | timeout =>
      simp only [timedwait] at h
      split_ifs at h
      cases h

/-- A pass that goes on moved nothing, or some of the bytes to go. -/
theorem timedwait_loop {len cnt k : ℕ} {msec : ℤ} {io : Io}
    (h : timedwait len cnt msec io = some (.loop k)) : k = 0 ∨ (io.moves ∧ k < cnt) := by
  cases io with
  | moved j =>
    simp only [timedwait] at h
    split_ifs at h with h0 hlt heq <;> cases h
    exact .inr ⟨by simpa [Io.moves] using Nat.pos_of_ne_zero h0,hlt⟩
  | eintr =>
    cases h
    exact .inl rfl
  | error => cases h
  | again w =>
    cases w with
    | ready =>
      cases h
      exact .inl rfl
    | error => cases h
    | timeout =>
      simp only [timedwait] at h
      split_ifs at h
      cases h

/-- A pass that returns moved nothing, or all the bytes to go. -/
theorem timedwait_ret {len cnt k : ℕ} {msec : ℤ} {io : Io} {rv : Rv}
    (h : timedwait len cnt msec io = some (.ret k rv)) :
    (k = 0 ∧ io.fails) ∨ (io.moves ∧ 0 < k ∧ k = cnt ∧ rv = .count len) := by
  cases io with
  | moved j =>
    simp only [timedwait] at h
    split_ifs at h with h0 hlt heq <;> cases h
    · exact .inl ⟨rfl,by simpa [Io.fails] using h0⟩
    · exact .inr ⟨by simpa [Io.moves] using Nat.pos_of_ne_zero h0,Nat.pos_of_ne_zero h0,heq,rfl⟩
  | eintr => cases h
  | error =>
    cases h
    exact .inl ⟨rfl,rfl⟩
  | again w =>
    cases w with
    | ready => cases h
    | error =>
      cases h
      exact .inl ⟨rfl,rfl⟩
    | timeout =>
      simp only [timedwait] at h
      split_ifs at h
      cases h
      exact .inl ⟨rfl,rfl⟩

/-- The record of the call of `pp_pool_add` under way. -/
def Parent.current : Parent → Option ProcessArg
  | .writing a _ _ => some a
  | .growing _ _ (.add a _) => some a
  | _ => none

/-- Call `i` of `pp_pool_add` was made with the record `a`. -/
def State.Added (s : State) (i : ℕ) (a : ProcessArg) : Prop :=
  s.calls[i]?.map Call.record = some a ∨ (i = s.calls.length ∧ s.parent.current = some a)

/-- What the attempt under way has put into the socket. -/
def State.fragment (s : State) : List Cell :=
  match s.parent with
  | .writing a _ cnt => (cells s.calls.length a).take (recordSize-cnt)
  | _ => []

/-- The bytes of some records. -/
def records (rs : List (ℕ × ProcessArg)) : List (List Cell) := rs.map fun r => cells r.1 r.2

/-- What worker `w` has read of its next record. -/
def buffer (ws : List (Option (List Cell))) (w : ℕ) : List Cell := ws[w]?.join.getD []

/-- What all workers have read of their next records. -/
def held (ws : List (Option (List Cell))) : List Cell := (ws.map fun b => b.getD []).flatten

theorem records_length {rs : List (ℕ × ProcessArg)} {b : List Cell} (h : b ∈ records rs) :
    b.length = recordSize := by
  obtain ⟨r,_,rfl⟩ := List.mem_map.mp h
  exact cells_length r.1 r.2

theorem records_flatten_length (rs : List (ℕ × ProcessArg)) :
    (records rs).flatten.length = recordSize*rs.length := by
  induction rs with
  | nil => rfl
  | cons r rs ih =>
    have hcons : records (r::rs) = cells r.1 r.2::records rs := rfl
    rw [hcons,List.flatten_cons,List.length_append,cells_length,ih,List.length_cons,Nat.mul_succ,
      Nat.add_comm]

theorem held_eq_nil {ws : List (Option (List Cell))} (h : ∀ w < ws.length,buffer ws w = []) :
    held ws = [] := by
  induction ws with
  | nil => rfl
  | cons b ws ih =>
    have hb : b.getD [] = [] := h 0 (by simp)
    have hws : held ws = [] := ih fun w hw => h (w+1) (by simpa using hw)
    simp only [held,List.map_cons,List.flatten_cons] at hws ⊢
    rw [hb,hws,List.nil_append]

/-- A worker that alone has begun a record holds everything that is held. -/
theorem held_of_alone {ws : List (Option (List Cell))} {w : ℕ} {b : Option (List Cell)}
    (hw : ws[w]? = some b) (h : ∀ v < ws.length,v ≠ w → buffer ws v = []) :
    held ws = b.getD [] := by
  induction ws generalizing w with
  | nil => simp at hw
  | cons c ws ih =>
    cases w with
    | zero =>
      have hws : held ws = [] := held_eq_nil fun v hv => h (v+1) (by simpa using hv) (by simp)
      simp only [List.getElem?_cons_zero,Option.some.injEq] at hw
      simp only [held,List.map_cons,List.flatten_cons] at hws ⊢
      rw [hw,hws,List.append_nil]
    | succ w =>
      have hc : c.getD [] = [] := h 0 (by simp) (by simp)
      have hws : held ws = b.getD [] :=
        ih (by simpa using hw) fun v hv hvw => h (v+1) (by simpa using hv) (by simpa using hvw)
      simp only [held,List.map_cons,List.flatten_cons] at hws ⊢
      rw [hc,hws,List.nil_append]

theorem held_set_of_alone {ws : List (Option (List Cell))} {w : ℕ} {b c : Option (List Cell)}
    (hw : ws[w]? = some b) (h : ∀ v < ws.length,v ≠ w → buffer ws v = []) :
    held (ws.set w c) = c.getD [] := by
  have hlt : w < ws.length := (List.getElem?_eq_some_iff.mp hw).1
  apply held_of_alone (w := w)
  · rw [List.getElem?_set_self hlt]
  · intro v hv hvw
    rw [buffer,List.getElem?_set_ne (Ne.symm hvw)]
    exact h v (by simpa using hv) hvw

theorem held_set_nil {ws : List (Option (List Cell))} {w : ℕ} {b c : Option (List Cell)}
    (hw : ws[w]? = some b) (hbc : b.getD [] = c.getD []) : held (ws.set w c) = held ws := by
  have hmap : (ws.set w c).map (fun b => b.getD []) = ws.map fun b => b.getD [] := by
    apply List.ext_getElem?
    intro v
    by_cases hvw : w = v
    · subst hvw
      have hlt : w < ws.length := (List.getElem?_eq_some_iff.mp hw).1
      rw [List.getElem?_map,List.getElem?_map,List.getElem?_set_self hlt,hw]
      simp [hbc]
    · rw [List.getElem?_map,List.getElem?_map,List.getElem?_set_ne hvw]
  rw [held,held,hmap]

/-- The bytes ever written are the whole records written and a fragment of one more; the
workers completed some of them in order. -/
structure Framing (s : State) (fragment : List Cell) : Prop where
  sent : s.sent = (records s.written).flatten++fragment
  added : ∀ r ∈ s.written,s.Added r.1 r.2
  read : s.executed.flatten++held s.workers++s.stream = s.sent
  executed : ∀ b ∈ s.executed,b.length = recordSize
  held_lt : (held s.workers).length < recordSize

/-- The fragment is what the attempt under way has written. -/
structure Framed (s : State) : Prop extends Framing s s.fragment where
  cnt : ∀ a ntry cnt,s.parent = .writing a ntry cnt → 0 < cnt ∧ cnt ≤ recordSize

namespace Framing
variable {s : State} {fragment : List Cell} {a : ProcessArg}

/-- The parent moves on within its call. -/
theorem move (h : Framing s fragment) {p : Parent}
    (hp : ∀ b,s.parent.current = some b → p.current = some b) :
    Framing { s with parent := p } fragment where
  sent := h.sent
  added r hr := (h.added r hr).imp id fun hc => ⟨hc.1,hp _ hc.2⟩
  read := h.read
  executed := h.executed
  held_lt := h.held_lt

theorem leave (h : Framing s []) (hc : s.parent.current = some a) (result : ℤ) :
    Framing (s.leave a result) [] where
  sent := h.sent
  added r hr := by
    apply Or.inl
    rcases h.added r hr with ha | ⟨hi,ha⟩
    · have hlt : r.1 < s.calls.length := by
        by_contra hge
        rw [List.getElem?_eq_none (not_lt.mp hge)] at ha
        cases ha
      simpa [State.leave,List.getElem?_append_left hlt] using ha
    · have hra : a = r.2 := Option.some.inj (hc.symm.trans ha)
      simp [State.leave,hi,hra]
  read := h.read
  executed := h.executed
  held_lt := h.held_lt

theorem next (h : Framing s []) (hc : s.parent.current = some a) (ntry : ℕ) :
    Framed (s.next a ntry) := by
  unfold State.next
  split_ifs
  · refine ⟨?_,?_⟩
    · apply h.move
      intro b hb
      exact hc.symm.trans hb
    · rintro _ _ _ ⟨⟩
      exact ⟨by decide,le_refl _⟩
  · exact ⟨h.leave hc 0,by rintro _ _ _ ⟨⟩⟩

theorem attempted (h : Framing s []) (hc : s.parent.current = some a) (ntry : ℕ) (rv : Rv) :
    Framed (s.attempted a ntry rv) := by
  cases rv with
  | count n => exact h.next hc ntry
  | error => exact ⟨h.leave hc PP_ERROR,by rintro _ _ _ ⟨⟩⟩
  | timedout =>
    unfold State.attempted
    split_ifs
    · refine ⟨h.move fun b hb => hc.symm.trans hb,?_⟩
      rintro _ _ _ ⟨⟩
    · exact ⟨h.leave hc PP_TIMEOUT,by rintro _ _ _ ⟨⟩⟩

theorem addnReturn (h : Framing s []) {i n : ℤ} {caller : Caller}
    (hp : s.parent = .growing i n caller) (rv : ℤ) : Framed (s.addnReturn rv caller) := by
  cases caller with
  | new =>
    simp only [State.addnReturn]
    split_ifs
    · exact ⟨h.move (by simp [hp,Parent.current]),by rintro _ _ _ ⟨⟩⟩
    · exact ⟨h.move (by simp [hp,Parent.current]),by rintro _ _ _ ⟨⟩⟩
  | user => exact ⟨h.move (by simp [hp,Parent.current]),by rintro _ _ _ ⟨⟩⟩
  | add a ntry =>
    have hc : s.parent.current = some a := by rw [hp]; rfl
    by_cases hrv : rv = PP_ERROR
    · rw [State.addnReturn,if_pos hrv]
      exact ⟨h.leave hc PP_ERROR,by rintro _ _ _ ⟨⟩⟩
    · rw [State.addnReturn,if_neg hrv]
      exact h.next hc ntry

theorem fork (h : Framing s fragment) : Framing s.fork fragment := by
  have hheld : held s.fork.workers = held s.workers := by simp [held,State.fork]
  exact ⟨h.sent,h.added,by rw [hheld]; exact h.read,h.executed,by rw [hheld]; exact h.held_lt⟩

end Framing

namespace Framed
variable {s t : State} {a : ProcessArg}

/-- Bytes of the attempt reach the socket. -/
theorem send (h : Framed s) {ntry cnt : ℕ} (hp : s.parent = .writing a ntry cnt) (k : ℕ) :
    Framing (s.send a cnt k)
      (if k = cnt then [] else (cells s.calls.length a).take (recordSize-cnt+k)) where
  sent := by
    have hcnt := h.cnt a ntry cnt hp
    have hsent : s.sent =
        (records s.written).flatten++(cells s.calls.length a).take (recordSize-cnt) := by
      rw [h.sent,State.fragment,hp]
    have htake : (cells s.calls.length a).take (recordSize-cnt+k) =
        (cells s.calls.length a).take (recordSize-cnt)++
          ((cells s.calls.length a).drop (recordSize-cnt)).take k := List.take_add
    simp only [State.send]
    by_cases hkc : k = cnt
    · have hall : recordSize-cnt+k = (cells s.calls.length a).length := by
        rw [cells_length]
        omega
      rw [hall,List.take_length] at htake
      rw [if_pos hkc,if_pos hkc,hsent,List.append_assoc,← htake]
      simp [records]
    · rw [if_neg hkc,if_neg hkc,hsent,htake,List.append_assoc]
  added r hr := by
    simp only [State.send] at hr
    split_ifs at hr with hkc
    · rcases List.mem_append.mp hr with hr | hr
      · exact h.added r hr
      · rw [List.mem_singleton.mp hr]
        exact .inr ⟨rfl,by simp [State.send,hp,Parent.current]⟩
    · exact h.added r hr
  read := by
    simp only [State.send]
    rw [← List.append_assoc,h.read]
  executed := h.executed
  held_lt := h.held_lt

/-- A worker on its way keeps what it holds. -/
theorem receive_nothing (h : Framed s) {w : ℕ} {buf : List Cell}
    (hw : s.workers[w]? = some (some buf)) : Framed (s.receive w buf 0) := by
  have hheld : held (s.receive w buf 0).workers = held s.workers := held_set_nil hw (by simp)
  refine ⟨⟨h.sent,h.added,?_,h.executed,?_⟩,h.cnt⟩
  · rw [hheld]
    exact h.read
  · rw [hheld]
    exact h.held_lt

/-- A worker that alone has begun a record takes part of the rest. -/
theorem receive (h : Framed s) {w k : ℕ} {buf : List Cell} (hw : s.workers[w]? = some (some buf))
    (ha : ∀ v < s.workers.length,v ≠ w → buffer s.workers v = [])
    (hk : k < recordSize-buf.length) : Framed (s.receive w buf k) := by
  have hold : held s.workers = buf := held_of_alone hw ha
  have hnew : held (s.receive w buf k).workers = buf++s.stream.take k := held_set_of_alone hw ha
  refine ⟨⟨h.sent,h.added,?_,h.executed,?_⟩,h.cnt⟩
  · have hread := h.read
    rw [hold] at hread
    rw [hnew]
    simp only [State.receive]
    rw [← hread,List.append_assoc,List.append_assoc,List.append_assoc,List.take_append_drop]
  · rw [hnew,List.length_append,List.length_take]
    omega

/-- A worker that alone has begun a record takes all the rest, and starts over. -/
theorem execute (h : Framed s) {w k : ℕ} {buf : List Cell} (hw : s.workers[w]? = some (some buf))
    (ha : ∀ v < s.workers.length,v ≠ w → buffer s.workers v = [])
    (hlen : k = recordSize-buf.length) (hk : k ≤ s.stream.length) :
    Framed (s.execute w buf k) := by
  have hold : held s.workers = buf := held_of_alone hw ha
  have hnew : held (s.execute w buf k).workers = [] := held_set_of_alone hw ha
  refine ⟨⟨h.sent,h.added,?_,?_,?_⟩,h.cnt⟩
  · have hread := h.read
    rw [hold] at hread
    rw [hnew]
    simp only [State.execute]
    rw [← hread,List.flatten_append,List.append_assoc,List.append_assoc,List.append_assoc]
    simp
  · intro b hb
    rcases List.mem_append.mp hb with hb | hb
    · exact h.executed b hb
    · rw [List.mem_singleton.mp hb,List.length_append,List.length_take]
      have := h.held_lt
      rw [hold] at this
      omega
  · rw [hnew]
    decide

/-- A worker that holds nothing takes nothing with it. -/
theorem exit (h : Framed s) {w : ℕ} (hw : s.workers[w]? = some (some [])) :
    Framed (s.exit w) := by
  have hheld : held (s.exit w).workers = held s.workers := held_set_nil hw rfl
  refine ⟨⟨h.sent,h.added,?_,h.executed,?_⟩,h.cnt⟩
  · rw [hheld]
    exact h.read
  · rw [hheld]
    exact h.held_lt

end Framed

/-- The bytes the attempt under way has to go. -/
def Parent.left : Parent → Option ℕ
  | .writing _ _ cnt => some cnt
  | _ => none

/-- The socket and the workers keep records together: an attempt to write one fails only
while none of its bytes are out, and a worker reads while no other has begun a record and
gives up only before it begins one. -/
def KeepsRecords : Act → State → Prop
  | .write io, s => io.fails → ∀ cnt ∈ s.parent.left,cnt = recordSize
  | .read w io, s =>
    (io.moves → ∀ v < s.workers.length,v ≠ w → buffer s.workers v = []) ∧
      (io.fails → buffer s.workers w = [])
  | _, _ => True

instance : ∀ a s,Decidable (KeepsRecords a s)
  | .write io, s => inferInstanceAs (Decidable (io.fails → ∀ cnt ∈ s.parent.left,cnt = recordSize))
  | .read w io, s => inferInstanceAs (Decidable
      ((io.moves → ∀ v < s.workers.length,v ≠ w → buffer s.workers v = []) ∧
        (io.fails → buffer s.workers w = [])))
  | .ppPoolAdd _ _ _, _ => isTrue trivial
  | .ppPoolProcessAddn _, _ => isTrue trivial
  | .fork _, _ => isTrue trivial

namespace Framed
variable {s t : State}

theorem writeStep (h : Framed s) {io : Io} (hg : KeepsRecords (.write io) s)
    (he : ProcessPool.writeStep s io = some t) : Framed t := by
  cases hp : s.parent with
  | idle => simp [ProcessPool.writeStep,hp] at he
  | exited => simp [ProcessPool.writeStep,hp] at he
  | growing i n caller => simp [ProcessPool.writeStep,hp] at he
  | writing a ntry cnt =>
    have hcnt := h.cnt a ntry cnt hp
    have hleft : cnt ∈ s.parent.left := by rw [hp]; rfl
    simp only [ProcessPool.writeStep,hp] at he
    obtain ⟨pass,hpass,rfl⟩ := Option.map_eq_some_iff.mp he
    cases pass with
    | loop k =>
      have hlt : k < cnt := by
        rcases timedwait_loop hpass with rfl | ⟨_,hk⟩
        · exact hcnt.1
        · exact hk
      have hsend := h.send hp k
      rw [if_neg hlt.ne] at hsend
      refine ⟨?_,?_⟩
      · have hmove := hsend.move (p := .writing a ntry (cnt-k)) fun b hb => by
          simpa [State.send,hp,Parent.current] using hb
        have hrest : recordSize-cnt+k = recordSize-(cnt-k) := by omega
        rw [hrest] at hmove
        exact hmove
      · rintro _ _ _ ⟨⟩
        omega
    | ret k rv =>
      have hsend := h.send hp k
      have hdone : (if k = cnt then [] else
          (cells s.calls.length a).take (recordSize-cnt+k)) = [] := by
        rcases timedwait_ret hpass with ⟨rfl,hf⟩ | ⟨_,_,hk,_⟩
        · rw [if_neg hcnt.1.ne,hg hf cnt hleft]
          rfl
        · rw [if_pos hk]
      rw [hdone] at hsend
      exact hsend.attempted (by simp [State.send,hp,Parent.current]) ntry rv

theorem readStep (h : Framed s) {w : ℕ} {io : Io} (hg : KeepsRecords (.read w io) s)
    (he : ProcessPool.readStep s w io = some t) : Framed t := by
  unfold ProcessPool.readStep at he
  split at he
  case h_2 => cases he
  case h_1 buf hw =>
    have hbuf : buffer s.workers w = buf := by simp [buffer,hw]
    split at he
    · -- the record is not complete yet
      rename_i k hpass
      split_ifs at he with hk
      cases he
      rcases timedwait_loop hpass with rfl | ⟨hm,hlt⟩
      · exact h.receive_nothing hw
      · exact h.receive hw (hg.1 hm) hlt
    · -- the record is complete
      rename_i k n hpass
      split_ifs at he with hk
      cases he
      rcases timedwait_ret hpass with ⟨rfl,_⟩ | ⟨hm,_,hlen,_⟩
      · exact absurd hk.1 (lt_irrefl 0)
      · exact h.execute hw (hg.1 hm) hlen hk.2
    · -- the worker exits
      rename_i k rv hcount hpass
      cases he
      have hnil : buf = [] := by
        rcases timedwait_ret hpass with ⟨_,hf⟩ | ⟨_,_,_,hrv⟩
        · exact hbuf ▸ hg.2 hf
        · exact (hcount recordSize hrv).elim
      rw [hnil] at hw
      exact h.exit hw
    · cases he

/-- Every step that keeps records together keeps the stream framed. -/
theorem step (h : Framed s) {a : Act} (hg : KeepsRecords a s)
    (he : exec a s = some t) : Framed t := by
  cases a with
  | write io => exact h.writeStep hg he
  | read w io => exact h.readStep hg he
  | ppPoolAdd padding func arg =>
    rw [exec] at he
    split_ifs at he with hp
    cases he
    have hnil : s.fragment = [] := by rw [State.fragment,hp]
    have hf := h.toFraming
    rw [hnil] at hf
    refine ⟨hf.move (by simp [hp,Parent.current]),?_⟩
    rintro _ _ _ ⟨⟩
    exact ⟨by decide,le_refl _⟩
  | ppPoolProcessAddn n =>
    rw [exec] at he
    split_ifs at he with hp
    cases he
    have hnil : s.fragment = [] := by rw [State.fragment,hp]
    have hf := h.toFraming
    rw [hnil] at hf
    exact ⟨hf.move (by simp [hp,Parent.current]),by rintro _ _ _ ⟨⟩⟩
  | fork forked =>
    cases hp : s.parent with
    | idle => simp [exec,hp] at he
    | exited => simp [exec,hp] at he
    | writing a ntry cnt => simp [exec,hp] at he
    | growing i n caller =>
      simp only [exec,hp,Option.some.injEq] at he
      subst he
      have hnil : s.fragment = [] := by rw [State.fragment,hp]
      have hf := h.toFraming
      rw [hnil] at hf
      have hpass : ∀ u : State,Framing u [] → u.parent = s.parent →
          Framed { u with parent := .growing (i+1) n caller } := by
        intro u hu hup
        refine ⟨hu.move fun b hb => ?_,by rintro _ _ _ ⟨⟩⟩
        rw [hup,hp] at hb
        cases caller <;> exact hb
      unfold State.ppPoolProcessAddn State.ppPoolProcessAddCore
      split_ifs
      · exact hpass s hf rfl
      · exact hpass s.fork hf.fork rfl
      · exact hf.addnReturn hp (-1)
      · exact hf.addnReturn hp 0

theorem start (pool : Pool) (n : ℤ) : Framed (.start pool n) where
  sent := rfl
  added := by simp [State.start]
  read := rfl
  executed := by simp [State.start]
  held_lt := (by decide : (held []).length < recordSize)
  cnt := by rintro _ _ _ ⟨⟩

theorem of_reach {pool : Pool} {n : ℤ} (hs : Reach (.start pool n) (Via KeepsRecords exec) s) :
    Framed s := by
  apply hs.invariant (.start pool n)
  rintro s t h ⟨a,hg,he⟩
  exact h.step hg he

theorem fragment_lt (h : Framed s) : s.fragment.length < recordSize := by
  cases hp : s.parent with
  | writing a ntry cnt =>
    have hcnt := h.cnt a ntry cnt hp
    simp only [State.fragment,hp,List.length_take,cells_length]
    omega
  | _ => simp [State.fragment,hp,recordSize]

/-- The workers completed the first of the records written; the others wait in the stream. -/
theorem records_eq (h : Framed s) :
    ∃ rs,records s.written = s.executed++records rs ∧ (∀ r ∈ rs,r ∈ s.written) ∧
      held s.workers++s.stream = (records rs).flatten++s.fragment := by
  have hsplit : s.executed.flatten++(held s.workers++s.stream) =
      (records s.written).flatten++s.fragment := by
    rw [← List.append_assoc,h.read,h.sent]
  obtain ⟨ds,hds,hrest⟩ :=
    flatten_append_eq h.executed (fun _ => records_length) h.fragment_lt hsplit
  obtain ⟨rs₁,rs₂,hrs,h₁,h₂⟩ := List.map_eq_append_iff.mp hds
  exact ⟨rs₂,by rw [hds,records,h₂],fun r hr => by simp [hrs,hr],by rw [hrest,records,h₂]⟩

end Framed

/-- An attempt to write a record is under way and part of it is out. -/
def Parent.midRecord : Parent → Bool
  | .writing _ _ cnt => cnt < recordSize
  | _ => false

/-- Outside an attempt the bytes no worker has completed are a whole number of records, and
every completed read is a record that some call of `pp_pool_add` wrote. -/
structure WholeRecords (s : State) : Prop where
  waiting : s.parent.midRecord = false →
    ∃ rs,(∀ r ∈ rs,s.Added r.1 r.2) ∧ held s.workers++s.stream = (records rs).flatten
  completed : ∀ b ∈ s.executed,∃ i a,s.Added i a ∧ b = cells i a

theorem Framed.wholeRecords {s : State} (h : Framed s) : WholeRecords s := by
  obtain ⟨rs,hw,hsub,hwait⟩ := h.records_eq
  constructor
  · intro hm
    have hnil : s.fragment = [] := by
      cases hp : s.parent with
      | writing a ntry cnt =>
        simp only [hp,Parent.midRecord,decide_eq_false_iff_not,not_lt] at hm
        simp only [State.fragment,hp,Nat.sub_eq_zero_of_le hm,List.take_zero]
      | _ => simp [State.fragment,hp]
    rw [hnil,List.append_nil] at hwait
    exact ⟨rs,fun r hr => h.added r (hsub r hr),hwait⟩
  · intro b hb
    have hmem : b ∈ records s.written := by
      rw [hw]
      exact List.mem_append_left _ hb
    obtain ⟨r,hr,rfl⟩ := List.mem_map.mp hmem
    exact ⟨r.1,r.2,h.added r hr,rfl⟩

/-- The framing of the stream in every run that keeps records together. -/
theorem stream_wholeRecords {pool : Pool} {n : ℤ} {s : State}
    (hs : Reach (.start pool n) (Via KeepsRecords exec) s) : WholeRecords s :=
  (Framed.of_reach hs).wholeRecords

theorem timedwait_fails {len cnt : ℕ} {msec : ℤ} {io : Io} {pass : Pass} (hf : io.fails)
    (h : timedwait len cnt msec io = some pass) : ∃ rv,pass = .ret 0 rv := by
  cases pass with
  | loop k =>
    cases io with
    | moved j =>
      have h0 : j = 0 := by simpa [Io.fails] using hf
      simp [timedwait,h0] at h
    | eintr => cases hf
    | error => cases h
    | again w =>
      cases w with
      | ready => cases hf
      | error => cases h
      | timeout => simp [timedwait] at h
  | ret k rv =>
    rcases timedwait_ret h with ⟨rfl,_⟩ | ⟨hm,hpos,_,_⟩
    · exact ⟨rv,rfl⟩
    · cases io with
      | moved j =>
        have h0 : j = 0 := by simpa [Io.fails] using hf
        simp [Io.moves,h0] at hm
      | _ => cases hm

/-- The body of the loop of `pp_pool_add` leaves the socket and the workers alone. -/
theorem attempted_frame (s : State) (a : ProcessArg) (ntry : ℕ) (rv : Rv) :
    (s.attempted a ntry rv).parent.midRecord = false ∧
      (s.attempted a ntry rv).workers = s.workers ∧ (s.attempted a ntry rv).stream = s.stream := by
  cases rv with
  | error => exact ⟨rfl,rfl,rfl⟩
  | count n =>
    simp only [State.attempted,State.next]
    split_ifs
    · exact ⟨rfl,rfl,rfl⟩
    · exact ⟨rfl,rfl,rfl⟩
  | timedout =>
    simp only [State.attempted]
    split_ifs
    · exact ⟨rfl,rfl,rfl⟩
    · exact ⟨rfl,rfl,rfl⟩

/-- An attempt that fails with part of its record out leaves the part behind. -/
theorem not_wholeRecords_of_fails {s t : State} (h : Framed s) {a : ProcessArg} {ntry cnt : ℕ}
    (hp : s.parent = .writing a ntry cnt) (hcnt : cnt < recordSize) {io : Io} (hf : io.fails)
    (he : writeStep s io = some t) : ¬WholeRecords t := by
  intro hw
  simp only [writeStep,hp] at he
  obtain ⟨pass,hpass,rfl⟩ := Option.map_eq_some_iff.mp he
  obtain ⟨rv,rfl⟩ := timedwait_fails hf hpass
  obtain ⟨hmid,hworkers,hstream⟩ := attempted_frame (s.send a cnt 0) a ntry rv
  obtain ⟨rs,_,hrs⟩ := hw.waiting hmid
  obtain ⟨rs',_,_,hrest⟩ := h.records_eq
  rw [hworkers,hstream] at hrs
  have hlen := congrArg List.length hrs
  have hlen' := congrArg List.length hrest
  have hpos := (h.cnt a ntry cnt hp).1
  simp only [State.send,State.fragment,hp,List.take_zero,List.append_nil,List.length_append,
    List.length_take,cells_length,records_flatten_length] at hlen hlen'
  unfold recordSize at *
  omega

/-- A record that leaves in two pieces, is sent again, and is read in two pieces. -/
def pieces : List Act :=
  growOnce++[.ppPoolAdd 0 7 9,.write (.moved 10),.write (.again .ready),.write (.moved 14),
    .write (.again .timeout),.read 0 (.moved 20),.read 0 (.moved 4)]

theorem stream_wholeRecords_pieces :
    ∃ s,path KeepsRecords exec pieces (.start onePool 1) = some s ∧
      s.executed = [cells 0 ⟨0,0,7,9⟩] ∧ WholeRecords s := by
  refine ⟨_,rfl,by decide,stream_wholeRecords (show Reach (State.start onePool 1) _ _ from ?_)⟩
  exact .of_path (l := pieces) .start rfl

/-- A timeout behind the tenth byte of a record. -/
def timeoutMidRecord : List Act :=
  growOnce++[.ppPoolAdd 0 7 9,.write (.moved 10),.write (.again .timeout)]

theorem stream_not_wholeRecords :
    ¬∀ (mem pool : Pool) (sys : Bool) (np n : ℤ) (ap : List Int32),
      ppPoolNew mem sys np ap = some (pool,n) →
        ∀ s,Reach (.start pool n) (Via (fun _ _ => True) exec) s → WholeRecords s := by
  intro h
  have hrun := h onePool onePool true 1 1 [] (by decide) _ (.of_path (l := timeoutMidRecord) .start rfl)
  obtain ⟨rs,_,hrs⟩ := hrun.waiting rfl
  have hlen : 10 = recordSize*rs.length := by
    rw [← records_flatten_length,← hrs]
    rfl
  unfold recordSize at hlen
  omega

/-- Workers read whole records. -/
def WholeReads : Act → State → Prop
  | .read _ (.moved k), _ => k = recordSize
  | _, _ => True

instance : ∀ a s,Decidable (WholeReads a s)
  | .read _ (.moved k), _ => inferInstanceAs (Decidable (k = recordSize))
  | .read _ .eintr, _ => isTrue trivial
  | .read _ (.again _), _ => isTrue trivial
  | .read _ .error, _ => isTrue trivial
  | .write _, _ => isTrue trivial
  | .ppPoolAdd _ _ _, _ => isTrue trivial
  | .ppPoolProcessAddn _, _ => isTrue trivial
  | .fork _, _ => isTrue trivial

/-- The record of the call under way has gone out as a whole. -/
def State.isSent (s : State) : Bool := 0 < (s.written.map Prod.fst).count s.calls.length

theorem isSent_eq_false {s : State} :
    s.isSent = false ↔ (s.written.map Prod.fst).count s.calls.length = 0 := by
  rw [State.isSent,decide_eq_false_iff_not,not_lt,Nat.le_zero]

/-- The call under way makes its last attempt. -/
def Parent.lastTry : Parent → Bool
  | .writing _ ntry _ => ntry ≤ 1
  | .growing _ _ (.add _ ntry) => ntry ≤ 1
  | _ => false

/-- The socket takes bytes of a record only until it has gone out once, an attempt fails
only while none of its bytes are out, and the last attempt ends without success only for a
record that has gone out. -/
def SendsOnce : Act → State → Prop
  | .write io, s =>
    (io.fails → ∀ cnt ∈ s.parent.left,cnt = recordSize) ∧ (io.moves → s.isSent = false) ∧
      (io = .moved 0 → s.parent.lastTry → s.isSent)
  | .fork _, s => s.parent.more = false → s.parent.lastTry → s.isSent
  | _, _ => True

instance : ∀ a s,Decidable (SendsOnce a s)
  | .write io, s => inferInstanceAs (Decidable
      ((io.fails → ∀ cnt ∈ s.parent.left,cnt = recordSize) ∧ (io.moves → s.isSent = false) ∧
        (io = .moved 0 → s.parent.lastTry → s.isSent)))
  | .fork _, s => inferInstanceAs (Decidable (s.parent.more = false → s.parent.lastTry → s.isSent))
  | .read _ _, _ => isTrue trivial
  | .ppPoolAdd _ _ _, _ => isTrue trivial
  | .ppPoolProcessAddn _, _ => isTrue trivial

/-- Every call that returned 0 has its record in the stream exactly once, where exactly one
worker has completed it or it still waits. -/
def Delivered (s : State) : Prop :=
  ∀ i c,s.calls[i]? = some c → c.result = 0 →
    (blocks recordSize s.sent).count (cells i c.record) = 1 ∧
      s.executed.count (cells i c.record)+
        (blocks recordSize s.stream).count (cells i c.record) = 1

/-- The calls that returned 0 wrote one record each, the call under way at most one. -/
structure Counted (s : State) : Prop where
  done : ∀ i c,s.calls[i]? = some c → c.result = 0 → (s.written.map Prod.fst).count i = 1
  current : (s.written.map Prod.fst).count s.calls.length ≤ 1

theorem State.Added.le {s : State} {i : ℕ} {a : ProcessArg} (h : s.Added i a) :
    i ≤ s.calls.length := by
  rcases h with h | ⟨rfl,_⟩
  · by_contra hgt
    rw [List.getElem?_eq_none (by omega)] at h
    cases h
  · exact le_refl _

namespace Counted
variable {s t : State} {a : ProcessArg}

theorem congr (h : Counted s) (hw : t.written = s.written) (hc : t.calls = s.calls) :
    Counted t := ⟨by rw [hw,hc]; exact h.done,by rw [hw,hc]; exact h.current⟩

theorem leave (h : Counted s) (hle : ∀ r ∈ s.written,r.1 ≤ s.calls.length) {result : ℤ}
    (hr : result = 0 → (s.written.map Prod.fst).count s.calls.length = 1) :
    Counted (s.leave a result) where
  done i c hc h0 := by
    simp only [State.leave] at hc ⊢
    rcases lt_trichotomy i s.calls.length with hlt | rfl | hgt
    · rw [List.getElem?_append_left hlt] at hc
      exact h.done i c hc h0
    · simp only [List.getElem?_concat_length,Option.some.injEq] at hc
      subst hc
      exact hr h0
    · rw [List.getElem?_eq_none (by rw [List.length_append,List.length_singleton]; omega)] at hc
      cases hc
  current := by
    have hnew : s.calls.length+1 ∉ s.written.map Prod.fst := by
      intro hmem
      obtain ⟨r,hr,he⟩ := List.mem_map.mp hmem
      have := hle r hr
      omega
    simp only [State.leave,List.length_append,List.length_singleton]
    rw [List.count_eq_zero_of_not_mem hnew]
    exact Nat.zero_le 1

theorem next (h : Counted s) (hle : ∀ r ∈ s.written,r.1 ≤ s.calls.length) {ntry : ℕ}
    (hl : ntry ≤ 1 → (s.written.map Prod.fst).count s.calls.length = 1) :
    Counted (s.next a ntry) := by
  unfold State.next
  split_ifs with hn
  · exact h.congr rfl rfl
  · exact h.leave hle fun _ => hl (by omega)

theorem attempted (h : Counted s) (hle : ∀ r ∈ s.written,r.1 ≤ s.calls.length) {ntry : ℕ} {rv : Rv}
    (hl : ∀ m,rv = .count m → ntry ≤ 1 → (s.written.map Prod.fst).count s.calls.length = 1) :
    Counted (s.attempted a ntry rv) := by
  cases rv with
  | count m => exact h.next hle (hl m rfl)
  | error => exact h.leave hle fun h0 => absurd h0 (by decide)
  | timedout =>
    simp only [State.attempted]
    split_ifs
    · exact h.congr rfl rfl
    · exact h.leave hle fun h0 => absurd h0 (by decide)

theorem addnReturn (h : Counted s) (hle : ∀ r ∈ s.written,r.1 ≤ s.calls.length) {rv : ℤ}
    {caller : Caller} (hl : rv ≠ PP_ERROR → ∀ a ntry,caller = .add a ntry → ntry ≤ 1 →
      (s.written.map Prod.fst).count s.calls.length = 1) : Counted (s.addnReturn rv caller) := by
  cases caller with
  | new => exact h.congr rfl rfl
  | user => exact h.congr rfl rfl
  | add a ntry =>
    by_cases hrv : rv = PP_ERROR
    · rw [State.addnReturn,if_pos hrv]
      exact h.leave hle fun h0 => absurd h0 (by decide)
    · rw [State.addnReturn,if_neg hrv]
      exact h.next hle (hl hrv a ntry rfl)

/-- A first whole copy of the record under way. -/
theorem send (h : Counted s) {cnt k : ℕ} (hk : k = cnt → s.isSent = false) :
    Counted (s.send a cnt k) := by
  by_cases hkc : k = cnt
  · have hzero : (s.written.map Prod.fst).count s.calls.length = 0 :=
      isSent_eq_false.mp (hk hkc)
    constructor
    · intro i c hc h0
      have hlt : i < s.calls.length := (List.getElem?_eq_some_iff.mp hc).1
      simpa [State.send,hkc,List.count_singleton,hlt.ne'] using h.done i c hc h0
    · simp [State.send,hkc,hzero]
  · exact h.congr (by simp [State.send,hkc]) rfl

theorem count_send {cnt k : ℕ} (hk : k = cnt → s.isSent = false) (hc : k = cnt) :
    ((s.send a cnt k).written.map Prod.fst).count s.calls.length = 1 := by
  have hzero : (s.written.map Prod.fst).count s.calls.length = 0 :=
    isSent_eq_false.mp (hk hc)
  simp [State.send,hc,hzero]

theorem eq_one (h : Counted s) (hs : s.isSent) :
    (s.written.map Prod.fst).count s.calls.length = 1 := by
  have hpos : 0 < (s.written.map Prod.fst).count s.calls.length := of_decide_eq_true hs
  have := h.current
  omega

theorem writeStep (h : Counted s) (hf : Framed s) {io : Io} (hg : SendsOnce (.write io) s)
    (he : ProcessPool.writeStep s io = some t) : Counted t := by
  cases hp : s.parent with
  | idle => simp [ProcessPool.writeStep,hp] at he
  | exited => simp [ProcessPool.writeStep,hp] at he
  | growing i n caller => simp [ProcessPool.writeStep,hp] at he
  | writing a ntry cnt =>
    have hcnt := hf.cnt a ntry cnt hp
    simp only [ProcessPool.writeStep,hp] at he
    obtain ⟨pass,hpass,rfl⟩ := Option.map_eq_some_iff.mp he
    cases pass with
    | loop k =>
      have hlt : k < cnt := by
        rcases timedwait_loop hpass with rfl | ⟨_,hk⟩
        · exact hcnt.1
        · exact hk
      exact (h.send (a := a) fun hk => absurd hk hlt.ne).congr rfl rfl
    | ret k rv =>
      have honce : k = cnt → s.isSent = false := by
        rintro rfl
        rcases timedwait_ret hpass with ⟨rfl,_⟩ | ⟨hm,_,_,_⟩
        · exact absurd hcnt.1 (lt_irrefl 0)
        · exact hg.2.1 hm
      have hle : ∀ r ∈ (s.send a cnt k).written,r.1 ≤ (s.send a cnt k).calls.length :=
        fun r hr => ((hf.send hp k).added r hr).le
      apply (h.send honce).attempted hle
      rintro m rfl hntry
      rcases timedwait_ret hpass with ⟨rfl,hfail⟩ | ⟨_,_,hk,_⟩
      · have hzero : io = .moved 0 := timedwait_count_zero hfail hpass
        have hsent := h.eq_one (hg.2.2 hzero (by simpa [hp,Parent.lastTry] using hntry))
        simpa [State.send,hcnt.1.ne] using hsent
      · exact count_send honce hk

theorem step (h : Counted s) (hf : Framed s) {a : Act} (hg : SendsOnce a s)
    (he : exec a s = some t) : Counted t := by
  cases a with
  | write io => exact h.writeStep hf hg he
  | read w io => exact h.congr (readStep_frame he).2.1 (readStep_frame he).2.2
  | ppPoolAdd padding func arg =>
    rw [exec] at he
    split_ifs at he
    cases he
    exact h.congr rfl rfl
  | ppPoolProcessAddn n =>
    rw [exec] at he
    split_ifs at he
    cases he
    exact h.congr rfl rfl
  | fork forked =>
    cases hp : s.parent with
    | idle => simp [exec,hp] at he
    | exited => simp [exec,hp] at he
    | writing a ntry cnt => simp [exec,hp] at he
    | growing i n caller =>
      simp only [exec,hp,Option.some.injEq] at he
      subst he
      have hle : ∀ r ∈ s.written,r.1 ≤ s.calls.length := fun r hr => (hf.added r hr).le
      unfold State.ppPoolProcessAddn State.ppPoolProcessAddCore
      split_ifs with hi
      · exact h.congr rfl rfl
      · exact h.congr rfl rfl
      · exact h.addnReturn hle fun hrv => absurd rfl hrv
      · apply h.addnReturn hle
        rintro _ a ntry rfl hntry
        exact h.eq_one (hg (by simp [hp,Parent.more,hi]) (by simpa [hp,Parent.lastTry] using hntry))

end Counted

/-- No worker is in the middle of a record. -/
def AllEmpty (s : State) : Prop := ∀ w,buffer s.workers w = []

theorem buffer_concat (ws : List (Option (List Cell))) (w : ℕ) :
    buffer (ws++[some []]) w = buffer ws w := by
  rcases lt_trichotomy w ws.length with hlt | rfl | hgt
  · rw [buffer,buffer,List.getElem?_append_left hlt]
  · simp [buffer]
  · have h₁ : (ws++[some []])[w]? = none := List.getElem?_eq_none (by simp; omega)
    have h₂ : ws[w]? = none := List.getElem?_eq_none (by omega)
    rw [buffer,buffer,h₁,h₂]

theorem buffer_set {ws : List (Option (List Cell))} {w : ℕ} {b : Option (List Cell)}
    (hb : b.getD [] = []) (h : ∀ v,buffer ws v = []) (v : ℕ) : buffer (ws.set w b) v = [] := by
  rw [buffer,List.getElem?_set]
  split_ifs
  · simpa using hb
  · rfl
  · exact h v

/-- A worker that reads whole records is never in the middle of one. -/
theorem AllEmpty.readStep {s t : State} (h : AllEmpty s) {w : ℕ} {io : Io}
    (hg : WholeReads (.read w io) s) (he : ProcessPool.readStep s w io = some t) : AllEmpty t := by
  unfold ProcessPool.readStep at he
  split at he
  case h_2 => cases he
  case h_1 buf hw =>
    have hbuf : buf = [] := by simpa [buffer,hw] using h w
    subst hbuf
    split at he
    · rename_i k hpass
      split_ifs at he
      cases he
      have hk : k = 0 := by
        cases io with
        | moved j =>
          have hj : j = recordSize := hg
          subst hj
          simp [readnTimedwait,timedwait,recordSize] at hpass
        | _ =>
          rcases timedwait_loop hpass with hk | ⟨hm,_⟩
          · exact hk
          · cases hm
      exact buffer_set (by simp [hk]) h
    · split_ifs at he
      cases he
      exact buffer_set rfl h
    · cases he
      exact buffer_set rfl h
    · cases he

theorem next_workers (s : State) (a : ProcessArg) (ntry : ℕ) :
    (s.next a ntry).workers = s.workers := by
  unfold State.next
  split_ifs <;> rfl

theorem addnReturn_workers (s : State) (rv : ℤ) (caller : Caller) :
    (s.addnReturn rv caller).workers = s.workers := by
  cases caller with
  | new => rfl
  | user => rfl
  | add a ntry =>
    by_cases hrv : rv = PP_ERROR
    · rw [State.addnReturn,if_pos hrv]
      rfl
    · rw [State.addnReturn,if_neg hrv,next_workers]

/-- The parent leaves the workers alone, but for one it forks. -/
theorem exec_workers {s t : State} {a : Act} (hr : ∀ w io,a ≠ .read w io) (he : exec a s = some t) :
    t.workers = s.workers ∨ t.workers = s.workers++[some []] := by
  cases a with
  | read w io => exact absurd rfl (hr w io)
  | ppPoolAdd padding func arg =>
    rw [exec] at he
    split_ifs at he
    cases he
    exact .inl rfl
  | ppPoolProcessAddn n =>
    rw [exec] at he
    split_ifs at he
    cases he
    exact .inl rfl
  | write io =>
    simp only [exec,writeStep] at he
    split at he
    · obtain ⟨pass,_,rfl⟩ := Option.map_eq_some_iff.mp he
      cases pass with
      | loop k => exact .inl rfl
      | ret k rv => exact .inl (attempted_frame _ _ _ rv).2.1
    · cases he
  | fork forked =>
    simp only [exec] at he
    split at he
    · cases he
      unfold State.ppPoolProcessAddn State.ppPoolProcessAddCore
      split_ifs
      · exact .inl rfl
      · exact .inr rfl
      · exact .inl (addnReturn_workers s _ _)
      · exact .inl (addnReturn_workers s _ _)
    · cases he

theorem AllEmpty.step {s t : State} (h : AllEmpty s) {a : Act} (hg : WholeReads a s)
    (he : exec a s = some t) : AllEmpty t := by
  have hkeep : (∀ w io,a ≠ .read w io) → AllEmpty t := by
    intro hr w
    rcases exec_workers hr he with hw | hw
    · rw [hw]
      exact h w
    · rw [hw,buffer_concat]
      exact h w
  cases a with
  | read w io => exact h.readStep hg he
  | _ =>
    apply hkeep
    intro w io hread
    cases hread

/-- Workers that read whole records keep records together if the socket does. -/
theorem keepsRecords_of_allEmpty {s : State} (h : AllEmpty s) {a : Act} (hg : SendsOnce a s) :
    KeepsRecords a s := by
  cases a with
  | write io => exact hg.1
  | read w io => exact ⟨fun _ v _ _ => h v,fun _ => h w⟩
  | _ => trivial

/-- The invariant of the runs in which every record goes out once. -/
theorem once_of_reach {pool : Pool} {n : ℤ} {s : State}
    (hs : Reach (.start pool n) (Via (fun a s => WholeReads a s ∧ SendsOnce a s) exec) s) :
    Framed s ∧ Counted s ∧ AllEmpty s := by
  apply hs.invariant (I := fun s => Framed s ∧ Counted s ∧ AllEmpty s)
  · refine ⟨.start pool n,⟨?_,?_⟩,?_⟩
    · simp [State.start]
    · simp [State.start]
    · intro w
      rfl
  · rintro s t ⟨hf,hc,hempty⟩ ⟨a,⟨hwhole,honce⟩,he⟩
    exact ⟨hf.step (keepsRecords_of_allEmpty hempty honce) he,hc.step hf honce he,
      hempty.step hwhole he⟩

theorem count_records {rs : List (ℕ × ProcessArg)} {i : ℕ} {a : ProcessArg}
    (h : ∀ r ∈ rs,r.1 = i → r.2 = a) :
    (records rs).count (cells i a) = (rs.map Prod.fst).count i := by
  induction rs with
  | nil => rfl
  | cons r rs ih =>
    have hrec : cells r.1 r.2 = cells i a ↔ r.1 = i := by
      rw [cells_inj]
      exact ⟨And.left,fun hi => ⟨hi,h r (by simp) hi⟩⟩
    have hrs := ih fun r' hr' => h r' (by simp [hr'])
    have hcons : records (r::rs) = cells r.1 r.2::records rs := rfl
    by_cases hi : r.1 = i
    · rw [hcons,hrec.mpr hi,List.count_cons_self,List.map_cons,hi,List.count_cons_self,hrs]
    · rw [hcons,List.count_cons_of_ne (fun he => hi (hrec.mp he)),List.map_cons,
        List.count_cons_of_ne hi,hrs]

/-- The delivery of the calls that returned 0. -/
theorem delivered_of_sendsOnce {pool : Pool} {n : ℤ} {s : State}
    (hs : Reach (.start pool n) (Via (fun a s => WholeReads a s ∧ SendsOnce a s) exec) s) :
    Delivered s := by
  obtain ⟨hf,hc,hempty⟩ := once_of_reach hs
  intro i c hi h0
  obtain ⟨rs,hsplit,_,hrest⟩ := hf.records_eq
  have hpos : 0 < recordSize := by decide
  have hsent : blocks recordSize s.sent = records s.written := by
    rw [hf.sent]
    exact blocks_flatten hpos (fun _ => records_length) hf.fragment_lt
  have hstream : blocks recordSize s.stream = records rs := by
    rw [held_eq_nil fun w _ => hempty w,List.nil_append] at hrest
    rw [hrest]
    exact blocks_flatten hpos (fun _ => records_length) hf.fragment_lt
  have hcount : (records s.written).count (cells i c.record) = 1 := by
    rw [count_records,hc.done i c hi h0]
    intro r hr hri
    rcases hf.added r hr with ha | ⟨hlen,_⟩
    · rw [hri,hi] at ha
      exact (Option.some.inj ha).symm
    · have hlt := (List.getElem?_eq_some_iff.mp hi).1
      omega
  refine ⟨by rw [hsent,hcount],?_⟩
  rw [hstream,← List.count_append,← hsplit,hcount]

/-- When the last attempt succeeds as well, the record is in the stream twice. -/
theorem not_delivered_of_isSent {s t : State} (hf : Framed s) (hc : Counted s) {a : ProcessArg}
    (hp : s.parent = .writing a 1 recordSize) (hs : s.isSent)
    (he : writeStep s (.moved recordSize) = some t) : ¬Delivered t := by
  have hret : writenTimedwait recordSize recordSize s.pool.ms (.moved recordSize) =
      some (.ret recordSize (.count recordSize)) := by
    simp [writenTimedwait,timedwait,recordSize]
  simp only [writeStep,hp,hret,Option.map_some,Option.some.injEq] at he
  subst he
  intro hd
  have hsend := hf.send hp recordSize
  rw [if_pos rfl] at hsend
  have hdone := hd s.calls.length ⟨a,0⟩ (by simp [State.attempted,State.next,State.leave,State.send]) rfl
  have hsent : (s.send a recordSize recordSize).sent =
      (records (s.send a recordSize recordSize).written).flatten++[] := hsend.sent
  have hblocks : blocks recordSize (s.send a recordSize recordSize).sent =
      records (s.written++[(s.calls.length,a)]) := by
    rw [hsent,blocks_flatten (by decide) (fun _ => records_length) (by decide)]
    simp [State.send]
  have hcount := hdone.1
  change (blocks recordSize (s.send a recordSize recordSize).sent).count _ = 1 at hcount
  rw [hblocks,count_records] at hcount
  · have hone := hc.eq_one hs
    simp [hone] at hcount
  · intro r hr hri
    rcases List.mem_append.mp hr with hr | hr
    · rcases hf.added r hr with ha | ⟨_,ha⟩
      · rw [hri,List.getElem?_eq_none (le_refl _)] at ha
        cases ha
      · simpa [hp,Parent.current,eq_comm] using ha
    · rw [List.mem_singleton.mp hr]

/-- `pp_pool_new(1,0,PP_AUTO_ADD)`. -/
def autoPool : Pool := ⟨1,0,0,PP_AUTO_ADD,500⟩

/-- A record goes out with the first attempt, the second one times out. -/
def sentOnce : List Act :=
  growOnce++[.ppPoolAdd 0 7 9,.write (.moved 10),.write (.moved 14),.write (.again .timeout),
    .fork true,.fork true,.read 1 (.moved 24)]

theorem delivered_of_sendsOnce_auto :
    ∃ s,path (fun a s => WholeReads a s ∧ SendsOnce a s) exec sentOnce (.start autoPool 1) = some s ∧
      s.calls = [⟨⟨0,0,7,9⟩,0⟩] ∧ Delivered s := by
  refine ⟨_,rfl,by decide,delivered_of_sendsOnce (show Reach (State.start autoPool 1) _ _ from ?_)⟩
  exact .of_path (l := sentOnce) .start rfl

/-- Nothing goes wrong, and the record goes out with both attempts. -/
def sentTwice : List Act := growOnce++[.ppPoolAdd 0 7 9,.write (.moved 24),.write (.moved 24)]

theorem not_delivered :
    ¬∀ (mem pool : Pool) (sys : Bool) (np n : ℤ) (ap : List Int32),
      ppPoolNew mem sys np ap = some (pool,n) →
        ∀ s,Reach (.start pool n) (Via WholeReads exec) s → Delivered s := by
  intro h
  have hrun := h onePool onePool true 1 1 [] (by decide) _ (.of_path (l := sentTwice) .start rfl)
  have hc := hrun 0 ⟨⟨0,0,7,9⟩,0⟩ (by decide) rfl
  exact absurd hc.1 (by decide)

end ProcessPool
end RecycleBin
