import RecycleBin.AeLoop

/-! What a sequence of file-event calls should leave in the table, against what it
leaves: the bits `DeleteFileEvent` takes away stay in the table. -/
namespace RecycleBin
namespace Ae

variable {V S ε : Type} {api : Backend S ε}

def wantedStep (fd : ℕ) (m : Action) : FileCall V → Action
  | .create fd' mask _ _ => if fd' = fd then m ||| mask else m
  | .delete fd' mask => if fd' = fd then m &&& ~~~mask else m

/-- The union of the masks added for `fd` minus those deleted since. -/
def wanted (calls : List (FileCall V)) (fd : ℕ) : Action := calls.foldl (wantedStep fd) 0

def addedStep (fd : ℕ) (m : Action) : FileCall V → Action
  | .create fd' mask _ _ => if fd' = fd then m ||| mask else m
  | .delete _ _ => m

/-- The union of all masks added for `fd`. -/
def added (calls : List (FileCall V)) (fd : ℕ) : Action := calls.foldl (addedStep fd) 0

/-- `GetFileEvents` and `maxFd` say what the calls should leave. -/
structure TableRight (el : EventLoop V S) (calls : List (FileCall V)) : Prop where
  masks : ∀ fd < el.setSize, getFileEvents el fd = wanted calls fd
  maxFd : (el.maxFd = -1 ∧ ∀ fd, wanted calls fd = 0) ∨
    ∃ fd : ℕ, el.maxFd = fd ∧ wanted calls fd ≠ 0 ∧ ∀ fd', fd < fd' → wanted calls fd' = 0

/-- Every bit a `DeleteFileEvent` takes from a descriptor is added to it again later, and
no descriptor of a `CreateFileEvent` is above all those some bit was added for. -/
structure Restored (calls : List (FileCall V)) : Prop where
  bits : ∀ pre fd mask post, calls = pre++.delete fd mask::post → ∀ i,
    (added pre fd).getLsbD i = true → mask.getLsbD i = true → (added post fd).getLsbD i = true
  top : ∀ fd mask proc clientData, .create fd mask proc clientData ∈ calls →
    ∃ fd', fd ≤ fd' ∧ added calls fd' ≠ 0

theorem wanted_concat (calls : List (FileCall V)) (c : FileCall V) (fd : ℕ) :
    wanted (calls++[c]) fd = wantedStep fd (wanted calls fd) c := by
  rw [wanted,List.foldl_concat,wanted]

theorem added_concat (calls : List (FileCall V)) (c : FileCall V) (fd : ℕ) :
    added (calls++[c]) fd = addedStep fd (added calls fd) c := by
  rw [added,List.foldl_concat,added]

/-- A bit deleted at some place and not added behind it. -/
def Lost (calls : List (FileCall V)) (fd i : ℕ) : Prop :=
  ∃ pre mask post, calls = pre++.delete fd mask::post ∧
    (added pre fd).getLsbD i = true ∧ mask.getLsbD i = true ∧ (added post fd).getLsbD i = false

theorem concat_eq_append_cons {α : Type} {calls pre post : List α} {c d : α} :
    calls++[c] = pre++d::post ↔
      (post = [] ∧ pre = calls ∧ d = c) ∨ ∃ post', post = post'++[c] ∧ calls = pre++d::post' := by
  constructor
  · intro h
    rcases List.eq_nil_or_concat' post with rfl | ⟨post',e,rfl⟩
    · obtain ⟨rfl,hc⟩ := List.append_inj' h rfl
      exact .inl ⟨rfl,rfl,(List.cons.inj hc).1.symm⟩
    · rw [← List.cons_append,← List.append_assoc] at h
      obtain ⟨rfl,hc⟩ := List.append_inj' h rfl
      rw [hc]
      exact .inr ⟨post',rfl,rfl⟩
  · rintro (⟨rfl,rfl,rfl⟩ | ⟨post',rfl,rfl⟩)
    · rfl
    · simp

theorem added_append (pre post : List (FileCall V)) (fd : ℕ) :
    added (pre++post) fd = added pre fd ||| added post fd := by
  induction post using List.reverseRecOn with
  | nil => simp [added]
  | append_singleton post c ih =>
    rw [← List.append_assoc,added_concat,added_concat,ih]
    cases c with
    | create fd' mask proc clientData =>
      rw [addedStep,addedStep]
      split
      · rw [BitVec.or_assoc]
      · rfl
    | delete fd' mask => rfl

theorem lost_concat_delete (calls : List (FileCall V)) (fd' fd i : ℕ) (mask : Action) :
    Lost (calls++[.delete fd' mask]) fd i ↔ Lost calls fd i ∨
      (fd' = fd ∧ (added calls fd).getLsbD i = true ∧ mask.getLsbD i = true) := by
  constructor
  · rintro ⟨pre,m,post,h,ha,hm,hp⟩
    rcases concat_eq_append_cons.mp h with ⟨rfl,rfl,hc⟩ | ⟨post',rfl,rfl⟩
    · cases hc
      exact .inr ⟨rfl,ha,hm⟩
    · rw [added_concat] at hp
      exact .inl ⟨pre,m,post',rfl,ha,hm,hp⟩
  · rintro (⟨pre,m,post,rfl,ha,hm,hp⟩ | ⟨rfl,ha,hm⟩)
    · refine ⟨pre,m,post++[.delete fd' mask],by simp,ha,hm,?_⟩
      rwa [added_concat]
    · exact ⟨calls,mask,[],rfl,ha,hm,by simp [added]⟩

theorem lost_concat_create (calls : List (FileCall V)) (fd' fd i : ℕ) (mask : Action)
    (proc clientData : V) :
    Lost (calls++[.create fd' mask proc clientData]) fd i ↔
      Lost calls fd i ∧ ¬(fd' = fd ∧ mask.getLsbD i = true) := by
  constructor
  · rintro ⟨pre,m,post,h,ha,hm,hp⟩
    rcases concat_eq_append_cons.mp h with ⟨-,-,hc⟩ | ⟨post',rfl,rfl⟩
    · cases hc
    · rw [added_concat,addedStep] at hp
      split at hp
      · rw [BitVec.getLsbD_or,Bool.or_eq_false_iff] at hp
        exact ⟨⟨pre,m,post',rfl,ha,hm,hp.1⟩,fun h => by simp [h.2] at hp⟩
      · rename_i hne
        exact ⟨⟨pre,m,post',rfl,ha,hm,hp⟩,fun h => hne h.1⟩
  · rintro ⟨⟨pre,m,post,rfl,ha,hm,hp⟩,hn⟩
    refine ⟨pre,m,post++[.create fd' mask proc clientData],by simp,ha,hm,?_⟩
    rw [added_concat,addedStep]
    split
    · rename_i h
      rw [BitVec.getLsbD_or,hp,Bool.false_or,← Bool.not_eq_true]
      exact fun hb => hn ⟨h,hb⟩
    · exact hp

/-- What is wanted is what was added and not lost. -/
theorem wanted_getLsbD (calls : List (FileCall V)) (fd i : ℕ) :
    (wanted calls fd).getLsbD i = true ↔
      (added calls fd).getLsbD i = true ∧ ¬Lost calls fd i := by
  induction calls using List.reverseRecOn with
  | nil => simp [wanted,added]
  | append_singleton calls c ih =>
    rw [wanted_concat,added_concat]
    cases c with
    | create fd' mask proc clientData =>
      rw [lost_concat_create,wantedStep,addedStep]
      split
      · simp only [BitVec.getLsbD_or,Bool.or_eq_true,ih]
        tauto
      · rw [ih]
        tauto
    | delete fd' mask =>
      rw [lost_concat_delete,wantedStep,addedStep]
      split
      · have hlt : (added calls fd).getLsbD i = true → i < 8 := BitVec.lt_of_getLsbD
        simp only [BitVec.getLsbD_and,BitVec.getLsbD_not,Bool.and_eq_true,
          Bool.not_eq_true',ih,decide_eq_true_eq]
        cases hm : mask.getLsbD i <;> tauto
      · rw [ih]
        tauto

theorem wanted_and_added (calls : List (FileCall V)) (fd : ℕ) :
    wanted calls fd &&& added calls fd = wanted calls fd := by
  refine BitVec.eq_of_getLsbD_eq fun i _ => ?_
  have hw := wanted_getLsbD calls fd i
  rw [BitVec.getLsbD_and,Bool.and_eq_left_iff_imp]
  exact fun h => (hw.mp h).1

theorem wanted_eq_zero {calls : List (FileCall V)} {fd : ℕ} (h : added calls fd = 0) :
    wanted calls fd = 0 := by
  rw [← wanted_and_added,h]
  exact BitVec.and_zero

theorem wanted_eq_added_iff (calls : List (FileCall V)) :
    (∀ fd, wanted calls fd = added calls fd) ↔ ∀ fd i, ¬Lost calls fd i := by
  constructor
  · intro h fd i hl
    have hadded : (added calls fd).getLsbD i = true := by
      obtain ⟨pre,mask,post,rfl,ha,-,-⟩ := hl
      rw [added_append,BitVec.getLsbD_or,ha,Bool.true_or]
    rw [← h fd] at hadded
    exact ((wanted_getLsbD calls fd i).mp hadded).2 hl
  · intro h fd
    refine BitVec.eq_of_getLsbD_eq fun i hi => ?_
    rw [Bool.eq_iff_iff,wanted_getLsbD]
    exact and_iff_left (h fd i)

/-- What the calls so far have left. -/
structure Table (el : EventLoop V S) (calls : List (FileCall V)) : Prop where
  masks : ∀ fd, getFileEvents el fd = added calls fd
  low : -1 ≤ el.maxFd
  above : ∀ fd : ℕ, el.maxFd < fd → wanted calls fd = 0
  made : ∀ fd : ℕ, el.maxFd = fd → added calls fd = 0 →
    ∃ mask proc clientData, .create fd mask proc clientData ∈ calls
  reached : ∀ (fd : ℕ) mask proc clientData, .create fd mask proc clientData ∈ calls →
    fd ≤ el.maxFd ∨ ∃ fd', fd ≤ fd' ∧ added calls fd' ≠ 0

theorem table_create (setSize : ℕ) (apidata : S) : Table (create setSize apidata : EventLoop V S) [] where
  masks fd := by
    rw [getFileEvents]
    split
    · simp [create,FileEvent.zero,NONE,added]
    · simp [added]
  low := le_rfl
  above _ _ := rfl
  made fd h := by simp [create] at h
  reached _ _ _ _ h := by cases h

theorem added_concat_ne {calls : List (FileCall V)} (c : FileCall V) {fd : ℕ}
    (h : added calls fd ≠ 0) : added (calls++[c]) fd ≠ 0 := by
  rw [added_append]
  exact fun h0 => h (BitVec.or_eq_zero_iff.mp h0).1

theorem Table.createFileEvent {el el' : EventLoop V S} {calls : List (FileCall V)} {fd : ℕ}
    {mask : Action} {proc clientData : V} (t : Table el calls)
    (h : createFileEvent api el fd mask proc clientData = .ok el') :
    Table el' (calls++[.create fd mask proc clientData]) := by
  obtain ⟨-,-,hmax,hget⟩ := createFileEvent_ok h
  have hlow := t.low
  constructor
  · intro fd'
    rw [hget,added_concat,addedStep,t.masks]
  · omega
  · intro fd' hfd'
    rw [wanted_concat,wantedStep,if_neg (by omega)]
    exact t.above fd' (by omega)
  · intro fd' hfd' hzero
    rcases eq_or_ne fd fd' with rfl | hne
    · exact ⟨mask,proc,clientData,by simp⟩
    · have hz : added calls fd' = 0 := by
        by_contra hz
        exact added_concat_ne _ hz hzero
      obtain ⟨m,p,d,hm⟩ := t.made fd' (by omega) hz
      exact ⟨m,p,d,by simp [hm]⟩
  · intro fd' m p d hm
    rcases List.mem_append.mp hm with hm | hm
    · rcases t.reached fd' m p d hm with hle | ⟨fd₂,hle,hne⟩
      · exact .inl (by omega)
      · exact .inr ⟨fd₂,hle,added_concat_ne _ hne⟩
    · cases List.mem_singleton.mp hm
      exact .inl (by omega)

theorem Table.deleteFileEvent {el : EventLoop V S} {calls : List (FileCall V)} (t : Table el calls)
    (fd : ℕ) (mask : Action) :
    Table (deleteFileEvent api el fd mask) (calls++[.delete fd mask]) := by
  obtain ⟨-,hget,hcases⟩ := deleteFileEvent_cases api el fd mask
  have hadded : ∀ fd', added (calls++[.delete fd mask]) fd' = added calls fd' :=
    fun fd' => added_concat calls _ fd'
  have hmem : ∀ fd' m p d, (.create fd' m p d ∈ calls++[FileCall.delete fd mask]) ↔
      .create fd' m p d ∈ calls := fun fd' m p d => by simp
  have hwanted : ∀ fd', wanted calls fd' = 0 → wanted (calls++[.delete fd mask]) fd' = 0 := by
    intro fd' h
    rw [wanted_concat,wantedStep,h]
    simp
  have hlow := t.low
  constructor
  · intro fd'
    rw [hget,hadded,t.masks]
  · rcases hcases with ⟨hmax,-⟩ | ⟨-,-,-,hle,hmax⟩
    · omega
    · rw [hmax]
      exact neg_one_le_lastEvent _ _ _
  · intro fd' hfd'
    rcases hcases with ⟨hmax,-⟩ | ⟨he,-,hnone,hle,hmax⟩
    · exact hwanted fd' (t.above fd' (by omega))
    · rcases lt_trichotomy fd' fd with hlt | rfl | hgt
      · -- the scan has passed this entry
        refine hwanted fd' (wanted_eq_zero ?_)
        have hentry := lastEvent_none el.events fd hle fd' (by omega) hlt
        rw [← t.masks,getFileEvents,dif_pos (by omega),hentry]
        rfl
      · rw [wanted_concat,wantedStep,if_pos rfl]
        rw [t.masks] at hnone
        rw [← wanted_and_added,BitVec.and_assoc,hnone]
        exact BitVec.and_zero
      · exact hwanted fd' (t.above fd' (by omega))
  · intro fd' hfd' hzero
    rw [hadded] at hzero
    simp only [hmem]
    rcases hcases with ⟨hmax,-⟩ | ⟨-,-,-,hle,hmax⟩
    · exact t.made fd' (by omega) hzero
    · have hlt := lastEvent_lt el.events fd hle
      have hentry := lastEvent_some el.events fd hle fd' (by omega) (by omega)
      rw [← t.masks,getFileEvents,dif_pos (by omega)] at hzero
      exact absurd hzero hentry
  · intro fd' m p d hm
    simp only [hadded]
    rcases t.reached fd' m p d ((hmem ..).mp hm) with hle | hex
    · rcases hcases with ⟨hmax,-⟩ | ⟨he,hsome,-⟩
      · exact .inl (by omega)
      · rw [t.masks] at hsome
        exact .inr ⟨fd,by omega,hsome⟩
    · exact .inr hex

theorem table_runFiles {el el' : EventLoop V S} {pre calls : List (FileCall V)} (t : Table el pre)
    (h : runFiles api el calls = .ok el') : Table el' (pre++calls) := by
  induction calls generalizing el pre with
  | nil =>
    cases h
    rwa [List.append_nil]
  | cons c calls ih =>
    rw [List.append_cons]
    cases c with
    | create fd mask proc clientData =>
      rw [runFiles,List.foldlM_cons,FileCall.exec] at h
      cases hc : createFileEvent api el fd mask proc clientData with
      | error err => simp [hc,bind,Except.bind] at h
      | ok el₁ =>
        rw [hc] at h
        exact ih (t.createFileEvent hc) h
    | delete fd mask => exact ih (t.deleteFileEvent fd mask) h

theorem Table.wanted_eq_added {el : EventLoop V S} {calls : List (FileCall V)} (t : Table el calls)
    (h : TableRight el calls) (fd : ℕ) : wanted calls fd = added calls fd := by
  by_cases hfd : fd < el.setSize
  · rw [← h.masks fd hfd,t.masks]
  · have hzero : added calls fd = 0 := by rw [← t.masks,getFileEvents,dif_neg hfd]
    rw [wanted_eq_zero hzero,hzero]

theorem Table.restored {el : EventLoop V S} {calls : List (FileCall V)} (t : Table el calls)
    (h : TableRight el calls) : Restored calls := by
  have heq := t.wanted_eq_added h
  constructor
  · intro pre fd mask post hc i ha hm
    by_contra hp
    exact (wanted_eq_added_iff calls).mp heq fd i
      ⟨pre,mask,post,hc,ha,hm,Bool.eq_false_iff.mpr hp⟩
  · intro fd mask proc clientData hc
    rcases t.reached fd mask proc clientData hc with hle | hex
    · rcases h.maxFd with ⟨hmax,-⟩ | ⟨top,hmax,hne,-⟩
      · omega
      · rw [heq] at hne
        exact ⟨top,by omega,hne⟩
    · exact hex

theorem Table.right {el : EventLoop V S} {calls : List (FileCall V)} (t : Table el calls)
    (h : Restored calls) : TableRight el calls := by
  have heq : ∀ fd, wanted calls fd = added calls fd := by
    refine (wanted_eq_added_iff calls).mpr ?_
    rintro fd i ⟨pre,mask,post,hc,ha,hm,hp⟩
    rw [h.bits pre fd mask post hc i ha hm] at hp
    cases hp
  refine ⟨fun fd _ => by rw [t.masks,heq],?_⟩
  have hlow := t.low
  rcases Int.eq_ofNat_of_zero_le (a := el.maxFd+1) (by omega) with ⟨k,hk⟩
  cases k with
  | zero => exact .inl ⟨by omega,fun fd => t.above fd (by omega)⟩
  | succ top =>
    have hmax : el.maxFd = top := by omega
    refine .inr ⟨top,hmax,?_,fun fd hfd => t.above fd (by omega)⟩
    intro hzero
    rw [heq] at hzero
    obtain ⟨mask,proc,clientData,hc⟩ := t.made top hmax hzero
    obtain ⟨fd,hle,hne⟩ := h.top top mask proc clientData hc
    rcases hle.eq_or_lt with rfl | hlt
    · exact hne hzero
    · exact hne (by rw [← heq,t.above fd (by omega)])

/-- The table is right after a sequence of calls exactly if every bit taken away is added
again later and no empty mask was put above all others. -/
theorem table_right_iff (api : Backend S ε) (setSize : ℕ) (apidata : S) (calls : List (FileCall V))
    (el : EventLoop V S) (h : runFiles api (create setSize apidata) calls = .ok el) :
    TableRight el calls ↔ Restored calls := by
  have t : Table el calls := table_runFiles (table_create setSize apidata) h
  exact ⟨t.restored,t.right⟩

/-- One bit of two is taken away and added again. -/
def restoredCalls : List (FileCall Unit) :=
  [.create 0 READABLE () (),.create 1 (READABLE ||| WRITABLE) () (),.delete 1 WRITABLE,
    .create 1 WRITABLE () ()]

theorem restored_restoredCalls : Restored restoredCalls where
  bits pre fd mask post h i ha hm := by
    rcases pre with _ | ⟨a,_ | ⟨b,_ | ⟨c,_ | ⟨d,pre⟩⟩⟩⟩
    all_goals simp [restoredCalls] at h
    obtain ⟨-,-,⟨rfl,rfl⟩,rfl⟩ := h
    simpa [added,addedStep] using hm
  top fd mask proc clientData h := by
    refine ⟨1,?_,by decide⟩
    simp [restoredCalls] at h
    omega

theorem table_right_iff_restoredCalls :
    ∃ el, runFiles epoll (create 2 []) restoredCalls = .ok el ∧ TableRight el restoredCalls := by
  obtain ⟨el,h⟩ : ∃ el, runFiles epoll (create 2 []) restoredCalls = .ok el := ⟨_,rfl⟩
  exact ⟨el,h,(table_right_iff epoll 2 [] restoredCalls el h).mpr restored_restoredCalls⟩

/-- A deleted event is still in the table. -/
theorem deleted_event_stays :
    ∃ el, runFiles epoll (create 1 []) [.create 0 READABLE () (),.delete 0 READABLE] = .ok el ∧
      ¬TableRight el [.create 0 READABLE () (),.delete 0 READABLE] := by
  refine ⟨_,rfl,fun h => ?_⟩
  have hmask := h.masks 0 (by decide)
  revert hmask
  decide

end Ae
end RecycleBin
