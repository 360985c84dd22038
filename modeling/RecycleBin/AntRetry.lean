import RecycleBin.AntHead

/-! Downloads that are tried again. `do_error` connects anew and resets the status; the
other fields stay as the failed connection left them. -/
namespace RecycleBin
namespace AntHttp
open AntHash (Bytes cstr)
open AntBuf hiding Bytes
open AntSocket hiding Bytes
open CString

/-! ### The descriptor and the number of tries -/

/-- The same download on another connection. -/
def retag (fd : ℤ) (k : ℕ) (http : HttpInfo) : HttpInfo := { http with fd := fd,tryNum := k }

section Retag
variable {mem : Memory} {http : HttpInfo} {s : Sock} {fd : ℤ} {k : ℕ}

def retagPart (fd : ℤ) (k : ℕ) (x : Part) : Part := x.map fun r => (r.1,retag fd k r.2.1,r.2.2)

theorem map_bind {ε α β γ : Type} (x : Except ε α) (f : α → Except ε β) (g : β → γ) :
    (x >>= f).map g = (x >>= fun a => (f a).map g) := by
  cases x <;> rfl

theorem appendPage_retag {bs : Bytes} :
    appendPage mem (retag fd k http) bs = (appendPage mem http bs).map (retag fd k) := by
  rw [appendPage,appendPage]
  split
  · rfl
  · show (ofFault (antBufAppend mem http.page bs) >>= _) = _
    cases antBufAppend mem http.page bs <;> rfl

theorem readSize_retag {len : ℕ} :
    readSize (retag fd k http) s len = retagPart fd k (readSize http s len) := by
  rw [readSize,readSize,retagPart,map_bind]
  congr 1
  funext x
  obtain ⟨r,t⟩ := x
  cases r <;> rfl

theorem chunkSize_retag : chunkSize (retag fd k http) s = retagPart fd k (chunkSize http s) := by
  rw [chunkSize,chunkSize]
  by_cases h : http.chunkhead ≠ 0
  · have h' : (retag fd k http).chunkhead ≠ 0 := h
    rw [if_pos h,if_pos h']
    rfl
  · have h' : ¬(retag fd k http).chunkhead ≠ 0 := h
    rw [if_neg h,if_neg h',retagPart,map_bind]
    congr 1
    funext x
    obtain ⟨r,t⟩ := x
    cases r with
    | again => rfl
    | failed => rfl
    | bytes line =>
      dsimp only
      split
      · rfl
      · exact readSize_retag

theorem chunkData_retag :
    chunkData mem (retag fd k http) s = retagPart fd k (chunkData mem http s) := by
  rw [chunkData,chunkData]
  show (if mem.grants (toSize http.chunkhead) = false then _ else _) = _
  split
  · rfl
  · rw [retagPart,map_bind]
    congr 1
    funext x
    obtain ⟨r,t⟩ := x
    dsimp only
    cases received r with
    | none => rfl
    | some page =>
      dsimp only
      rw [appendPage_retag,map_bind]
      cases appendPage mem http page with
      | error e => rfl
      | ok http' =>
        let next : HttpInfo := { http' with chunkhead := http'.chunkhead-page.length }
        show (chunkEnd next t >>= _) = (chunkEnd next t >>= _).map _
        cases chunkEnd next t <;> rfl

theorem chunkLoop_retag (n : ℕ) : ∀ {http : HttpInfo} {s : Sock},
    chunkLoop mem n (retag fd k http) s = retagPart fd k (chunkLoop mem n http s) := by
  induction n with
  | zero => exact rfl
  | succ n ih =>
    intro http s
    rw [chunkLoop,chunkLoop,chunkSize_retag]
    cases chunkSize http s with
    | error e => rfl
    | ok r =>
      obtain ⟨flow,http₁,t⟩ := r
      show (if flow ≠ .next then _ else _) = retagPart fd k (if flow ≠ .next then _ else _)
      split
      · rfl
      · rw [chunkData_retag]
        cases chunkData mem http₁ t with
        | error e => rfl
        | ok r =>
          obtain ⟨flow,http₂,u⟩ := r
          show (if flow ≠ .next then _ else _) = retagPart fd k (if flow ≠ .next then _ else _)
          split
          · rfl
          · exact ih

theorem lengthBody_retag :
    lengthBody mem (retag fd k http) s = retagPart fd k (lengthBody mem http s) := by
  rw [lengthBody,lengthBody]
  let len := toInt (http.filesize-http.page.ncurr)
  show (if mem.grants (toSize len) = false then _ else _) =
    retagPart fd k (if mem.grants (toSize len) = false then _ else _)
  split
  · rfl
  · show (readnNonblock s len.toNat >>= _) = retagPart fd k (readnNonblock s len.toNat >>= _)
    cases readnNonblock s len.toNat with
    | error e => rfl
    | ok r =>
      obtain ⟨r,t⟩ := r
      rw [ok_bind,ok_bind]
      dsimp only
      cases received r with
      | none => rfl
      | some page =>
        dsimp only
        rw [appendPage_retag]
        cases appendPage mem http page <;> rfl

theorem closeLoop_retag (n : ℕ) : ∀ {http : HttpInfo} {s : Sock},
    closeLoop mem n (retag fd k http) s = retagPart fd k (closeLoop mem n http s) := by
  induction n with
  | zero => exact rfl
  | succ n ih =>
    intro http s
    rw [closeLoop,closeLoop]
    cases readnNonblock s bufsiz with
    | error e => rfl
    | ok r =>
      obtain ⟨r,t⟩ := r
      rw [ok_bind,ok_bind]
      have hpass : ∀ (e : ℕ) (buf : Bytes),
          (appendPage mem { retag fd k http with myErrno := e } buf >>= fun http₁ =>
            closeLoop mem n http₁ t) =
          retagPart fd k (appendPage mem { http with myErrno := e } buf >>= fun http₁ =>
            closeLoop mem n http₁ t) := by
        intro e buf
        show (appendPage mem (retag fd k { http with myErrno := e }) buf >>= _) = _
        rw [appendPage_retag]
        cases appendPage mem { http with myErrno := e } buf with
        | error e => rfl
        | ok http₁ => exact ih
      cases hr : received r with
      | none =>
        simp only [hr]
        rfl
      | some buf =>
        by_cases hbuf : buf = []
        · simp only [hr,if_pos hbuf]
          rfl
        · simp only [hr,if_neg hbuf]
          exact hpass _ buf

theorem readBody_retag :
    readBody mem (retag fd k http) s = retagPart fd k (readBody mem http s) := by
  rw [readBody,readBody]
  show (if http.chunksize = 0 then _ else if 0 < http.filesize then _ else
    if http.filesize = -1 ∧ http.chunksize = -1 then _ else _) = _
  split
  · exact chunkLoop_retag _
  split
  · exact lengthBody_retag
  split
  · exact closeLoop_retag _
  · rfl

theorem httpReadBody_retag : httpReadBody mem (retag fd k http) s =
    (httpReadBody mem http s).map fun r => (r.1,retag fd k r.2.1,r.2.2) := by
  rw [httpReadBody,httpReadBody,readBody_retag]
  show (if http.status.readBody then _ else _) = _
  split
  · rfl
  · cases readBody mem http s with
    | error e => rfl
    | ok r =>
      obtain ⟨flow,http₁,t⟩ := r
      cases flow <;> rfl

theorem processField_retag (tag p : Bytes) : processField mem (retag fd k http) tag p =
    ((processField mem http tag p).1,retag fd k (processField mem http tag p).2) := by
  rw [processField,processField]
  by_cases hlocation : strcaseeq tag (ascii "Location")
  · rw [if_pos hlocation,if_pos hlocation]
    rfl
  rw [if_neg hlocation,if_neg hlocation]
  by_cases hlength : strcaseeq tag (ascii "Content-Length") ∧ http.filesize = -1
  · rw [if_pos hlength]
    exact if_pos hlength
  rw [if_neg hlength,if_neg (by exact hlength)]
  by_cases hchunked : strcaseeq tag (ascii "Transfer-Encoding") ∧ AntVisited.startsWith (ascii "chunked") p
  · rw [if_pos hchunked,if_pos hchunked]
    rfl
  rw [if_neg hchunked,if_neg hchunked]
  by_cases hencoding : strcaseeq tag (ascii "Content-Encoding")
  · rw [if_pos hencoding,if_pos hencoding]
    show (1,if _ then _ else _) = ((1 : ℤ),retag fd k (if _ then _ else _))
    split <;> rfl
  rw [if_neg hencoding,if_neg hencoding]
  by_cases hcookie : strcaseeq tag (ascii "Set-Cookie")
  · rw [if_pos hcookie,if_pos hcookie]
    have hcookies : (retag fd k http).cookies = http.cookies := rfl
    rw [hcookies]
    cases http.cookies with
    | none =>
      show (1,if _ then _ else _) = ((1 : ℤ),retag fd k (if _ then _ else _))
      split <;> rfl
    | some tmp =>
      dsimp only
      split <;> rfl
  rw [if_neg hcookie,if_neg hcookie]
  by_cases hconnection : strcaseeq tag (ascii "Connection")
  · rw [if_pos hconnection,if_pos hconnection]
    show (1,if _ then _ else _) = ((1 : ℤ),retag fd k (if _ then _ else _))
    split <;> rfl
  · rw [if_neg hconnection,if_neg hconnection]

theorem processLine_retag (line : Bytes) (n : ℕ) : processLine mem (retag fd k http) line n =
    ((processLine mem http line n).1,retag fd k (processLine mem http line n).2) := by
  rw [processLine,processLine]
  split
  · rfl
  split
  · rfl
  · split
    · rfl
    · exact processField_retag _ _

theorem headLoop_retag (n : ℕ) : ∀ {http : HttpInfo} {p : Bytes},
    headLoop mem n (retag fd k http) p = (headLoop mem n http p).map (retag fd k) := by
  induction n with
  | zero => exact rfl
  | succ n ih =>
    intro http p
    rw [headLoop,headLoop]
    cases copyLine [] p with
    | error e => rfl
    | ok r =>
      simp only [ok_bind]
      have hcount : (retag fd k http).linecount = http.linecount := rfl
      rw [hcount,processLine_retag]
      by_cases herr : (processLine mem http r.1 http.linecount).1 = 0
      · rw [if_pos herr,if_pos herr]
        rfl
      · let next := (processLine mem http r.1 http.linecount).2
        rw [if_neg herr,if_neg herr]
        have htail : headLoop mem n (retag fd k { next with linecount := next.linecount+1 }) r.2 =
            (headLoop mem n { next with linecount := next.linecount+1 } r.2).map (retag fd k) := ih
        exact htail

theorem httpReadHead_retag : httpReadHead mem (retag fd k http) s =
    (httpReadHead mem http s).map fun r => (r.1,retag fd k r.2.1,r.2.2) := by
  rw [httpReadHead,httpReadHead]
  show (if http.status.readHead then _ else _) = _
  split
  · rfl
  · cases sockRead s bufsiz with
    | error e => rfl
    | ok r =>
      obtain ⟨r,t⟩ := r
      cases r with
      | again => rfl
      | failed => rfl
      | bytes response =>
        simp only [ok_bind]
        cases findHead response with
        | error e => rfl
        | ok pos =>
          simp only [ofFault,ok_bind]
          cases pos with
          | none => rfl
          | some pos =>
            dsimp only
            cases readnNonblock t (pos+4) with
            | error e => rfl
            | ok r =>
              obtain ⟨r,u⟩ := r
              simp only [ok_bind]
              cases received r with
              | none => rfl
              | some head =>
                dsimp only
                have hretag : headLoop mem (head.length+1) (retag fd k (unframed http)) head =
                    (headLoop mem (head.length+1) (unframed http) head).map (retag fd k) :=
                  headLoop_retag (head.length+1)
                have hloop : headLoop mem (head.length+1) (unframed (retag fd k http)) head =
                    (headLoop mem (head.length+1) (unframed http) head).map (retag fd k) := hretag
                show (ofFault (headLoop mem (head.length+1) (unframed (retag fd k http)) head) >>= _) =
                  (ofFault (headLoop mem (head.length+1) (unframed http) head) >>= _).map _
                rw [hloop]
                cases headLoop mem (head.length+1) (unframed http) head <;> rfl

theorem doRead_retag : doRead mem (retag fd k http) s =
    (doRead mem http s).map fun r => (r.1,retag fd k r.2.1,r.2.2) := by
  rw [doRead,doRead,httpReadHead_retag]
  cases httpReadHead mem http s with
  | error e => rfl
  | ok r =>
    obtain ⟨rc,http₁,t⟩ := r
    by_cases h200 : http₁.httpCode = 200
    · show (if http₁.httpCode = 200 then _ else _) =
        Except.map _ (if http₁.httpCode = 200 then _ else _)
      rw [if_pos h200,if_pos h200,httpReadBody_retag]
      cases httpReadBody mem http₁ t <;> rfl
    · show (if http₁.httpCode = 200 then _ else if http₁.httpCode = 301 ∨ http₁.httpCode = 302
        then _ else _) = Except.map _ (if http₁.httpCode = 200 then _ else _)
      rw [if_neg h200,if_neg h200]
      split
      · rfl
      · rfl

theorem readCall_retag : readCall mem (retag fd k http) s =
    (readCall mem http s).map fun r => (retag fd k r.1,r.2) := by
  rw [readCall,readCall,doRead_retag]
  show (if http.dump then _ else _) = _
  split
  · rfl
  · cases doRead mem http s <;> rfl

/-- A download does not depend on its descriptor and its number of tries. -/
theorem afterEach_retag (n : ℕ) : ∀ {http : HttpInfo} {s : Sock},
    afterEach (readCall mem) n (retag fd k http) s =
      (afterEach (readCall mem) n http s).map fun r => (retag fd k r.1,r.2) := by
  induction n with
  | zero => exact rfl
  | succ n ih =>
    intro http s
    rw [afterEach,afterEach]
    cases s.deliver with
    | none => rfl
    | some t =>
      dsimp only
      rw [readCall_retag]
      cases readCall mem http t with
      | error e => rfl
      | ok r => exact ih

end Retag
/-! ### The lines of all connections are counted -/

section Coded
variable {mem : Memory}

/-- The code is the one of the first line there was. -/
def FirstLine (http http' : HttpInfo) : Prop :=
  (http.linecount = 0 → http.httpCode = 0) → (http'.linecount = 0 → http'.httpCode = 0) ∧
    (http.linecount ≠ 0 → http'.linecount ≠ 0 ∧ http'.httpCode = http.httpCode)

theorem FirstLine.of_eq {http http' : HttpInfo} (hcode : http'.httpCode = http.httpCode)
    (hcount : http'.linecount = http.linecount) : FirstLine http http' := by
  intro hfirst
  rw [hcode,hcount]
  exact ⟨hfirst,fun h => ⟨h,rfl⟩⟩

theorem FirstLine.trans {a b c : HttpInfo} (h : FirstLine a b) (h' : FirstLine b c) :
    FirstLine a c := by
  intro hfirst
  obtain ⟨hb,hab⟩ := h hfirst
  obtain ⟨hc,hbc⟩ := h' hb
  refine ⟨hc,fun ha => ?_⟩
  obtain ⟨hcount,hcode⟩ := hab ha
  obtain ⟨hcount',hcode'⟩ := hbc hcount
  exact ⟨hcount',hcode'.trans hcode⟩

theorem headLoop_firstLine (n : ℕ) : ∀ {http http' : HttpInfo} {p : Bytes},
    headLoop mem n http p = .ok http' → FirstLine http http' := by
  induction n with
  | zero =>
    intro http http' p h
    cases h
  | succ n ih =>
    intro http http' p h
    rw [headLoop] at h
    obtain ⟨r,-,h⟩ := bind_eq_ok.mp h
    by_cases hline : r.1 = []
    · have hlast : processLine mem http r.1 http.linecount = (0,{ http with endHeader := true }) := by
        rw [processLine,if_pos hline]
      rw [hlast] at h
      dsimp only at h
      rw [if_pos rfl] at h
      cases h
      exact .of_eq rfl rfl
    · let next := (processLine mem http r.1 http.linecount).2
      dsimp only at h
      rw [if_neg (processLine_ne_zero mem http hline _)] at h
      have hnext : FirstLine http { next with linecount := next.linecount+1 } := fun _ =>
        ⟨fun hzero => absurd hzero (Nat.succ_ne_zero _),fun hcount =>
          ⟨Nat.succ_ne_zero _,processLine_httpCode mem http r.1 hcount⟩⟩
      exact hnext.trans (ih h)

theorem httpReadHead_firstLine {http http' : HttpInfo} {s t : Sock} {rc : ℤ}
    (h : httpReadHead mem http s = .ok (rc,http',t)) : FirstLine http http' := by
  rw [httpReadHead] at h
  split at h
  · cases h
    exact .of_eq rfl rfl
  · obtain ⟨⟨r,u⟩,-,h⟩ := bind_eq_ok.mp h
    cases r with
    | again =>
      cases h
      exact .of_eq rfl rfl
    | failed =>
      cases h
      exact .of_eq rfl rfl
    | bytes response =>
      obtain ⟨pos,-,h⟩ := bind_eq_ok.mp h
      cases pos with
      | none =>
        cases h
        exact .of_eq rfl rfl
      | some pos =>
        obtain ⟨⟨r,v⟩,-,h⟩ := bind_eq_ok.mp h
        dsimp only at h
        split at h
        · obtain ⟨http₁,hloop,h⟩ := bind_eq_ok.mp h
          cases h
          have hfirst : FirstLine (unframed http) http₁ :=
            headLoop_firstLine _ (ofFault_eq_ok.mp hloop)
          exact hfirst
        · cases h
          exact .of_eq rfl rfl

theorem readCall_firstLine {http http' : HttpInfo} {s t : Sock}
    (h : readCall mem http s = .ok (http',t)) : FirstLine http http' := by
  rw [readCall] at h
  split at h
  · cases h
    exact .of_eq rfl rfl
  · cases hx : doRead mem http s with
    | error e =>
      rw [hx] at h
      cases h
    | ok x =>
      obtain ⟨url,http₂,v⟩ := x
      rw [hx] at h
      cases h
      cases hhead : httpReadHead mem http s with
      | error e =>
        rw [doRead,hhead] at hx
        cases hx
      | ok r =>
        obtain ⟨rc,http₁,u⟩ := r
        obtain ⟨hfields,-,hcount⟩ := doRead_kept hhead hx
        exact (httpReadHead_firstLine hhead).trans (.of_eq (congrArg Fields.httpCode hfields) hcount)

theorem afterEach_firstLine (n : ℕ) : ∀ {http http' : HttpInfo} {s t : Sock},
    afterEach (readCall mem) n http s = .ok (http',t) → FirstLine http http' := by
  induction n with
  | zero =>
    intro http http' s t h
    cases h
    exact .of_eq rfl rfl
  | succ n ih =>
    intro http http' s t h
    rw [afterEach] at h
    split at h
    · cases h
      exact .of_eq rfl rfl
    · obtain ⟨⟨http₁,u⟩,hcall,h⟩ := bind_eq_ok.mp h
      exact (readCall_firstLine hcall).trans (ih h)

end Coded

/-! ### Retries -/

/-- The event loop goes on with the download. -/
def pending (http : HttpInfo) : Bool := !http.dump && http.httpCode = 200

/-- Segments arrive on a connection, and the download is pending after the `do_read` behind
each of them. -/
def pendingReads (mem : Memory) : ℕ → HttpInfo → Sock → Option HttpInfo
  | 0, http, _ => some http
  | n+1, http, s =>
    match s.deliver with
    | none => none
    | some s =>
      match readCall mem http s with
      | .error _ => none
      | .ok (http,s) => if pending http then pendingReads mem n http s else none

/-- A connection that fails: whether the request was sent, the number of segments that were
read, and the descriptor of the next connection. -/
structure Attempt where
  sent : Bool
  sock : Sock
  reads : ℕ
  fd : ℤ

/-- The connection up to EPOLLERR or EPOLLHUP, and `do_error`. -/
def Attempt.run (mem : Memory) (http : HttpInfo) (a : Attempt) : Option HttpInfo :=
  (pendingReads mem a.reads (if a.sent then httpSendHead http else http) a.sock).bind fun http =>
    doError http a.fd

def retries (mem : Memory) (http : HttpInfo) (as : List Attempt) : Option HttpInfo :=
  as.foldlM (Attempt.run mem) http

/-- Every complete response is downloaded as by a fresh `http_info`. -/
def LikeFresh (mem : Memory) (url : Bytes) (http : HttpInfo) : Prop :=
  ∀ h s,Arrives h s → ∀ n clean t,
    afterEach (readCall mem) (n+1) (fresh mem url) s = .ok (clean,t) → pending clean = false →
      ∃ http' t',afterEach (readCall mem) (n+1) (httpSendHead http) s = .ok (http',t') ∧
        http'.fields = clean.fields ∧ http'.page.content = clean.page.content

section Retry
variable {mem : Memory} {url : Bytes}

theorem doError_some {http http' : HttpInfo} {fd : ℤ} (h : doError http fd = some http') :
    http' = { retag fd (http.tryNum+1) http with status := ⟨false,false,false⟩ } := by
  rw [doError] at h
  dsimp only at h
  split at h
  · cases h
  · cases h
    rfl

/-- An attempt that reads nothing leaves a fresh download on a new connection. -/
theorem Attempt.run_unread {http : HttpInfo} {a : Attempt} (hreads : a.reads = 0) {fd : ℤ} {k : ℕ}
    (h : Attempt.run mem (retag fd k (httpNew mem url)) a = some http) :
    ∃ fd' k',http = retag fd' k' (httpNew mem url) := by
  rw [Attempt.run,hreads] at h
  have herror := doError_some h
  refine ⟨a.fd,k+1,herror.trans ?_⟩
  cases a.sent <;> rfl

theorem retries_unread (as : List Attempt) : ∀ {fd : ℤ} {k : ℕ} {http : HttpInfo},
    (∀ a ∈ as,a.reads = 0) → retries mem (retag fd k (httpNew mem url)) as = some http →
      ∃ fd' k',http = retag fd' k' (httpNew mem url) := by
  induction as with
  | nil =>
    intro fd k http _ h
    cases h
    exact ⟨fd,k,rfl⟩
  | cons a as ih =>
    intro fd k http hreads h
    rw [retries,List.foldlM_cons] at h
    obtain ⟨http₁,hrun,h⟩ := Option.bind_eq_some_iff.mp h
    obtain ⟨fd',k',rfl⟩ := Attempt.run_unread (hreads a List.mem_cons_self) hrun
    exact ih (fun b hb => hreads b (List.mem_cons_of_mem a hb)) h

/-- The code of the first response stays. -/
structure Coded (http : HttpInfo) : Prop where
  linecount : http.linecount ≠ 0
  httpCode : http.httpCode = 200

theorem pendingReads_coded (n : ℕ) : ∀ {http http' : HttpInfo} {s : Sock},
    (http.linecount = 0 → http.httpCode = 0) → pendingReads mem n http s = some http' →
      (http'.linecount = 0 → http'.httpCode = 0) ∧ (0 < n ∨ Coded http → Coded http') := by
  induction n with
  | zero =>
    intro http http' s hfirst h
    cases h
    exact ⟨hfirst,fun hor => hor.elim (fun h => absurd h (Nat.lt_irrefl _)) id⟩
  | succ n ih =>
    intro http http' s hfirst h
    rw [pendingReads] at h
    split at h
    · cases h
    split at h
    · cases h
    next http₁ t hcall =>
      split at h
      next hpending =>
        obtain ⟨hfirst₁,-⟩ := readCall_firstLine hcall hfirst
        obtain ⟨hfirst',hcoded⟩ := ih hfirst₁ h
        have h200 : http₁.httpCode = 200 := by simp [pending] at hpending; exact hpending.2
        have hcoded₁ : Coded http₁ := ⟨fun hzero => by
          have := hfirst₁ hzero
          omega,h200⟩
        exact ⟨hfirst',fun _ => hcoded (.inr hcoded₁)⟩
      next => cases h

theorem Attempt.run_coded {http http' : HttpInfo} {a : Attempt}
    (hfirst : http.linecount = 0 → http.httpCode = 0) (h : Attempt.run mem http a = some http') :
    (http'.linecount = 0 → http'.httpCode = 0) ∧ (0 < a.reads ∨ Coded http → Coded http') := by
  let http₀ := if a.sent then httpSendHead http else http
  have hsame : http₀.linecount = http.linecount ∧ http₀.httpCode = http.httpCode := by
    show (if a.sent then httpSendHead http else http).linecount = _ ∧
      (if a.sent then httpSendHead http else http).httpCode = _
    cases a.sent <;> exact ⟨rfl,rfl⟩
  have hfirst₀ : http₀.linecount = 0 → http₀.httpCode = 0 := by
    rw [hsame.1,hsame.2]
    exact hfirst
  obtain ⟨http₁,hreads,herror⟩ := Option.bind_eq_some_iff.mp h
  obtain ⟨hfirst₁,hcoded⟩ := pendingReads_coded a.reads hfirst₀ hreads
  rw [doError_some herror]
  refine ⟨hfirst₁,fun hor => ?_⟩
  have hcoded₁ : Coded http₁ := hcoded (hor.imp_right fun h =>
    ⟨fun hzero => h.linecount (hsame.1.symm.trans hzero),hsame.2.trans h.httpCode⟩)
  exact ⟨hcoded₁.linecount,hcoded₁.httpCode⟩

theorem retries_coded (as : List Attempt) : ∀ {http http' : HttpInfo},
    (http.linecount = 0 → http.httpCode = 0) → retries mem http as = some http' →
      (∃ a ∈ as,0 < a.reads) ∨ Coded http → Coded http' := by
  induction as with
  | nil =>
    intro http http' _ h hor
    cases h
    cases hor with
    | inl h => exact absurd h (by simp)
    | inr h => exact h
  | cons a as ih =>
    intro http http' hfirst h hor
    rw [retries,List.foldlM_cons] at h
    obtain ⟨http₁,hrun,h⟩ := Option.bind_eq_some_iff.mp h
    obtain ⟨hfirst₁,hcoded⟩ := Attempt.run_coded hfirst hrun
    apply ih hfirst₁ h
    cases hor with
    | inl hor =>
      obtain ⟨b,hb,hpos⟩ := hor
      cases List.mem_cons.mp hb with
      | inl hb =>
        rw [hb] at hpos
        exact .inr (hcoded (.inl hpos))
      | inr hb => exact .inl ⟨b,hb,hpos⟩
    | inr hor => exact .inr (hcoded (.inr hor))

/-- A response with another code. -/
def notFound : Head where
  version := ascii "HTTP/1.1"
  code := ascii "404"
  reason := []
  statusLine := ⟨ascii "HTTP/1.1 404",by decide,by decide,by decide,by decide⟩
  fieldLines := [⟨ascii "Content-Length: 0",by decide,by decide,by decide,by decide⟩]
  version_word := http11_word
  code_digits := List.all_eq_true.mp (by decide)
  code_length := by decide
  code_head := by decide
  reason_head := by simp
  text := by decide
  short := by decide

def notFoundSock : Sock :=
  ⟨[],[.data 72 (ascii "TTP/1.1 404\x0d\nContent-Length: 0\x0d\n\x0d\n")],false⟩

theorem notFound_arrives : Arrives notFound notFoundSock := ⟨rfl,by decide,by decide⟩

/-- A fresh download finds its code. -/
theorem notFound_run : ∃ clean t,
    afterEach (readCall mem) 1 (fresh mem url) notFoundSock = .ok (clean,t) ∧
      clean.httpCode = 404 := by
  let t : Sock := ⟨notFound.bytes,[],false⟩
  have hdeliver : notFoundSock.deliver = some t := by decide
  obtain ⟨u,hhead,-⟩ : ∃ u,httpReadHead mem (fresh mem url) t =
      .ok (0,readHeadDone (parse mem (unframed (fresh mem url)) notFound.lines),u) ∧ Skips _ _ u :=
    httpReadHead_whole (r := []) (by decide) rfl (by decide) (by decide)
  let clean := readHeadDone (parse mem (unframed (fresh mem url)) notFound.lines)
  have hcode : clean.httpCode = 404 := by
    have hstrtol : strtol (notFound.statusLine.text.dropWhile fun b => !AntVisited.isspace b) =
        (404 : ℕ) := by decide
    show (parse mem (unframed (fresh mem url)) notFound.lines).httpCode = 404
    rw [notFound.httpCode_eq mem rfl,hstrtol,toInt_of_lt (by decide)]
    rfl
  have hread : doRead mem (fresh mem url) t = .ok (none,clean,u) := by
    rw [doRead,hhead]
    show (if clean.httpCode = 200 then _ else if clean.httpCode = 301 ∨ clean.httpCode = 302 then _
      else _) = _
    rw [hcode,if_neg (by decide),if_neg (by decide)]
    rfl
  refine ⟨clean,u,?_,hcode⟩
  rw [afterEach,hdeliver]
  show (readCall mem (fresh mem url) t >>= _) = _
  rw [readCall,if_neg (by exact Bool.false_ne_true),hread]
  rfl

/-- The retried download is like a fresh one exactly when the failed connections were not
read from. -/
theorem likeFresh_iff {as : List Attempt} {http : HttpInfo}
    (h : retries mem (httpNew mem url) as = some http) :
    LikeFresh mem url http ↔ ∀ a ∈ as,a.reads = 0 := by
  constructor
  · intro hlike
    by_contra hreads
    have hread : ∃ a ∈ as,0 < a.reads := by
      by_contra hnone
      apply hreads
      intro a ha
      by_contra hne
      exact hnone ⟨a,ha,Nat.pos_of_ne_zero hne⟩
    have hcoded := retries_coded as (fun _ => rfl) h (.inl hread)
    obtain ⟨clean,t,hrun,hcode⟩ : ∃ clean t,
        afterEach (readCall mem) 1 (fresh mem url) notFoundSock = .ok (clean,t) ∧
          clean.httpCode = 404 := notFound_run
    have hfinished : pending clean = false := by
      rw [pending,hcode]
      exact Bool.and_false _
    obtain ⟨http',t',hrun',hfields,-⟩ := hlike _ _ notFound_arrives 0 _ _ hrun hfinished
    have hfirst := afterEach_firstLine 1 hrun' fun hzero => absurd hzero hcoded.linecount
    have hcode' : http'.httpCode = 200 := (hfirst.2 hcoded.linecount).2.trans hcoded.httpCode
    have hsame : http'.httpCode = clean.httpCode := congrArg Fields.httpCode hfields
    rw [hcode,hcode'] at hsame
    exact absurd hsame (by decide)
  · intro hreads hd s harrives n clean t hrun _
    have h' : retries mem (retag (-1) 0 (httpNew mem url)) as = some http := h
    obtain ⟨fd,k,rfl⟩ := retries_unread as hreads h'
    refine ⟨retag fd k clean,t,?_,rfl,rfl⟩
    have hsend : httpSendHead (retag fd k (httpNew mem url)) = retag fd k (fresh mem url) := rfl
    rw [hsend,afterEach_retag,hrun]
    rfl

end Retry

theorem likeFresh_unread : LikeFresh plenty [] (retag 5 1 (httpNew plenty [])) :=
  (likeFresh_iff (show retries plenty (httpNew plenty []) [⟨true,⟨[],[],false⟩,0,5⟩] =
    some (retag 5 1 (httpNew plenty [])) from rfl)).mpr (by decide)

/-- A response of which all but two bytes came before the connection failed. -/
def cut : Attempt :=
  ⟨true,⟨[],[.data 72 (ascii "TTP/1.1 200 OK\x0d\nContent-Length: 5\x0d\n\x0d\nhel")],false⟩,1,5⟩

/-- The response as a whole. -/
def okSock : Sock :=
  ⟨[],[.data 72 (ascii "TTP/1.1 200 OK\x0d\nContent-Length: 5\x0d\n\x0d\nhello")],false⟩

theorem ok_of_toOption {ε α : Type} {x : Except ε α} {a : α} (h : x.toOption = some a) : x = .ok a := by
  cases x with
  | error e => cases h
  | ok b =>
    cases h
    rfl

def contentOf (x : Except Stop (HttpInfo × Sock)) : Option (List Cell) :=
  x.toOption.map fun r => r.1.page.content

/-- The page of the retried download starts with the bytes of the failed one. -/
theorem not_likeFresh_cut : ∃ http,retries plenty (httpNew plenty []) [cut] = some http ∧
    ¬LikeFresh plenty [] http := by
  have hpage : ((retries plenty (httpNew plenty []) [cut]).map fun http =>
      contentOf (afterEach (readCall plenty) 1 (httpSendHead http) okSock)) =
        some (some ((ascii "helhe").map some)) := by
    decide +kernel
  have hclean : ((afterEach (readCall plenty) 1 (fresh plenty []) okSock).toOption.map fun r =>
      (pending r.1,r.1.page.content)) = some (false,(ascii "hello").map some) := by
    decide +kernel
  obtain ⟨http,hretry,hpage⟩ := Option.map_eq_some_iff.mp hpage
  refine ⟨http,hretry,fun hlike => ?_⟩
  obtain ⟨⟨clean,t⟩,hrun,hfinal⟩ := Option.map_eq_some_iff.mp hclean
  have harrives : Arrives okHead okSock := ⟨rfl,by decide,by decide⟩
  obtain ⟨http',t',hrun',-,hcontent⟩ := hlike okHead okSock harrives 0 clean t
    (ok_of_toOption hrun) (congrArg Prod.fst hfinal)
  rw [hrun'] at hpage
  have hhelhe : http'.page.content = (ascii "helhe").map some := Option.some.inj hpage
  have hhello : clean.page.content = (ascii "hello").map some := congrArg Prod.snd hfinal
  rw [hhelhe,hhello] at hcontent
  exact absurd hcontent (by decide)

end AntHttp
end RecycleBin
