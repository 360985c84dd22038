import RecycleBin.Bytes

/-! DNS packets of the crawler: the question name that `set_qname` writes, and the
parser `parse_dns_packets` that walks a response with one moving pointer. A pointer
into a packet is the list of the bytes from there on. -/
namespace RecycleBin
namespace AntDns
open Bytes

def ipLen : ℕ := 4

/-- `struct dns_header`, in host order. -/
structure DnsHeader where
  id : ℕ
  flags : ℕ
  questions : ℕ
  answersRrs : ℕ
  authorityRrs : ℕ
  additionalRrs : ℕ
  deriving DecidableEq

/-- `dns_response_t`: `char host_name[1024]`, `unsigned ip[IP_LEN]` and the flags. -/
structure DnsResponse where
  hostName : List UInt8
  ip : List ℕ
  flags : ℤ
  deriving DecidableEq

/-- The byte `'.'`. -/
def dot : UInt8 := 46

/-- `*bp++`. -/
def fetch : List UInt8 → Except Fault (UInt8 × List UInt8)
  | [] => .error .undefined
  | b::bp => .ok (b,bp)

/-- `bp += n`. -/
def skip (bp : List UInt8) (n : ℕ) : Except Fault (List UInt8) :=
  if n ≤ bp.length then .ok (bp.drop n) else .error .undefined

/-- `ntohs(*(uint16_t*)bp)`. -/
def ntohs (bp : List UInt8) : Except Fault ℕ := do
  let word ← readAt bp 0 2
  .ok (ofBe word)

/-- `*(uint32_t*)bp`, in host order. -/
def load32 (bp : List UInt8) : Except Fault ℕ := do
  let word ← readAt bp 0 4
  .ok (ofLe word)

/-- The value of a `char`, which is signed. -/
def charValue (b : UInt8) : ℤ := b.toInt8.toInt

/-- `while (num-- > 0) *p++ = *bp++`, with `p` an index into `host_name`. -/
def copyLabel : ℕ → List UInt8 → ℕ → List UInt8 → Except Fault (List UInt8 × ℕ × List UInt8)
  | 0, bp, p, host => .ok (bp,p,host)
  | num+1, bp, p, host => do
    let r ← fetch bp
    let host ← writeAt host p [r.1]
    copyLabel num r.2 (p+1) host

theorem copyLabel_length {num p p' : ℕ} {bp bp' host host' : List UInt8}
    (h : copyLabel num bp p host = .ok (bp',p',host')) : bp'.length ≤ bp.length := by
  induction num generalizing bp p host with
  | zero =>
    cases h
    exact le_refl _
  | succ num ih =>
    rcases bind_eq_ok.mp h with ⟨⟨b,bp₁⟩,h₁,h₂⟩
    rcases bind_eq_ok.mp h₂ with ⟨host₁,-,h₃⟩
    cases bp with
    | nil => cases h₁
    | cons c bp =>
      cases h₁
      exact (ih h₃).trans (by simp)

/-- The loop that extracts the host name: a label, then a dot, up to a zero byte. -/
def hostLoop (bp : List UInt8) (p : ℕ) (host : List UInt8) :
    Except Fault (List UInt8 × ℕ × List UInt8) :=
  match bp with
  | [] => .error .undefined
  | b::bp =>
    if b = 0 then .ok (b::bp,p,host)
    else
      match _h : copyLabel (charValue b).toNat bp p host with
      | .error e => .error e
      | .ok (bp',p',host') => do
        let host'' ← writeAt host' p' [dot]
        hostLoop bp' (p'+1) host''
termination_by bp.length
decreasing_by
  have := copyLabel_length _h
  simp
  omega

/-- The loop over the answer records; a fifth address leaves it. -/
def answersLoop : ℕ → List UInt8 → ℕ → List ℕ → Except Fault (List ℕ)
  | 0, _, _, ip => .ok ip
  | len+1, bp, num, ip => do
    let bp ← skip bp 2
    let type ← ntohs bp
    let bp ← skip bp 2
    let bp ← skip bp 6
    let ipl ← ntohs bp
    let bp ← skip bp 2
    if type = 1 ∧ ipl = 4 then
      if num < ipLen then
        let word ← load32 bp
        let ip ← writeAt ip num [word]
        let bp ← skip bp ipl
        answersLoop len bp (num+1) ip
      else .ok ip
    else
      let bp ← skip bp ipl
      answersLoop len bp num ip

/-- `parse_dns_packets`: the return code, `*dhp` and `*data` afterwards. -/
def parseDnsPackets (buf : List UInt8) (data : DnsResponse) :
    Except Fault (ℤ × DnsHeader × DnsResponse) := do
  let bp := buf
  let id ← ntohs bp
  let bp ← skip bp 2
  let flags ← ntohs bp
  let data := { data with flags := flags }
  let bp ← skip bp 2
  let bp ← skip bp 2
  let answers ← ntohs bp
  let dhp : DnsHeader := ⟨id,flags,0,answers,0,0⟩
  let bp ← skip bp 6
  let r ← hostLoop bp 0 data.hostName
  -- `*--p = '\0'`: with no label read, `p` is still at the start of the array.
  if r.2.1 = 0 then .error .undefined
  else
    let host ← writeAt r.2.2 (r.2.1-1) [0]
    let data := { data with hostName := host }
    if flags ≠ 0x8180 then .ok (-1,dhp,data)
    else
      let bp ← skip r.1 1
      let bp ← skip bp 2
      let bp ← skip bp 2
      let ip ← answersLoop answers bp 0 data.ip
      .ok (0,dhp,{ data with ip := ip })

/-- The loop of `set_qname`: `prev` and `curr` point into the name, `out` is what has
been written. A count is stored in a `char`. -/
def qnameLoop : List UInt8 → List UInt8 → List UInt8 → List UInt8 × List UInt8
  | prev, [], out => (prev,out)
  | prev, c::curr, out =>
    if c = dot then
      let cnt := prev.length-(c::curr).length
      qnameLoop curr curr (out++UInt8.ofNat cnt::prev.take cnt)
    else qnameLoop prev curr out

/-- `set_qname`: the bytes written to the buffer. -/
def setQname (s : List UInt8) : List UInt8 :=
  let r := qnameLoop s s []
  let cnt := r.1.length
  r.2++UInt8.ofNat cnt::r.1.take cnt++[0]

/-- `set_dns_packets`: the request for one name, as written to `packet`. -/
def setDnsPackets (name : List UInt8) (id : ℕ) : List UInt8 :=
  be 2 id++be 2 0x0100++be 2 1++be 2 0++be 2 0++be 2 0++setQname name++be 2 1++be 2 1

/-- A label of a host name: 1 to 127 bytes, none of them NUL or a dot. -/
def IsLabel (l : List UInt8) : Prop := 0 < l.length ∧ l.length ≤ 127 ∧ ∀ b ∈ l, b ≠ 0 ∧ b ≠ dot

instance (l : List UInt8) : Decidable (IsLabel l) :=
  have : Decidable (∀ b ∈ l, b ≠ 0 ∧ b ≠ dot) := List.decidableBAll _ l
  inferInstanceAs (Decidable (_ ∧ _ ∧ ∀ b ∈ l, b ≠ 0 ∧ b ≠ dot))

/-- The labels joined by dots. -/
def dotted (labels : List (List UInt8)) : List UInt8 := List.intercalate [dot] labels

/-- A label behind its length. -/
def counted (l : List UInt8) : List UInt8 := UInt8.ofNat l.length::l

/-- A label in front of its dot, as the parser writes it. -/
def dotEnded (l : List UInt8) : List UInt8 := l++[dot]

theorem dotted_cons_cons (l m : List UInt8) (labels : List (List UInt8)) :
    dotted (l::m::labels) = l++dot::dotted (m::labels) := by
  simp [dotted,List.intercalate]

theorem flatMap_dotEnded (l : List UInt8) (labels : List (List UInt8)) :
    (l::labels).flatMap dotEnded = dotted (l::labels)++[dot] := by
  induction labels generalizing l with
  | nil => simp [dotted,dotEnded,List.intercalate]
  | cons m labels ih =>
    rw [List.flatMap_cons,ih,dotted_cons_cons]
    simp [dotEnded]

/-- Bytes other than the dot are passed over. -/
theorem qnameLoop_label (prev l rest out : List UInt8) (hl : ∀ b ∈ l, b ≠ dot) :
    qnameLoop prev (l++rest) out = qnameLoop prev rest out := by
  induction l with
  | nil => rfl
  | cons b l ih =>
    rw [List.cons_append,qnameLoop,if_neg (hl b (by simp))]
    exact ih fun c hc => hl c (by simp [hc])

theorem qnameLoop_dot (l rest out : List UInt8) (hl : ∀ b ∈ l, b ≠ dot) :
    qnameLoop (l++dot::rest) (l++dot::rest) out = qnameLoop rest rest (out++counted l) := by
  rw [qnameLoop_label _ l _ _ hl,qnameLoop,if_pos rfl]
  have hcnt : (l++dot::rest).length-(dot::rest).length = l.length := by simp
  simp only [hcnt,List.take_left]
  rfl

/-- The encoder writes every part between dots behind its length, and a zero at the end. -/
theorem setQname_parts (l : List UInt8) (labels : List (List UInt8))
    (h : ∀ m ∈ l::labels, ∀ b ∈ m, b ≠ dot) :
    setQname (dotted (l::labels)) = (l::labels).flatMap counted++[0] := by
  have hloop : ∀ out, (qnameLoop (dotted (l::labels)) (dotted (l::labels)) out).2++
      counted (qnameLoop (dotted (l::labels)) (dotted (l::labels)) out).1 =
        out++(l::labels).flatMap counted := by
    induction labels generalizing l with
    | nil =>
      intro out
      have hl := qnameLoop_label l l [] out (h l (by simp))
      rw [List.append_nil] at hl
      simp [dotted,List.intercalate,hl,qnameLoop]
    | cons m labels ih =>
      intro out
      rw [dotted_cons_cons,qnameLoop_dot _ _ _ (h l (by simp)),ih m (fun k hk => h k (by simp [hk]))]
      simp
  have hout := hloop []
  rw [List.nil_append] at hout
  rw [← hout]
  simp [setQname,counted]

theorem setQname_dotted (l : List UInt8) (labels : List (List UInt8))
    (h : ∀ m ∈ l::labels, IsLabel m) :
    setQname (dotted (l::labels)) = (l::labels).flatMap counted++[0] :=
  setQname_parts l labels fun m hm b hb => ((h m hm).2.2 b hb).2

theorem skip_append {pre post : List UInt8} {n : ℕ} (h : n = pre.length) :
    skip (pre++post) n = .ok post := by
  subst h
  rw [skip,if_pos (by simp),List.drop_left]

theorem readAt_front {pre post : List UInt8} {n : ℕ} (h : n = pre.length) :
    readAt (pre++post) 0 n = .ok pre := by
  have hr : readAt ([]++pre++post) 0 n = .ok pre := readAt_append rfl h
  exact hr

theorem ntohs_be {n : ℕ} (h : n < 2^16) (rest : List UInt8) : ntohs (be 2 n++rest) = .ok n := by
  rw [ntohs,readAt_front (by simp),ok_bind,ofBe_be_of_lt (by omega)]

theorem load32_append {word rest : List UInt8} (h : word.length = 4) :
    load32 (word++rest) = .ok (ofLe word) := by
  rw [load32,readAt_front h.symm,ok_bind]

theorem charValue_ofNat : ∀ n ≤ 127, charValue (UInt8.ofNat n) = n := by decide

/-- The copy loop moves one label from the packet to the array. -/
theorem copyLabel_label (l rest pre old post : List UInt8) (h : old.length = l.length) :
    copyLabel l.length (l++rest) pre.length (pre++old++post) =
      .ok (rest,pre.length+l.length,pre++l++post) := by
  induction l generalizing pre old with
  | nil =>
    have ho : old = [] := List.length_eq_zero_iff.mp h
    simp [copyLabel,ho]
  | cons b l ih =>
    cases old with
    | nil => simp at h
    | cons o old =>
      have hw : writeAt (pre++(o::old)++post) pre.length [b] = .ok (pre++[b]++(old++post)) := by
        rw [List.append_assoc,List.cons_append,writeAt_cons rfl]
        simp
      have hrest := ih (pre++[b]) old (by simpa using h)
      simp only [List.cons_append,List.length_cons,copyLabel,fetch,ok_bind,hw]
      simp only [List.length_append,List.length_singleton,List.append_assoc] at hrest ⊢
      rw [hrest]
      simp [Nat.add_assoc,Nat.add_comm 1]

/-- The host loop writes every label in front of a dot, up to the zero byte. -/
theorem hostLoop_labels (labels : List (List UInt8)) (rest pre old post : List UInt8)
    (h : ∀ l ∈ labels, IsLabel l) (hold : old.length = (labels.flatMap dotEnded).length) :
    hostLoop (labels.flatMap counted++0::rest) pre.length (pre++old++post) =
      .ok (0::rest,pre.length+old.length,pre++labels.flatMap dotEnded++post) := by
  induction labels generalizing pre old with
  | nil =>
    have ho : old = [] := List.length_eq_zero_iff.mp hold
    simp [ho,hostLoop]
  | cons l labels ih =>
    rcases h l (by simp) with ⟨hpos,hmax,-⟩
    have hb : UInt8.ofNat l.length ≠ 0 := by
      intro hz
      have := congrArg UInt8.toNat hz
      rw [UInt8.toNat_ofNat'] at this
      simp at this
      omega
    have hnum : (charValue (UInt8.ofNat l.length)).toNat = l.length := by
      rw [charValue_ofNat _ hmax]
      rfl
    rw [List.flatMap_cons,List.length_append] at hold
    have hdl : (dotEnded l).length = l.length+1 := by simp [dotEnded]
    rcases exists_split (by omega : l.length ≤ old.length) with ⟨old₁,old₂,rfl,h₁⟩
    rw [List.length_append] at hold
    cases old₂ with
    | nil =>
      rw [List.length_nil] at hold
      omega
    | cons o old₂ =>
      rw [List.length_cons] at hold
      have hcopy := copyLabel_label l (labels.flatMap counted++0::rest) pre old₁ (o::old₂++post) h₁
      have hdot : writeAt (pre++l++(o::old₂++post)) (pre.length+l.length) [dot] =
          .ok (pre++dotEnded l++(old₂++post)) := by
        rw [List.cons_append,writeAt_cons (by simp)]
        simp [dotEnded]
      have hrest := ih (pre++dotEnded l) old₂ (fun m hm => h m (by simp [hm])) (by omega)
      have hpos' : (pre++dotEnded l).length = pre.length+l.length+1 := by
        rw [List.length_append,hdl]
        omega
      rw [hpos'] at hrest
      simp only [List.flatMap_cons,counted,List.cons_append,List.append_assoc] at hcopy hrest ⊢
      rw [hostLoop,if_neg hb,hnum]
      split
      next e he =>
        rw [hcopy] at he
        cases he
      next bp' p' host' he =>
        rw [hcopy] at he
        cases he
        simp only [List.append_assoc,List.cons_append] at hdot
        rw [hdot,ok_bind,hrest]
        simp
        omega

/-- A resource record behind its compressed two-byte name. -/
structure Answer where
  name : List UInt8
  type : UInt16
  cls : UInt16
  ttl : UInt32
  rdata : List UInt8
  name_length : name.length = 2
  rdata_lt : rdata.length < 2^16

def Answer.bytes (a : Answer) : List UInt8 :=
  a.name++be 2 a.type.toNat++be 2 a.cls.toNat++be 4 a.ttl.toNat++be 2 a.rdata.length++a.rdata

/-- A record of type A whose data has four bytes. -/
def Answer.isAddress (a : Answer) : Bool := a.type = 1 ∧ a.rdata.length = 4

/-- The addresses of the records in order, as the host stores their data. -/
def addresses (answers : List Answer) : List ℕ :=
  (answers.filter Answer.isAddress).map fun a => ofLe a.rdata

/-- A response to the question for the dotted labels, as `set_qname` encodes it; any
bytes may follow the answer records. -/
structure Message where
  id : UInt16
  flags : UInt16
  questions : UInt16
  authorityRrs : UInt16
  additionalRrs : UInt16
  labels : List (List UInt8)
  qtype : UInt16
  qclass : UInt16
  answers : List Answer
  trailing : List UInt8
  labels_ok : ∀ l ∈ labels, IsLabel l
  name_lt : (dotted labels).length < 1024
  answers_lt : answers.length < 2^16

def Message.body (m : Message) : List UInt8 :=
  setQname (dotted m.labels)++(be 2 m.qtype.toNat++(be 2 m.qclass.toNat++
    (m.answers.flatMap Answer.bytes++m.trailing)))

def Message.bytes (m : Message) : List UInt8 :=
  be 2 m.id.toNat++(be 2 m.flags.toNat++(be 2 m.questions.toNat++(be 2 m.answers.length++
    (be 2 m.authorityRrs.toNat++(be 2 m.additionalRrs.toNat++m.body)))))

/-- The request for a name as a message. -/
def query (id : UInt16) (labels : List (List UInt8)) (hl : ∀ l ∈ labels, IsLabel l)
    (hn : (dotted labels).length < 1024) : Message where
  id := id
  flags := 0x0100
  questions := 1
  authorityRrs := 0
  additionalRrs := 0
  labels := labels
  qtype := 1
  qclass := 1
  answers := []
  trailing := []
  labels_ok := hl
  name_lt := hn
  answers_lt := by norm_num

/-- `set_dns_packets` writes the question of such a message. -/
theorem setDnsPackets_dotted (id : UInt16) (labels : List (List UInt8))
    (hl : ∀ l ∈ labels, IsLabel l) (hn : (dotted labels).length < 1024) :
    setDnsPackets (dotted labels) id.toNat = (query id labels hl hn).bytes := by
  simp [setDnsPackets,Message.bytes,Message.body,query]

theorem skip_be (k n : ℕ) (rest : List UInt8) : skip (be k n++rest) k = .ok rest :=
  skip_append (by simp)

/-- The fields of a record are read where the encoder put them. -/
theorem answersLoop_cons (a : Answer) (len num : ℕ) (rest : List UInt8) (ip : List ℕ) :
    answersLoop (len+1) (a.bytes++rest) num ip =
      if a.isAddress then
        if num < ipLen then do
          let ip ← writeAt ip num [ofLe a.rdata]
          answersLoop len rest (num+1) ip
        else .ok ip
      else answersLoop len rest num ip := by
  have hname : ∀ post, skip (a.name++post) 2 = .ok post := fun post =>
    skip_append a.name_length.symm
  have htype : ∀ post, ntohs (be 2 a.type.toNat++post) = .ok a.type.toNat := fun post =>
    ntohs_be a.type.toNat_lt post
  have hlen : ∀ post, ntohs (be 2 a.rdata.length++post) = .ok a.rdata.length := fun post =>
    ntohs_be a.rdata_lt post
  have hmid : ∀ post, skip (be 2 a.cls.toNat++(be 4 a.ttl.toNat++post)) 6 = .ok post := by
    intro post
    rw [← List.append_assoc]
    exact skip_append (by simp)
  have hrdata : ∀ n, n = a.rdata.length → skip (a.rdata++rest) n = .ok rest := fun n hn =>
    skip_append hn
  have haddr : (a.type.toNat = 1 ∧ a.rdata.length = 4) ↔ a.isAddress = true := by
    rw [Answer.isAddress,decide_eq_true_eq,← UInt16.toNat_inj]
    rfl
  simp only [answersLoop,Answer.bytes,List.append_assoc,hname,htype,hlen,hmid,skip_be,ok_bind,haddr,
    hrdata _ rfl]
  split_ifs with h₁ h₂
  · rw [load32_append (haddr.mpr h₁).2,ok_bind]
  · rfl
  · rfl

/-- The slots from `num` on receive the first addresses; the others keep their value. -/
theorem answersLoop_answers (answers : List Answer) (rest : List UInt8) (done slots : List ℕ)
    (h : done.length+slots.length = ipLen) :
    answersLoop answers.length (answers.flatMap Answer.bytes++rest) done.length (done++slots) =
      .ok (done++(addresses answers).take slots.length++slots.drop (addresses answers).length) := by
  induction answers generalizing done slots with
  | nil => simp [answersLoop,addresses]
  | cons a answers ih =>
    rw [List.length_cons,List.flatMap_cons,List.append_assoc,answersLoop_cons]
    by_cases ha : a.isAddress = true
    · have hcons : addresses (a::answers) = ofLe a.rdata::addresses answers := by
        simp [addresses,ha]
      rw [if_pos ha,hcons]
      cases slots with
      | nil =>
        have hfull : ¬done.length < ipLen := by
          rw [List.length_nil] at h
          omega
        rw [if_neg hfull]
        simp
      | cons o slots =>
        rw [List.length_cons] at h
        have hw : writeAt (done++o::slots) done.length [ofLe a.rdata] =
            .ok (done++[ofLe a.rdata]++slots) := by
          rw [writeAt_cons rfl]
          simp
        have hrest := ih (done++[ofLe a.rdata]) slots (by simp; omega)
        rw [List.length_append,List.length_singleton] at hrest
        rw [if_pos (by omega),hw,ok_bind,hrest]
        simp
    · have hskip : addresses (a::answers) = addresses answers := by simp [addresses,ha]
      rw [if_neg ha,hskip]
      exact ih done slots h

/-- The parser reads the message: the dotted name and a NUL are what it writes into
`host_name`, it returns 0 exactly on the flags `0x8180`, and then the first `IP_LEN`
addresses are in `ip`, whose other slots are unchanged. -/
def Parses (m : Message) (data : DnsResponse) : Prop :=
  ∃ rc dhp data', parseDnsPackets m.bytes data = .ok (rc,dhp,data') ∧
    data'.hostName = dotted m.labels++0::data.hostName.drop ((dotted m.labels).length+1) ∧
    (rc = 0 ↔ m.flags = 0x8180) ∧
    (m.flags = 0x8180 → data'.ip =
      (addresses m.answers).take ipLen++data.ip.drop (addresses m.answers).length)

/-- The header fields are read and skipped, whatever the rest of the message. -/
theorem parseDnsPackets_header (m : Message) (data : DnsResponse) :
    parseDnsPackets m.bytes data = (do
      let r ← hostLoop m.body 0 data.hostName
      if r.2.1 = 0 then .error .undefined
      else
        let host ← writeAt r.2.2 (r.2.1-1) [0]
        let dhp : DnsHeader := ⟨m.id.toNat,m.flags.toNat,0,m.answers.length,0,0⟩
        if m.flags.toNat ≠ 0x8180 then
          .ok (-1,dhp,{ data with flags := m.flags.toNat,hostName := host })
        else
          let bp ← skip r.1 1
          let bp ← skip bp 2
          let bp ← skip bp 2
          let ip ← answersLoop m.answers.length bp 0 data.ip
          .ok (0,dhp,{ hostName := host,ip := ip,flags := m.flags.toNat })) := by
  have hcounts : ∀ post, skip (be 2 m.answers.length++(be 2 m.authorityRrs.toNat++
      (be 2 m.additionalRrs.toNat++post))) 6 = .ok post := by
    intro post
    rw [← List.append_assoc,← List.append_assoc]
    exact skip_append (by simp)
  simp only [parseDnsPackets,Message.bytes,ntohs_be m.id.toNat_lt,ntohs_be m.flags.toNat_lt,
    ntohs_be m.answers_lt,skip_be,hcounts,ok_bind]

/-- On a name without labels the trailing dot that is trimmed does not exist. -/
theorem parseDnsPackets_root (m : Message) (data : DnsResponse) (h : m.labels = []) :
    parseDnsPackets m.bytes data = .error .undefined := by
  have hbody : hostLoop m.body 0 data.hostName = .ok (m.body,0,data.hostName) := by
    rw [Message.body,h]
    simp [dotted,List.intercalate,setQname,qnameLoop,hostLoop]
  rw [parseDnsPackets_header,hbody]
  simp

theorem parseDnsPackets_labels (m : Message) (data : DnsResponse) (h : m.labels ≠ [])
    (hhost : data.hostName.length = 1024) (hip : data.ip.length = ipLen) : Parses m data := by
  rcases List.exists_cons_of_ne_nil h with ⟨l,labels,hl⟩
  have hname := m.name_lt
  have hok := m.labels_ok
  have hdots : m.labels.flatMap dotEnded = dotted m.labels++[dot] := by rw [hl,flatMap_dotEnded]
  have hbody : m.body = m.labels.flatMap counted++0::(be 2 m.qtype.toNat++(be 2 m.qclass.toNat++
      (m.answers.flatMap Answer.bytes++m.trailing))) := by
    rw [Message.body,hl,setQname_dotted l labels (by rw [← hl]; exact hok)]
    simp
  have hroom : (m.labels.flatMap dotEnded).length ≤ data.hostName.length := by
    rw [hdots,List.length_append,List.length_singleton]
    omega
  rcases exists_split hroom with ⟨old,post,hsplit,hold⟩
  have hloop := hostLoop_labels m.labels (be 2 m.qtype.toNat++(be 2 m.qclass.toNat++
      (m.answers.flatMap Answer.bytes++m.trailing))) [] old post hok hold
  rw [← hbody,hdots,hold,hdots] at hloop
  simp only [List.nil_append,List.length_nil,Nat.zero_add,← hsplit,List.length_append,
    List.length_singleton] at hloop
  have htrim : writeAt (dotted m.labels++[dot]++post) ((dotted m.labels).length+1-1) [0] =
      .ok (dotted m.labels++[0]++post) := writeAt_append (by simp) rfl
  have hpost : data.hostName.drop ((dotted m.labels).length+1) = post := by
    rw [hsplit]
    apply List.drop_left'
    rw [hold,hdots]
    simp
  have hanswers := answersLoop_answers m.answers m.trailing [] data.ip (by simpa using hip)
  have hskip : ∀ bp : List UInt8, skip (0::bp) 1 = .ok bp := fun bp => by simp [skip]
  simp only [List.nil_append,List.length_nil,hip] at hanswers
  have hflags : m.flags.toNat = 0x8180 ↔ m.flags = 0x8180 := by
    rw [← UInt16.toNat_inj]
    rfl
  rw [Parses,parseDnsPackets_header,hloop,hpost]
  simp only [ok_bind,Nat.succ_ne_zero,if_false,htrim,hskip,skip_be,hanswers,hflags,ne_eq,ite_not]
  by_cases hf : m.flags = 0x8180
  · rw [if_pos hf]
    exact ⟨_,_,_,rfl,by simp,by simp [hf],fun _ => rfl⟩
  · rw [if_neg hf]
    exact ⟨_,_,_,rfl,by simp,by simp [hf],fun hc => absurd hc hf⟩

/-- Encoder and decoder agree on every message, except the one without labels. -/
theorem parses_iff (m : Message) (data : DnsResponse) (hhost : data.hostName.length = 1024)
    (hip : data.ip.length = ipLen) : Parses m data ↔ m.labels ≠ [] := by
  constructor
  · rintro ⟨rc,dhp,data',hparse,-⟩ hroot
    rw [parseDnsPackets_root m data hroot] at hparse
    cases hparse
  · exact fun h => parseDnsPackets_labels m data h hhost hip

/-- A zeroed `dns_response_t`, as the receiving loop passes it. -/
def blank : DnsResponse := ⟨List.replicate 1024 0,List.replicate ipLen 0,0⟩

/-- The response `a.b` with one address record. -/
def shortMessage : Message where
  id := 7
  flags := 0x8180
  questions := 1
  authorityRrs := 0
  additionalRrs := 0
  labels := [[97],[98]]
  qtype := 1
  qclass := 1
  answers := [⟨[192,12],1,1,60,[10,0,0,1],rfl,by norm_num⟩]
  trailing := []
  labels_ok := by decide
  name_lt := by decide
  answers_lt := by norm_num

theorem parses_shortMessage : Parses shortMessage blank :=
  (parses_iff shortMessage blank List.length_replicate List.length_replicate).mpr (by decide)

/-- A response to the question for the root name. -/
def rootMessage : Message where
  id := 7
  flags := 0x8180
  questions := 1
  authorityRrs := 0
  additionalRrs := 0
  labels := []
  qtype := 1
  qclass := 1
  answers := []
  trailing := []
  labels_ok := by decide
  name_lt := by decide
  answers_lt := by norm_num

/-- The parser writes the NUL to `host_name[-1]`. -/
theorem not_parses_rootMessage : ¬Parses rootMessage blank := by
  rintro ⟨rc,dhp,data',hparse,-⟩
  rw [parseDnsPackets_root rootMessage blank rfl] at hparse
  cases hparse

end AntDns
end RecycleBin
