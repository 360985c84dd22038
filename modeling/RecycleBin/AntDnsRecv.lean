import RecycleBin.AntDns

/-! `parse_dns_packets` on whatever `dns_recv_packet` received into its array of 1024 bytes.
The pointer is the list of the received bytes from there on; past them it may point into the
rest of the array, as long as nothing is read. -/
namespace RecycleBin
namespace AntDnsRecv
open Bytes AntDns

/-- The loop over the answer records. -/
def answersLoop : ℕ → List UInt8 → ℕ → List ℕ → Except Fault (List ℕ)
  | 0, _, _, ip => .ok ip
  | len+1, bp, num, ip => do
    let bp := bp.drop 2
    let type ← ntohs bp
    let bp := bp.drop 2
    let bp := bp.drop 6
    let ipl ← ntohs bp
    let bp := bp.drop 2
    if type = 1 ∧ ipl = 4 then
      if num < ipLen then
        let word ← load32 bp
        let ip ← writeAt ip num [word]
        answersLoop len (bp.drop ipl) (num+1) ip
      else .ok ip
    else answersLoop len (bp.drop ipl) num ip

/-- `parse_dns_packets`: the return code, `*dhp` and `*data` afterwards. -/
def parseDnsPackets (buf : List UInt8) (data : DnsResponse) :
    Except Fault (ℤ × DnsHeader × DnsResponse) := do
  let bp := buf
  let id ← ntohs bp
  let bp := bp.drop 2
  let flags ← ntohs bp
  let data := { data with flags := flags }
  let bp := bp.drop 2
  let bp := bp.drop 2
  let answers ← ntohs bp
  let dhp : DnsHeader := ⟨id,flags,0,answers,0,0⟩
  let bp := bp.drop 6
  let r ← hostLoop bp 0 data.hostName
  -- `*--p = '\0'`
  if r.2.1 = 0 then .error .undefined
  else
    let host ← writeAt r.2.2 (r.2.1-1) [0]
    let data := { data with hostName := host }
    if flags ≠ 0x8180 then .ok (-1,dhp,data)
    else
      let bp := r.1.drop 1
      let bp := bp.drop 2
      let bp := bp.drop 2
      let ip ← answersLoop answers bp 0 data.ip
      .ok (0,dhp,{ data with ip := ip })

/-- The `head` bytes of a response that fits into `res`. -/
structure Packet where
  bytes : List UInt8
  fits : bytes.length ≤ 1024

/-- On a zeroed response, the parser returns, and so reads and writes inside its arrays. -/
def Confined (packet : List UInt8) : Prop := ∃ r,parseDnsPackets packet blank = .ok r

/-! ### Packets that can be walked -/

/-- A length byte other than zero, and as many bytes as it says as a `char`. -/
def IsSegment : List UInt8 → Prop
  | [] => False
  | b::l => b ≠ 0 ∧ l.length = (charValue b).toNat

/-- The big-endian word at `off`. -/
def wordAt (bp : List UInt8) (off : ℕ) : ℕ := ofBe ((bp.drop off).take 2)

/-- The record at `bp` is an address of four bytes. -/
def IsAddress (bp : List UInt8) : Prop := wordAt bp 2 = 1 ∧ wordAt bp 10 = 4

instance (bp : List UInt8) : Decidable (IsAddress bp) := inferInstanceAs (Decidable (_ ∧ _))

/-- Of each record its first twelve bytes are there, and of the addresses that still have a slot
all sixteen; with no slot left, an address ends the walk. -/
def Walkable : ℕ → ℕ → List UInt8 → Prop
  | 0, _, _ => True
  | len+1, slots, bp => 12 ≤ bp.length ∧
      if IsAddress bp then slots = 0 ∨ 16 ≤ bp.length ∧ Walkable len (slots-1) (bp.drop 16)
      else Walkable len slots (bp.drop (12+wordAt bp 10))

/-- Behind the header there is at least one segment and a zero byte, and in a response with the
flags `0x8180` four bytes further as many records as the header says. -/
def Whole (packet : List UInt8) : Prop :=
  ∃ segs rest,segs ≠ [] ∧ (∀ s ∈ segs,IsSegment s) ∧ packet.drop 12 = segs.flatten++0::rest ∧
    (wordAt packet 2 = 0x8180 → Walkable (wordAt packet 6) ipLen (rest.drop 4))

/-! ### Reads and writes -/

theorem ntohs_of_le {bp : List UInt8} (h : 2 ≤ bp.length) : ntohs bp = .ok (ofBe (bp.take 2)) := by
  rw [ntohs,readAt,if_pos (by omega)]
  rfl

theorem ntohs_of_lt {bp : List UInt8} (h : bp.length < 2) : ntohs bp = .error .undefined := by
  rw [ntohs,readAt,if_neg (by omega)]
  rfl

theorem load32_of_le {bp : List UInt8} (h : 4 ≤ bp.length) : load32 bp = .ok (ofLe (bp.take 4)) := by
  rw [load32,readAt,if_pos (by omega)]
  rfl

theorem load32_of_lt {bp : List UInt8} (h : bp.length < 4) : load32 bp = .error .undefined := by
  rw [load32,readAt,if_neg (by omega)]
  rfl

/-! ### The name -/

/-- The label is there and there is room for it. -/
theorem copyLabel_of_le {num p : ℕ} {bp host : List UInt8} (hbp : num ≤ bp.length)
    (hhost : p+num ≤ host.length) :
    ∃ host',copyLabel num bp p host = .ok (bp.drop num,p+num,host') ∧
      host'.length = host.length := by
  induction num generalizing bp p host with
  | zero => exact ⟨host,rfl,rfl⟩
  | succ num ih =>
    cases bp with
    | nil => simp at hbp
    | cons b bp =>
      obtain ⟨host₁,hw,hlen₁⟩ := writeAt_one (by omega : p < host.length) b
      obtain ⟨host',hcopy,hlen⟩ := ih (by simpa using hbp) (by omega : p+1+num ≤ host₁.length)
      refine ⟨host',?_,hlen.trans hlen₁⟩
      simp only [copyLabel,fetch,ok_bind,hw,hcopy]
      rw [List.drop_succ_cons,Nat.add_assoc,Nat.add_comm 1]

theorem copyLabel_ok {num p : ℕ} {bp host : List UInt8} {r : List UInt8 × ℕ × List UInt8}
    (h : copyLabel num bp p host = .ok r) :
    num ≤ bp.length ∧ r.1 = bp.drop num ∧ r.2.1 = p+num ∧ r.2.2.length = host.length := by
  induction num generalizing bp p host with
  | zero =>
    cases h
    exact ⟨Nat.zero_le _,rfl,rfl,rfl⟩
  | succ num ih =>
    cases bp with
    | nil => cases h
    | cons b bp =>
      obtain ⟨_,⟨⟩,hrest⟩ := bind_eq_ok.mp h
      obtain ⟨host₁,hw,hcopy⟩ := bind_eq_ok.mp hrest
      obtain ⟨hle,hbp,hp,hlen⟩ := ih hcopy
      refine ⟨by simpa using hle,by rw [hbp,List.drop_succ_cons],by omega,?_⟩
      rw [hlen,writeAt_length hw]

/-- A segment, and the room for its bytes and the dot. -/
theorem hostLoop_segment {b : UInt8} {l host : List UInt8} {p : ℕ} (hs : IsSegment (b::l))
    (hroom : p+(l.length+1) ≤ host.length) (bp : List UInt8) :
    ∃ host',hostLoop (b::(l++bp)) p host = hostLoop bp (p+(l.length+1)) host' ∧
      host'.length = host.length := by
  obtain ⟨hb,hl⟩ := hs
  have hle : l.length ≤ (l++bp).length := by
    rw [List.length_append]
    exact Nat.le_add_right _ _
  obtain ⟨host₁,hcopy,hlen₁⟩ := copyLabel_of_le hle (by omega : p+l.length ≤ host.length)
  rw [List.drop_left] at hcopy
  obtain ⟨host₂,hw,hlen₂⟩ := writeAt_one (by omega : p+l.length < host₁.length) dot
  refine ⟨host₂,?_,hlen₂.trans hlen₁⟩
  rw [hostLoop,if_neg hb]
  split
  next e he =>
    rw [← hl,hcopy] at he
    cases he
  next bp' p' host' he =>
    rw [← hl,hcopy] at he
    cases he
    rw [hw,ok_bind,Nat.add_assoc]

/-- The walk over the segments up to the zero byte. -/
theorem hostLoop_segments {segs : List (List UInt8)} {host : List UInt8} {p : ℕ}
    (hs : ∀ s ∈ segs,IsSegment s) (hroom : p+segs.flatten.length ≤ host.length)
    (rest : List UInt8) :
    ∃ host',hostLoop (segs.flatten++0::rest) p host = .ok (0::rest,p+segs.flatten.length,host') ∧
      host'.length = host.length := by
  induction segs generalizing p host with
  | nil =>
    refine ⟨host,?_,rfl⟩
    rw [List.flatten_nil,List.nil_append,hostLoop,if_pos rfl]
    rfl
  | cons s segs ih =>
    have hseg := hs s List.mem_cons_self
    cases s with
    | nil => exact hseg.elim
    | cons b l =>
      rw [List.flatten_cons,List.length_append,List.length_cons] at hroom
      obtain ⟨host₁,hstep,hlen₁⟩ := hostLoop_segment hseg
        (by omega : p+(l.length+1) ≤ host.length) (segs.flatten++0::rest)
      obtain ⟨host',hloop,hlen⟩ := ih (fun t ht => hs t (List.mem_cons_of_mem _ ht))
        (by omega : p+(l.length+1)+segs.flatten.length ≤ host₁.length)
      refine ⟨host',?_,hlen.trans hlen₁⟩
      rw [List.flatten_cons,List.append_assoc,List.cons_append,hstep,hloop,List.length_append,
        List.length_cons,Nat.add_assoc]

/-- A walk that ends has met segments and a zero byte. -/
theorem hostLoop_ok {bp host : List UInt8} {p : ℕ} {r : List UInt8 × ℕ × List UInt8}
    (h : hostLoop bp p host = .ok r) :
    ∃ (segs : List (List UInt8)) (rest : List UInt8),(∀ s ∈ segs,IsSegment s) ∧
      bp = segs.flatten++0::rest := by
  induction bp,p,host using hostLoop.induct with
  | case1 p host => rw [hostLoop] at h; cases h
  | case2 p host bp => exact ⟨[],bp,fun _ h => absurd h List.not_mem_nil,rfl⟩
  | case3 p host b bp hb e he =>
    rw [hostLoop,if_neg hb] at h
    split at h
    · cases h
    · rename_i he'
      rw [he] at he'
      cases he'
  | case4 p host b bp hb bp' p' host' he ih =>
    rw [hostLoop,if_neg hb] at h
    split at h
    · cases h
    · rename_i he'
      rw [he] at he'
      cases he'
      obtain ⟨host₂,-,hloop⟩ := bind_eq_ok.mp h
      obtain ⟨segs,rest,hs,heq⟩ := ih host₂ hloop
      obtain ⟨hle,hbp,-,-⟩ := copyLabel_ok he
      refine ⟨(b::bp.take (charValue b).toNat)::segs,rest,?_,?_⟩
      · rintro s (_ | ⟨_,hmem⟩)
        · exact ⟨hb,List.length_take_of_le hle⟩
        · exact hs s hmem
      · have hbp : bp' = bp.drop (charValue b).toNat := hbp
        rw [List.flatten_cons,List.append_assoc,← heq,hbp,List.cons_append,List.take_append_drop]

/-! ### The answers -/

/-- A record whose first twelve bytes are there. -/
theorem answersLoop_record {bp : List UInt8} (h : 12 ≤ bp.length) (len num : ℕ) (ip : List ℕ) :
    answersLoop (len+1) bp num ip =
      if IsAddress bp then
        if num < ipLen then do
          let word ← load32 (bp.drop 12)
          let ip ← writeAt ip num [word]
          answersLoop len (bp.drop 16) (num+1) ip
        else .ok ip
      else answersLoop len (bp.drop (12+wordAt bp 10)) num ip := by
  have htype : ntohs (bp.drop 2) = .ok (wordAt bp 2) := ntohs_of_le (by rw [List.length_drop]; omega)
  have hipl : ntohs (bp.drop 10) = .ok (wordAt bp 10) := ntohs_of_le (by rw [List.length_drop]; omega)
  simp only [answersLoop,List.drop_drop,Nat.reduceAdd,htype,hipl,ok_bind]
  by_cases ha : wordAt bp 2 = 1 ∧ wordAt bp 10 = 4
  · have ha' : IsAddress bp := ha
    rw [if_pos ha,if_pos ha',ha.2]
  · have ha' : ¬IsAddress bp := ha
    rw [if_neg ha,if_neg ha']

/-- Of a shorter record a byte behind the packet is read. -/
theorem answersLoop_short {bp : List UInt8} (h : bp.length < 12) (len num : ℕ) (ip : List ℕ) :
    answersLoop (len+1) bp num ip = .error .undefined := by
  have hipl : ntohs (bp.drop 10) = .error .undefined := ntohs_of_lt (by rw [List.length_drop]; omega)
  simp only [answersLoop,List.drop_drop,Nat.reduceAdd,hipl]
  cases ntohs_cases : ntohs (bp.drop 2) with
  | ok type => rfl
  | error e =>
    rw [ntohs,readAt] at ntohs_cases
    split_ifs at ntohs_cases <;> cases ntohs_cases
    rfl

/-- The loop stays inside exactly when the records can be walked. -/
theorem answersLoop_iff (len num : ℕ) (bp : List UInt8) (ip : List ℕ) (hip : ip.length = ipLen)
    (hnum : num ≤ ipLen) :
    (∃ ip',answersLoop len bp num ip = .ok ip') ↔ Walkable len (ipLen-num) bp := by
  induction len generalizing num bp ip with
  | zero => exact iff_of_true ⟨ip,rfl⟩ trivial
  | succ len ih =>
    rw [Walkable]
    by_cases h12 : 12 ≤ bp.length
    · rw [answersLoop_record h12,and_iff_right h12]
      by_cases ha : IsAddress bp
      · rw [if_pos ha,if_pos ha]
        by_cases hslot : num < ipLen
        · have hne : ipLen-num ≠ 0 := by omega
          rw [if_pos hslot,or_iff_right hne]
          by_cases h16 : 16 ≤ bp.length
          · have hload : load32 (bp.drop 12) = .ok (ofLe ((bp.drop 12).take 4)) :=
              load32_of_le (by rw [List.length_drop]; omega)
            obtain ⟨ip',hw,hlen⟩ := writeAt_one (by omega : num < ip.length) (ofLe ((bp.drop 12).take 4))
            rw [hload,ok_bind,hw,ok_bind,and_iff_right h16,Nat.sub_sub]
            exact ih (num+1) _ ip' (hlen.trans hip) hslot
          · have hload : load32 (bp.drop 12) = .error .undefined :=
              load32_of_lt (by rw [List.length_drop]; omega)
            rw [hload,error_bind]
            exact iff_of_false (by rintro ⟨_,h⟩; cases h) fun h => h16 h.1
        · rw [if_neg hslot]
          exact iff_of_true ⟨ip,rfl⟩ (.inl (by omega))
      · rw [if_neg ha,if_neg ha]
        exact ih num _ ip hip hnum
    · rw [answersLoop_short (not_le.mp h12)]
      exact iff_of_false (by rintro ⟨_,h⟩; cases h) fun h => h12 h.1

/-! ### The packet -/

theorem parseDnsPackets_header {buf : List UInt8} (h : 12 ≤ buf.length) (data : DnsResponse) :
    parseDnsPackets buf data = (do
      let r ← hostLoop (buf.drop 12) 0 data.hostName
      let dhp : DnsHeader := ⟨wordAt buf 0,wordAt buf 2,0,wordAt buf 6,0,0⟩
      if r.2.1 = 0 then .error .undefined
      else
        let host ← writeAt r.2.2 (r.2.1-1) [0]
        if wordAt buf 2 ≠ 0x8180 then
          .ok (-1,dhp,{ data with flags := wordAt buf 2,hostName := host })
        else
          let ip ← answersLoop (wordAt buf 6) (r.1.drop 5) 0 data.ip
          .ok (0,dhp,{ hostName := host,ip := ip,flags := wordAt buf 2 })) := by
  have hid : ntohs buf = .ok (wordAt buf 0) := ntohs_of_le (by omega)
  have hflags : ntohs (buf.drop 2) = .ok (wordAt buf 2) := ntohs_of_le (by rw [List.length_drop]; omega)
  have hcount : ntohs (buf.drop 6) = .ok (wordAt buf 6) := ntohs_of_le (by rw [List.length_drop]; omega)
  simp only [parseDnsPackets,List.drop_drop,Nat.reduceAdd,hid,hflags,hcount,ok_bind]

/-- A parser that returns has walked the name. -/
theorem hostLoop_of_parseDnsPackets {buf : List UInt8} {data : DnsResponse}
    {r : ℤ × DnsHeader × DnsResponse} (h : parseDnsPackets buf data = .ok r) :
    ∃ x,hostLoop (buf.drop 12) 0 data.hostName = .ok x := by
  obtain ⟨_,_,h₁⟩ := bind_eq_ok.mp h
  obtain ⟨_,_,h₂⟩ := bind_eq_ok.mp h₁
  obtain ⟨_,_,h₃⟩ := bind_eq_ok.mp h₂
  obtain ⟨x,hx,_⟩ := bind_eq_ok.mp h₃
  simp only [List.drop_drop,Nat.reduceAdd] at hx
  exact ⟨x,hx⟩

theorem flatten_ne_nil {segs : List (List UInt8)} (hs : ∀ s ∈ segs,IsSegment s) (h : segs ≠ []) :
    segs.flatten.length ≠ 0 := by
  obtain ⟨s,segs,rfl⟩ := List.exists_cons_of_ne_nil h
  have hseg := hs s List.mem_cons_self
  cases s with
  | nil => exact hseg.elim
  | cons b l => simp

/-- A name without segments is terminated in front of the array. -/
theorem parseDnsPackets_empty {buf rest : List UInt8} (h : buf.drop 12 = 0::rest)
    (data : DnsResponse) : parseDnsPackets buf data = .error .undefined := by
  have hlen : 12 ≤ buf.length := by
    have hdrop := congrArg List.length h
    rw [List.length_drop,List.length_cons] at hdrop
    omega
  rw [parseDnsPackets_header hlen,h,hostLoop,if_pos rfl]
  rfl

/-- Behind a name the parser returns exactly when it need not walk the records, or can. -/
theorem confined_of_name (p : Packet) {segs : List (List UInt8)} {rest : List UInt8}
    (hne : segs ≠ []) (hs : ∀ s ∈ segs,IsSegment s)
    (h : p.bytes.drop 12 = segs.flatten++0::rest) :
    Confined p.bytes ↔
      (wordAt p.bytes 2 = 0x8180 → Walkable (wordAt p.bytes 6) ipLen (rest.drop 4)) := by
  have hfits := p.fits
  have hdrop := congrArg List.length h
  rw [List.length_drop,List.length_append,List.length_cons] at hdrop
  have hblank : blank.hostName.length = 1024 := List.length_replicate
  obtain ⟨host,hloop,hlen⟩ := hostLoop_segments hs
    (by omega : 0+segs.flatten.length ≤ blank.hostName.length) rest
  have hpos := flatten_ne_nil hs hne
  obtain ⟨host',hw,-⟩ := writeAt_one (by omega : 0+segs.flatten.length-1 < host.length) 0
  rw [Confined,parseDnsPackets_header (by omega),h,hloop]
  simp only [ok_bind,Nat.zero_add] at hw ⊢
  rw [if_neg hpos,hw,ok_bind]
  by_cases hflags : wordAt p.bytes 2 = 0x8180
  · have hloop := answersLoop_iff (wordAt p.bytes 6) 0 (rest.drop 4) blank.ip rfl (by decide)
    rw [Nat.sub_zero] at hloop
    rw [if_neg (not_not_intro hflags),List.drop_succ_cons,forall_prop_of_true hflags,← hloop]
    constructor
    · rintro ⟨r,hr⟩
      obtain ⟨ip,hip,-⟩ := bind_eq_ok.mp hr
      exact ⟨ip,hip⟩
    · rintro ⟨ip,hip⟩
      exact ⟨_,by rw [hip,ok_bind]⟩
  · rw [if_pos hflags]
    exact iff_of_true ⟨_,rfl⟩ fun h => absurd h hflags

/-- The parser stays inside the packet and its arrays exactly when the packet is whole. -/
theorem packet_confined_iff (p : Packet) : Confined p.bytes ↔ Whole p.bytes := by
  constructor
  · intro h
    obtain ⟨r,hr⟩ := h
    obtain ⟨x,hx⟩ := hostLoop_of_parseDnsPackets hr
    obtain ⟨segs,rest,hs,hname⟩ := hostLoop_ok hx
    have hne : segs ≠ [] := by
      rintro rfl
      rw [parseDnsPackets_empty hname] at hr
      cases hr
    exact ⟨segs,rest,hne,hs,hname,(confined_of_name p hne hs hname).mp ⟨r,hr⟩⟩
  · rintro ⟨segs,rest,hne,hs,hname,hwalk⟩
    exact (confined_of_name p hne hs hname).mpr hwalk

/-! ### The parser whose pointer stays inside -/

theorem skip_ok {bp bp' : List UInt8} {n : ℕ} (h : skip bp n = .ok bp') : bp' = bp.drop n := by
  rw [skip] at h
  split_ifs at h
  cases h
  rfl

theorem answersLoop_of_inside {len num : ℕ} {bp : List UInt8} {ip ip' : List ℕ}
    (h : AntDns.answersLoop len bp num ip = .ok ip') : answersLoop len bp num ip = .ok ip' := by
  induction len generalizing bp num ip with
  | zero => exact h
  | succ len ih =>
    obtain ⟨bp₁,h₁,h⟩ := bind_eq_ok.mp h
    obtain ⟨type,htype,h⟩ := bind_eq_ok.mp h
    obtain ⟨bp₂,h₂,h⟩ := bind_eq_ok.mp h
    obtain ⟨bp₃,h₃,h⟩ := bind_eq_ok.mp h
    obtain ⟨ipl,hipl,h⟩ := bind_eq_ok.mp h
    obtain ⟨bp₄,h₄,h⟩ := bind_eq_ok.mp h
    rw [skip_ok h₁] at htype h₂
    rw [skip_ok h₂] at h₃
    rw [skip_ok h₃] at hipl h₄
    rw [skip_ok h₄] at h
    simp only [answersLoop,htype,hipl,ok_bind]
    split_ifs at h ⊢ with haddr hslot
    · obtain ⟨word,hword,h⟩ := bind_eq_ok.mp h
      obtain ⟨ip₁,hip,h⟩ := bind_eq_ok.mp h
      obtain ⟨bp₅,h₅,h⟩ := bind_eq_ok.mp h
      rw [skip_ok h₅] at h
      rw [hword,ok_bind,hip,ok_bind]
      exact ih h
    · exact h
    · obtain ⟨bp₅,h₅,h⟩ := bind_eq_ok.mp h
      rw [skip_ok h₅] at h
      exact ih h

/-- Where no pointer leaves the packet, the two parsers agree. -/
theorem parseDnsPackets_of_inside {buf : List UInt8} {data : DnsResponse}
    {r : ℤ × DnsHeader × DnsResponse} (h : AntDns.parseDnsPackets buf data = .ok r) :
    parseDnsPackets buf data = .ok r := by
  obtain ⟨id,hid,h⟩ := bind_eq_ok.mp h
  obtain ⟨bp₁,h₁,h⟩ := bind_eq_ok.mp h
  obtain ⟨flags,hflags,h⟩ := bind_eq_ok.mp h
  obtain ⟨bp₂,h₂,h⟩ := bind_eq_ok.mp h
  obtain ⟨bp₃,h₃,h⟩ := bind_eq_ok.mp h
  obtain ⟨count,hcount,h⟩ := bind_eq_ok.mp h
  obtain ⟨bp₄,h₄,h⟩ := bind_eq_ok.mp h
  obtain ⟨x,hx,h⟩ := bind_eq_ok.mp h
  rw [skip_ok h₁] at hflags h₂
  rw [skip_ok h₂] at h₃
  rw [skip_ok h₃] at hcount h₄
  rw [skip_ok h₄] at hx
  simp only [parseDnsPackets,hid,hflags,hcount,hx,ok_bind]
  split_ifs at h ⊢ with hzero hok
  · obtain ⟨host,hhost,h⟩ := bind_eq_ok.mp h
    rw [hhost,ok_bind]
    exact h
  · obtain ⟨host,hhost,h⟩ := bind_eq_ok.mp h
    obtain ⟨bp₅,h₅,h⟩ := bind_eq_ok.mp h
    obtain ⟨bp₆,h₆,h⟩ := bind_eq_ok.mp h
    obtain ⟨bp₇,h₇,h⟩ := bind_eq_ok.mp h
    obtain ⟨ip,hip,h⟩ := bind_eq_ok.mp h
    rw [skip_ok h₅] at h₆
    rw [skip_ok h₆] at h₇
    rw [skip_ok h₇] at hip
    rw [hhost,ok_bind,answersLoop_of_inside hip,ok_bind]
    exact h

/-- A response of 13 zero bytes asks for the root name. -/
theorem not_confined_root : ¬Confined (List.replicate 13 0) := by
  rintro ⟨r,hr⟩
  rw [parseDnsPackets_empty (show (List.replicate 13 0).drop 12 = 0::[] from rfl)] at hr
  cases hr

end AntDnsRecv
end RecycleBin
