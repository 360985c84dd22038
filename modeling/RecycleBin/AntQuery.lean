import RecycleBin.AntDns
import RecycleBin.AntUrl

/-! The query for a URL: `dns_send_packet` of `ant_dns.c` on the name that `url_add` gets from
`url_to_domain` in its array of 512 bytes. -/
namespace RecycleBin
namespace AntQuery
open AntHash (Bytes cstr)
open AntUrl (Text urlToDomain host CapitalS holdsHost_of_host host_of_terminated)
open AntDns RecycleBin.Bytes

/-- `dns_send_packet`: what it sends, from the array `send_buf`. -/
def dnsSendPacket (sendBuf name : Bytes) (id : UInt32) : Except Fault Bytes := do
  let packet := setDnsPackets name id.toNat
  let palen := packet.length
  let sendBuf ← writeAt sendBuf 2 packet
  let sendBuf ← writeAt sendBuf 0 (be 2 palen)
  readAt sendBuf 0 (palen+2)

/-- The parts of a name between its dots. -/
def labels (name : Bytes) : List Bytes := name.splitOn dot

/-- The query for a name: the number of the bytes that follow, a header, every label behind its
length, a zero byte, and the type and the class. -/
structure Query (name query : Bytes) : Prop where
  fits : query.length ≤ 512
  counts : 2+ofBe (query.take 2) = query.length
  form : ∃ header tail,header.length = 12 ∧ tail.length = 4 ∧
    query.drop 2 = header++((labels name).flatMap counted++0::tail)
  lengths : ∀ l ∈ labels name,UInt8.ofNat l.length ≤ 63

/-- Whatever the two arrays held, the domain is terminated and its query is sent. -/
def SendsQuery (url : Bytes) : Prop :=
  ∀ domain sendBuf : Bytes,domain.length = 512 → sendBuf.length = 512 →
    0 ∈ urlToDomain domain url ∧ ∀ id,∃ query,
      dnsSendPacket sendBuf (cstr (urlToDomain domain url)) id = .ok query ∧
        Query (cstr (urlToDomain domain url)) query

/-! ### The encoded name -/

theorem exists_labels (name : Bytes) : ∃ l ls,labels name = l::ls ∧ dotted (l::ls) = name := by
  obtain ⟨l,ls,hl⟩ := List.exists_cons_of_ne_nil (List.splitOn_ne_nil dot name)
  refine ⟨l,ls,hl,?_⟩
  rw [dotted,← hl]
  exact List.intercalate_splitOn dot

theorem notMem_labels {name l : Bytes} (h : l ∈ labels name) : dot ∉ l := by
  induction name generalizing l with
  | nil =>
    rw [labels,List.splitOn_nil] at h
    rw [List.mem_singleton.mp h]
    exact List.not_mem_nil
  | cons b name ih =>
    rw [labels,List.splitOn_cons_eq_if_modifyHead] at h
    split_ifs at h with hb
    · rcases List.mem_cons.mp h with rfl | hl
      · exact List.not_mem_nil
      · exact ih hl
    · obtain ⟨r,rs,hr,-⟩ := exists_labels name
      rw [hr] at ih
      rw [← labels,hr,List.modifyHead_cons] at h
      rcases List.mem_cons.mp h with rfl | hl
      · rintro (_ | ⟨_,hmem⟩)
        · exact hb (beq_self_eq_true dot)
        · exact ih List.mem_cons_self hmem
      · exact ih (List.mem_cons_of_mem r hl)

/-- Every name is encoded label by label. -/
theorem setQname_labels (name : Bytes) : setQname name = (labels name).flatMap counted++[0] := by
  obtain ⟨l,ls,hl,hname⟩ := exists_labels name
  have hparts : ∀ m ∈ l::ls,∀ b ∈ m,b ≠ dot := by
    rintro m hm b hb rfl
    rw [← hl] at hm
    exact notMem_labels hm hb
  rw [hl,← setQname_parts l ls hparts,hname]

/-- A length byte for every dot, one in front, and a zero byte: `strlen(name)+2`. -/
theorem setQname_length (name : Bytes) : (setQname name).length = name.length+2 := by
  have hparts : ∀ (l : Bytes) (ls : List Bytes),
      ((l::ls).flatMap counted).length = (dotted (l::ls)).length+1 := by
    intro l ls
    induction ls generalizing l with
    | nil => simp [counted,dotted,List.intercalate]
    | cons m ls ih =>
      rw [List.flatMap_cons,List.length_append,ih m,dotted_cons_cons,List.length_append]
      simp [counted]
      omega
  obtain ⟨l,ls,hl,hname⟩ := exists_labels name
  rw [setQname_labels,hl,List.length_append,hparts,hname]
  rfl

theorem setDnsPackets_length (name : Bytes) (id : ℕ) :
    (setDnsPackets name id).length = name.length+18 := by
  simp only [setDnsPackets,List.length_append,be_length,setQname_length]
  omega

/-! ### The packet -/

section Send
variable {sendBuf name : Bytes} {id : UInt32}

/-- A name of more than 492 bytes is written past the array. -/
theorem dnsSendPacket_long (hbuf : sendBuf.length = 512) (h : 492 < name.length) :
    dnsSendPacket sendBuf name id = .error .undefined := by
  have hlen := setDnsPackets_length name id.toNat
  rw [dnsSendPacket,writeAt,if_neg (by omega),error_bind]

theorem dnsSendPacket_short (hbuf : sendBuf.length = 512) (h : name.length ≤ 492) :
    dnsSendPacket sendBuf name id =
      .ok (be 2 (name.length+18)++setDnsPackets name id.toNat) := by
  have hlen := setDnsPackets_length name id.toNat
  obtain ⟨old,rest,rfl,hold⟩ := exists_split (by omega : 2 ≤ sendBuf.length)
  rw [List.length_append,hold] at hbuf
  obtain ⟨old',rest',rfl,hold'⟩ := exists_split (by omega : name.length+18 ≤ rest.length)
  have hpacket : writeAt (old++(old'++rest')) 2 (setDnsPackets name id.toNat) =
      .ok (old++setDnsPackets name id.toNat++rest') := by
    rw [← List.append_assoc]
    exact writeAt_append hold.symm (hlen.trans hold'.symm)
  have hcount : writeAt (old++setDnsPackets name id.toNat++rest') 0 (be 2 (name.length+18)) =
      .ok (be 2 (name.length+18)++(setDnsPackets name id.toNat++rest')) := by
    have h : writeAt ([]++old++(setDnsPackets name id.toNat++rest')) 0 (be 2 (name.length+18)) =
        .ok ([]++be 2 (name.length+18)++(setDnsPackets name id.toNat++rest')) :=
      writeAt_append rfl ((be_length 2 _).trans hold.symm)
    simpa using h
  have hsent : readAt (be 2 (name.length+18)++(setDnsPackets name id.toNat++rest')) 0
      (name.length+18+2) = .ok (be 2 (name.length+18)++setDnsPackets name id.toNat) := by
    rw [← List.append_assoc]
    apply readAt_front
    rw [List.length_append,be_length,hlen,Nat.add_comm]
  rw [dnsSendPacket]
  simp only [hlen,hpacket,ok_bind,hcount,hsent]

/-- What is sent is the query, up to the length of the labels. -/
theorem query_iff (hlen : name.length ≤ 492) :
    Query name (be 2 (name.length+18)++setDnsPackets name id.toNat) ↔
      ∀ l ∈ labels name,UInt8.ofNat l.length ≤ 63 := by
  constructor
  · exact Query.lengths
  · intro h
    have hpre : (be 2 (name.length+18)).length = 2 := be_length 2 _
    have htotal : (be 2 (name.length+18)++setDnsPackets name id.toNat).length = name.length+20 := by
      rw [List.length_append,hpre,setDnsPackets_length]
      omega
    refine ⟨htotal.trans_le (by omega),?_,?_,h⟩
    · rw [htotal,List.take_left' hpre,ofBe_be_of_lt (by omega)]
      omega
    · refine ⟨be 2 id.toNat++be 2 0x0100++be 2 1++be 2 0++be 2 0++be 2 0,be 2 1++be 2 1,by simp,
        by simp,?_⟩
      rw [List.drop_left' hpre,setDnsPackets,setQname_labels]
      simp only [List.append_assoc,List.cons_append,List.nil_append]

end Send

/-- There is a host of at most 492 bytes to look up, no capital `S` in `https`, and no label
whose length is too large for its byte. -/
structure Sendable (url : Bytes) : Prop where
  capital : ¬CapitalS url
  some : host url ≠ []
  short : (host url).length ≤ 492
  labels : ∀ l ∈ labels (host url),l.length%256 ≤ 63

/-- A length byte is the length modulo 256. -/
theorem lengthByte_le (l : Bytes) : UInt8.ofNat l.length ≤ 63 ↔ l.length%256 ≤ 63 := by
  rw [UInt8.le_iff_toNat_le,UInt8.toNat_ofNat']
  rfl

/-- The query of a URL fits its buffer and is well formed exactly when the URL is sendable. -/
theorem sendsQuery_iff (url : Text) : SendsQuery url.bytes ↔ Sendable url.bytes := by
  have hbuf : (List.replicate 512 (1 : UInt8)).length = 512 := List.length_replicate
  constructor
  · intro h
    obtain ⟨hnul,hquery⟩ := h _ _ hbuf hbuf
    obtain ⟨-,hhost,hcap⟩ := host_of_terminated hnul
    have hname := (holdsHost_of_host (by decide : 0 < 511) hhost hcap _ hbuf).2.2
    rw [hname] at hquery
    obtain ⟨query,hsend,hq⟩ := hquery 0
    have hlen : ((host url.bytes).take 511).length ≤ 492 := by
      by_contra hlong
      rw [dnsSendPacket_long hbuf (not_le.mp hlong)] at hsend
      cases hsend
    have hshort : (host url.bytes).length ≤ 492 := by
      rw [List.length_take] at hlen
      omega
    rw [List.take_of_length_le (by omega)] at hq
    exact ⟨hcap,hhost,hshort,fun l hl => (lengthByte_le l).mp (hq.lengths l hl)⟩
  · intro h domain sendBuf hdomain hsend
    obtain ⟨-,hnul,hname⟩ := holdsHost_of_host (by decide : 0 < 511) h.some h.capital domain hdomain
    have hshort := h.short
    rw [List.take_of_length_le (by omega)] at hname
    rw [hname]
    refine ⟨hnul,fun id => ⟨_,dnsSendPacket_short hsend h.short,?_⟩⟩
    rw [query_iff h.short]
    exact fun l hl => (lengthByte_le l).mpr (h.labels l hl)

/-- A host of 493 letters. -/
def longUrl : Text := ⟨List.replicate 493 97,fun h => absurd (List.eq_of_mem_replicate h) (by decide)⟩

theorem not_sendsQuery_long : ¬SendsQuery longUrl.bytes := by
  intro h
  have hbuf : (List.replicate 512 (1 : UInt8)).length = 512 := List.length_replicate
  obtain ⟨hnul,hquery⟩ := h _ _ hbuf hbuf
  obtain ⟨-,hhost,hcap⟩ := host_of_terminated hnul
  have hname := (holdsHost_of_host (by decide : 0 < 511) hhost hcap _ hbuf).2.2
  have hlong : 492 < ((host longUrl.bytes).take 511).length := by decide +kernel
  obtain ⟨query,hsend,-⟩ := hquery 0
  rw [hname,dnsSendPacket_long hbuf hlong] at hsend
  cases hsend

end AntQuery
end RecycleBin
