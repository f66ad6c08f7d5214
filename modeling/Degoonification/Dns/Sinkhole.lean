import Degoonification.Dns.WireName

/-! The sinkhole response to a query whose first name is uncompressed. The name
is flattened to a dotted string by `parse` and cut at its dots again by
`buildSinkholeResponse`; without dots inside labels the two loops are inverse up
to lower case, and the response parses back to its one question. -/

namespace Degoonification.DnsPacket

/-! ### Rebuilding the name -/

/-- The field before the first dot, and the rest after it. -/
theorem writeLabels_field {l : Bytes} (hl : l ≠ []) (hdot : dot ∉ l) (rest : Bytes)
    (hrest : ∀ c, rest.head? = some c → c = dot) :
    writeLabels (l ++ rest) = UInt8.ofNat l.length :: l ++ writeLabels (rest.drop 1) := by
  have hkeep : ∀ b ∈ l, (b != dot) = true := fun b hb => by
    simpa using fun h : b = dot => hdot (h ▸ hb)
  have htake : (l ++ rest).takeWhile (fun b => b != dot) = l := by
    rw [List.takeWhile_append_of_pos hkeep]
    cases rest with
    | nil => simp
    | cons c rest => simp [hrest c rfl]
  obtain ⟨c, l₀, rfl⟩ := List.exists_cons_of_ne_nil hl
  rw [List.cons_append] at htake ⊢
  rw [writeLabels, htake, ← List.cons_append, ← List.drop_drop, List.drop_left]

/-- The length-prefixed labels come back from their dotted form. -/
theorem writeLabels_dotted {ls : List Bytes} (hne : ∀ l ∈ ls, l ≠ []) (hdot : ∀ l ∈ ls, dot ∉ l) :
    writeLabels (dotted ls) = labelBytes ls := by
  induction ls with
  | nil => simp [writeLabels]
  | cons l ls ih =>
    have hl := hne l List.mem_cons_self
    have hl' := hdot l List.mem_cons_self
    cases ls with
    | nil =>
      have h := writeLabels_field hl hl' [] (by simp)
      rw [List.append_nil, List.drop_nil, writeLabels] at h
      rw [dotted_singleton, h, labelBytes_cons, labelBytes_nil]
    | cons l' ls =>
      have ih := ih (fun x hx => hne x (List.mem_cons_of_mem l hx))
        (fun x hx => hdot x (List.mem_cons_of_mem l hx))
      rw [dotted_cons_cons, writeLabels_field hl hl' _ (by simp), List.drop_one, List.tail_cons, ih,
        labelBytes_cons l]

/-! ### The response -/

/-- One resource record owned by the name at offset 12: type, class and time to
live, then RDLENGTH and that many bytes. -/
def IsRecord (rr : Bytes) : Prop :=
  ∃ fixed rdlength rdata, rr = [0xC0, 0x0C] ++ fixed ++ word rdlength ++ rdata ∧
    fixed.length = 8 ∧ rdata.length = rdlength.toNat

theorem isRecord_sinkhole (qtype : UInt16) :
    IsRecord ([0xC0, 0x0C] ++ recordHead qtype ++ sinkholeAddress qtype) := by
  unfold recordHead sinkholeAddress
  split_ifs
  · exact ⟨[0x00, 0x1C, 0x00, 0x01, 0x00, 0x00, 0x01, 0x2C], 16, List.replicate 16 0, rfl, rfl, rfl⟩
  · exact ⟨[0x00, 0x01, 0x00, 0x01, 0x00, 0x00, 0x01, 0x2C], 4, List.replicate 4 0, rfl, rfl, rfl⟩

/-- The response header: the id, the flags, one question and one answer. -/
def responseHeader (id : UInt16) : Bytes :=
  word id ++ [0x81, 0x80, 0x00, 0x01, 0x00, 0x01, 0x00, 0x00, 0x00, 0x00]

theorem u16At_responseHeader (id : UInt16) :
    u16At (responseHeader id) 0 = id ∧ u16At (responseHeader id) 2 = 0x8180 ∧
      u16At (responseHeader id) 4 = 1 ∧ u16At (responseHeader id) 6 = 1 ∧
      u16At (responseHeader id) 8 = 0 ∧ u16At (responseHeader id) 10 = 0 :=
  have zero : be16 0x00 0x00 = 0 := by decide
  have one : be16 0x00 0x01 = 1 := by decide
  ⟨u16At_word id _, (by decide : be16 0x81 0x80 = 0x8180), one, one, zero, zero⟩

theorem buildSinkholeResponse_eq {p : DnsPacket} {q : DnsQuestion} {ls : List Bytes}
    (hq : p.questions.head? = some q) (hname : q.qname = dotted ls) (hne : ∀ l ∈ ls, l ≠ [])
    (hdot : ∀ l ∈ ls, dot ∉ l) :
    buildSinkholeResponse p = responseHeader p.id ++ wireName ls ++
      (word q.qtype ++ word q.qclass ++
        ([0xC0, 0x0C] ++ recordHead q.qtype ++ sinkholeAddress q.qtype)) := by
  obtain ⟨id, flags, qs⟩ := p
  cases qs with
  | nil => cases hq
  | cons q' qs =>
    obtain rfl : q' = q := Option.some.inj hq
    simp only [buildSinkholeResponse, hname, writeLabels_dotted hne hdot, responseHeader, wireName,
      List.append_assoc]

/-- The response spells the query's first question in lower case and answers it
with one record, and it parses back to that question. -/
theorem sinkhole_roundTrip (hdr tail : Bytes) (ls : List Bytes) (p : DnsPacket)
    (hhdr : hdr.length = 12) (hcount : 1 ≤ (u16At hdr 4).toNat) (hls : ∀ l ∈ ls, IsLabel l)
    (hdot : ∀ l ∈ ls, dot ∉ l) (hshort : ls.length ≤ 63)
    (h : parse (hdr ++ wireName ls ++ tail) = some p) :
    (∃ hdr' rr, buildSinkholeResponse p =
        hdr' ++ (wireName (ls.map lower) ++ tail.take 4) ++ rr ∧ hdr'.length = 12 ∧
        u16At hdr' 0 = u16At hdr 0 ∧ u16At hdr' 4 = 1 ∧ u16At hdr' 6 = 1 ∧ u16At hdr' 8 = 0 ∧
        u16At hdr' 10 = 0 ∧ IsRecord rr) ∧
      ∃ q, p.questions.head? = some q ∧
        parse (buildSinkholeResponse p) = some ⟨u16At hdr 0, 0x8180, [q]⟩ := by
  obtain ⟨htail, hid, hq⟩ := parse_head hhdr hcount hls hshort h
  have hls' : ∀ l ∈ ls.map lower, IsLabel l := List.forall_mem_map.mpr fun l hl => (hls l hl).lower
  have hbuild := buildSinkholeResponse_eq hq rfl (fun l hl => (hls' l hl).ne_nil)
    (List.forall_mem_map.mpr fun l hl => mt dot_mem_lower.mp (hdot l hl))
  have hlower : (ls.map lower).map lower = ls.map lower := by simp [lower_lower, Function.comp_def]
  obtain ⟨hid', hflags, hqd, han, hns, har⟩ := u16At_responseHeader p.id
  constructor
  · refine ⟨responseHeader p.id, _, ?_, rfl, hid'.trans hid, hqd, han, hns, har,
      isRecord_sinkhole (u16At tail 0)⟩
    rw [hbuild, take_four htail]
    simp only [List.append_assoc]
  · obtain ⟨q, hparse, -⟩ := @parse_single (responseHeader p.id) (word (u16At tail 0) ++
      word (u16At tail 2) ++ ([0xC0, 0x0C] ++ recordHead (u16At tail 0) ++
        sinkholeAddress (u16At tail 0))) (ls.map lower) rfl hqd hls' (by simp [word])
    obtain ⟨-, -, hq'⟩ := parse_head rfl (by rw [hqd]; decide) hls' (by simpa using hshort) hparse
    obtain ⟨htype, hclass⟩ := u16At_two_words (u16At tail 0) (u16At tail 2)
      ([0xC0, 0x0C] ++ recordHead (u16At tail 0) ++ sinkholeAddress (u16At tail 0))
    rw [hlower, htype, hclass] at hq'
    obtain rfl := Option.some.inj hq'
    exact ⟨_, hq, by rw [hbuild, hparse, hid', hflags, hid]⟩

/-- A question for `AAAA` at `Ad.Server` comes with a second one, which the response
leaves out. -/
theorem sinkhole_roundTrip_two_labels :
    let query : Bytes := [0x12, 0x34, 1, 0, 0, 2, 0, 0, 0, 0, 0, 0,
      2, 65, 100, 6, 83, 101, 114, 118, 101, 114, 0, 0, 28, 0, 1, 1, 65, 0, 0, 1, 0, 1]
    ∃ p hdr rr, parse query = some p ∧ buildSinkholeResponse p =
        hdr ++ [2, 97, 100, 6, 115, 101, 114, 118, 101, 114, 0, 0, 28, 0, 1] ++ rr ∧
      hdr.length = 12 ∧ u16At hdr 0 = 0x1234 ∧ IsRecord rr ∧
      parse (buildSinkholeResponse p) =
        some ⟨0x1234, 0x8180, [⟨[97, 100, 46, 115, 101, 114, 118, 101, 114], 28, 1⟩]⟩ := by
  intro query
  have hparse : parse query = some ⟨0x1234, 0x0100,
      [⟨[97, 100, 46, 115, 101, 114, 118, 101, 114], 28, 1⟩, ⟨[97], 1, 1⟩]⟩ := by decide
  obtain ⟨⟨hdr, rr, hbuild, hlen, hid, -, -, -, -, hrr⟩, q, hq, hback⟩ :=
    sinkhole_roundTrip [0x12, 0x34, 1, 0, 0, 2, 0, 0, 0, 0, 0, 0]
      [0, 28, 0, 1, 1, 65, 0, 0, 1, 0, 1] [[65, 100], [83, 101, 114, 118, 101, 114]] _ rfl
      (by decide) (by decide) (by decide) (by decide) hparse
  obtain rfl := Option.some.inj hq
  exact ⟨_, hdr, rr, hparse, hbuild, hlen, hid, hrr, hback⟩

end Degoonification.DnsPacket
