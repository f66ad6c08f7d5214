import Degoonification.Dns.Packet
import Degoonification.Domains.Labels

/-! Names on the wire. `NameAt` derives a complete name of RFC 1035 form from an
offset: labels of 1 to 63 bytes and compression pointers, up to a zero byte. The
name loop decodes every such name within its 64 rounds; for arbitrary bytes its
moves are those of a walk that knows no zero byte, no end and no bad length, and
the accepted names that are not complete are exactly those whose walk goes
astray. -/

namespace Degoonification.DnsPacket

/-- A name at an offset: its labels, the labels and pointers followed, and where
the next field starts, after the zero byte or the first pointer. -/
inductive NameAt (data : Bytes) : ℕ → List Bytes → ℕ → ℕ → Prop
  | zero {c : ℕ} (h : data[c]? = some 0) : NameAt data c [] 0 (c + 1)
  | label {c hops next : ℕ} {l : UInt8} {ls : List Bytes} (h : data[c]? = some l)
      (hpos : 1 ≤ l.toNat) (hle : l.toNat ≤ 63) (hin : c + 1 + l.toNat ≤ data.length)
      (rest : NameAt data (c + 1 + l.toNat) ls hops next) :
      NameAt data c ((data.drop (c + 1)).take l.toNat :: ls) (hops + 1) next
  | pointer {c hops next : ℕ} {hi lo : UInt8} {ls : List Bytes} (h : data[c]? = some hi)
      (hhi : 192 ≤ hi.toNat) (hlo : data[c + 1]? = some lo)
      (rest : NameAt data ((hi.toNat - 192) * 256 + lo.toNat) ls hops next) :
      NameAt data c ls (hops + 1) (c + 2)

/-! ### Rounds of the name loop -/

theorem isPointer_iff (l : UInt8) : l &&& 0xC0 = 0xC0 ↔ 192 ≤ l.toNat := by
  have h : ∀ n < 256, n &&& 192 = 192 ↔ 192 ≤ n := by decide +kernel
  rw [← UInt8.toNat_inj, UInt8.toNat_and]
  exact h l.toNat l.toNat_lt

theorem pointerOffset_eq {hi : UInt8} (h : 192 ≤ hi.toNat) (lo : UInt8) :
    pointerOffset hi lo = (hi.toNat - 192) * 256 + lo.toNat := by
  have hlt := hi.toNat_lt
  have hand : hi.toNat &&& 63 = hi.toNat % 64 := Nat.and_two_pow_sub_one_eq_mod hi.toNat 6
  rw [pointerOffset, be16_toNat, UInt8.toNat_and, show (0x3F : UInt8).toNat = 63 from rfl, hand]
  omega

section Rounds

variable {data : Bytes} {c : NameCursor} {l hi lo : UInt8} {budget : ℕ}

theorem readName_none (h : data[c.curr]? = none) : readName data (budget + 1) c = some c := by
  rw [readName, h]

theorem readName_zero (h : data[c.curr]? = some 0) : readName data (budget + 1) c =
    some { c with offset := if c.jumped then c.offset else c.curr + 1 } := by
  rw [readName, h]
  rfl

theorem ne_zero_of_pos (h : 1 ≤ l.toNat) : l ≠ 0 := by
  rintro rfl
  simp at h

theorem readName_pointer (h : data[c.curr]? = some hi) (hhi : 192 ≤ hi.toNat)
    (hlo : data[c.curr + 1]? = some lo) : readName data (budget + 1) c = readName data budget
      ⟨(hi.toNat - 192) * 256 + lo.toNat, if c.jumped then c.offset else c.curr + 2, true,
        c.qname⟩ := by
  rw [readName, h]
  simp only [if_neg (ne_zero_of_pos (by omega : 1 ≤ hi.toNat)), if_pos ((isPointer_iff hi).mpr hhi),
    hlo, pointerOffset_eq hhi]

theorem readName_pointer_cut (h : data[c.curr]? = some hi) (hhi : 192 ≤ hi.toNat)
    (hlo : data[c.curr + 1]? = none) : readName data (budget + 1) c = none := by
  rw [readName, h]
  simp only [if_neg (ne_zero_of_pos (by omega : 1 ≤ hi.toNat)), if_pos ((isPointer_iff hi).mpr hhi),
    hlo]

theorem readName_label (h : data[c.curr]? = some l) (hpos : 1 ≤ l.toNat) (hlt : l.toNat < 192)
    (hin : c.curr + 1 + l.toNat ≤ data.length) : readName data (budget + 1) c =
      readName data budget ⟨c.curr + 1 + l.toNat,
        if c.jumped then c.offset else c.curr + 1 + l.toNat, c.jumped,
        pushLabel c.qname ((data.drop (c.curr + 1)).take l.toNat)⟩ := by
  rw [readName, h]
  simp only [if_neg (ne_zero_of_pos hpos), if_neg (mt (isPointer_iff l).mp (by omega)),
    if_neg (show ¬ data.length < c.curr + 1 + l.toNat by omega)]

theorem readName_label_cut (h : data[c.curr]? = some l) (hpos : 1 ≤ l.toNat) (hlt : l.toNat < 192)
    (hin : data.length < c.curr + 1 + l.toNat) : readName data (budget + 1) c = none := by
  rw [readName, h]
  simp only [if_neg (ne_zero_of_pos hpos), if_neg (mt (isPointer_iff l).mp (by omega)),
    if_pos hin]

end Rounds

/-! ### The dotted name -/

/-- `qname` with the labels pushed in order. -/
def pushLabels (qname : Bytes) (labels : List Bytes) : Bytes := labels.foldl pushLabel qname

theorem pushLabels_of_ne_nil {ls : List Bytes} (hne : ∀ l ∈ ls, l ≠ []) {qname : Bytes}
    (hq : qname ≠ []) : pushLabels qname ls =
      if ls = [] then qname else qname ++ dot :: dotted (ls.map lower) := by
  induction ls generalizing qname with
  | nil => rfl
  | cons l ls ih =>
    have hpush : pushLabel qname l = qname ++ dot :: lower l := by simp [pushLabel, hq]
    have ih := ih (fun x hx => hne x (List.mem_cons_of_mem l hx))
      (show qname ++ dot :: lower l ≠ [] by simp)
    rw [pushLabels, List.foldl_cons, hpush]
    refine ih.trans ?_
    cases ls with
    | nil => simp
    | cons l' ls => simp

/-- From the empty `qname` the loop builds the lower-cased labels joined with dots. -/
theorem pushLabels_nil {ls : List Bytes} (hne : ∀ l ∈ ls, l ≠ []) :
    pushLabels [] ls = dotted (ls.map lower) := by
  cases ls with
  | nil => rfl
  | cons l ls =>
    have hpush : pushLabel [] l = lower l := by simp [pushLabel]
    have hl : lower l ≠ [] := by simpa using hne l List.mem_cons_self
    rw [pushLabels, List.foldl_cons, hpush]
    refine (pushLabels_of_ne_nil (fun x hx => hne x (List.mem_cons_of_mem l hx)) hl).trans ?_
    cases ls with
    | nil => simp
    | cons l' ls => simp

theorem label_ne_nil {data : Bytes} {c : ℕ} {l : UInt8} (hpos : 1 ≤ l.toNat)
    (hin : c + 1 + l.toNat ≤ data.length) : (data.drop (c + 1)).take l.toNat ≠ [] := by
  rw [← List.length_pos_iff, List.length_take, List.length_drop]
  omega

theorem NameAt.ne_nil {data : Bytes} {c hops next : ℕ} {ls : List Bytes}
    (h : NameAt data c ls hops next) : ∀ l ∈ ls, l ≠ [] := by
  induction h with
  | zero => simp
  | label h hpos _ hin _ ih => exact List.forall_mem_cons.mpr ⟨label_ne_nil hpos hin, ih⟩
  | pointer _ _ _ _ ih => exact ih

/-! ### Exact decoding within the hop budget -/

/-- The loop decodes a complete name: the labels are pushed, and unless a pointer
was followed before, `offset` ends where the next field starts. The induction is
on the derivation, one round for each label or pointer. -/
theorem NameAt.readName {data : Bytes} {s hops next : ℕ} {ls : List Bytes}
    (h : NameAt data s ls hops next) : ∀ (budget : ℕ) (c : NameCursor), c.curr = s →
      hops < budget → ∃ c', DnsPacket.readName data budget c = some c' ∧
        c'.offset = (if c.jumped then c.offset else next) ∧ c'.qname = pushLabels c.qname ls := by
  induction h with
  | zero h =>
    rintro (_ | budget) c rfl hb
    · omega
    · exact ⟨_, readName_zero h, rfl, rfl⟩
  | @label _ _ _ l _ h hpos hle hin _ ih =>
    rintro (_ | budget) c rfl hb
    · omega
    · obtain ⟨c', hc', hoff, hq⟩ := ih budget ⟨c.curr + 1 + l.toNat,
        if c.jumped then c.offset else c.curr + 1 + l.toNat, c.jumped,
        pushLabel c.qname ((data.drop (c.curr + 1)).take l.toNat)⟩ rfl (by omega)
      rw [readName_label h hpos (by omega) hin]
      refine ⟨c', hc', hoff.trans ?_, hq⟩
      cases c.jumped <;> rfl
  | pointer h hhi hlo _ ih =>
    rintro (_ | budget) c rfl hb
    · omega
    · rw [readName_pointer h hhi hlo]
      exact ih budget _ rfl (by omega)

/-- A question as the datagram spells it. -/
structure WireQuestion where
  labels : List Bytes
  qtype : UInt16
  qclass : UInt16

def WireQuestion.decoded (q : WireQuestion) : DnsQuestion :=
  ⟨dotted (q.labels.map lower), q.qtype, q.qclass⟩

/-- The questions from an offset on: each a complete name of at most 63 labels
and pointers, then QTYPE and QCLASS inside the datagram. -/
def QuestionsAt (data : Bytes) : ℕ → List WireQuestion → Prop
  | _, [] => True
  | offset, q :: qs => ∃ hops next, NameAt data offset q.labels hops next ∧ hops ≤ 63 ∧
      next + 4 ≤ data.length ∧ q.qtype = u16At data next ∧ q.qclass = u16At data (next + 2) ∧
      QuestionsAt data (next + 4) qs

theorem parseQuestions_of_questionsAt {data : Bytes} {offset : ℕ} {qs : List WireQuestion}
    (h : QuestionsAt data offset qs) :
    parseQuestions data qs.length offset = some (qs.map WireQuestion.decoded) := by
  induction qs generalizing offset with
  | nil => rfl
  | cons q qs ih =>
    obtain ⟨hops, next, hname, hhops, hin, htype, hclass, hrest⟩ := h
    obtain ⟨c, hc, hoff, hq⟩ := hname.readName 64 (startCursor offset) rfl (by omega)
    replace hoff : c.offset = next := hoff
    replace hq : c.qname = dotted (q.labels.map lower) := hq.trans (pushLabels_nil hname.ne_nil)
    rw [List.length_cons, parseQuestions, hc]
    simp only [hoff, if_neg (show ¬ data.length < next + 4 by omega), ih hrest, hq, Option.map_some,
      ← htype, ← hclass]
    rfl

/-- Wire decoding of questions is exact within the hop budget. -/
theorem parse_of_questionsAt (data : Bytes) (qs : List WireQuestion) (hlen : 12 ≤ data.length)
    (hcount : (u16At data 4).toNat = qs.length) (h : QuestionsAt data 12 qs) :
    parse data = some ⟨u16At data 0, u16At data 2, qs.map WireQuestion.decoded⟩ := by
  rw [parse, if_neg (by omega), hcount, parseQuestions_of_questionsAt h]
  rfl

/-- Two questions, the second name ending in a pointer to the first. -/
theorem parse_two_questions :
    parse [0x12, 0x34, 1, 0, 0, 2, 0, 0, 0, 0, 0, 0, 1, 97, 0, 0, 1, 0, 1,
      1, 66, 0xC0, 0x0C, 0, 28, 0, 1] =
      some ⟨0x1234, 0x0100, [⟨[97], 1, 1⟩, ⟨[98, 46, 97], 28, 1⟩]⟩ := by
  have ha : ∀ {data : Bytes}, data[12]? = some 1 → data[14]? = some 0 → 14 ≤ data.length →
      NameAt data 12 [(data.drop 13).take 1] 1 15 := fun h h' hlen =>
    .label h (by decide) (by decide) (by simpa using hlen) (.zero h')
  refine parse_of_questionsAt _ [⟨[[97]], 1, 1⟩, ⟨[[66], [97]], 28, 1⟩] (by decide) (by decide)
    ⟨1, 15, ha rfl rfl (by decide), by decide, by decide, by decide, by decide,
      3, 23, ?_, by decide, by decide, by decide, by decide, trivial⟩
  exact .label (l := 1) rfl (by decide) (by decide) (by decide)
    (.pointer rfl (by decide) rfl (ha rfl rfl (by decide)))

end Degoonification.DnsPacket
