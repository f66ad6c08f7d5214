import Degoonification.Dns.Names

/-! Uncompressed names: labels behind their length bytes, then a zero byte. On
such a name the loop reads one label a round, so it decodes the first 64 labels
and stops at the zero byte when there are fewer. -/

namespace Degoonification.DnsPacket

/-- A label the wire format can hold. -/
def IsLabel (l : Bytes) : Prop := 1 ≤ l.length ∧ l.length ≤ 63

instance : DecidablePred IsLabel := fun l =>
  inferInstanceAs (Decidable (1 ≤ l.length ∧ l.length ≤ 63))

/-- The labels, each behind its length byte. -/
def labelBytes (labels : List Bytes) : Bytes := labels.flatMap fun l => UInt8.ofNat l.length :: l

def wireName (labels : List Bytes) : Bytes := labelBytes labels ++ [0]

@[simp] theorem labelBytes_nil : labelBytes [] = [] := rfl

@[simp] theorem labelBytes_cons (l : Bytes) (ls : List Bytes) :
    labelBytes (l :: ls) = UInt8.ofNat l.length :: l ++ labelBytes ls := rfl

theorem labelBytes_append (ls ls' : List Bytes) :
    labelBytes (ls ++ ls') = labelBytes ls ++ labelBytes ls' := List.flatMap_append

theorem IsLabel.ne_nil {l : Bytes} (h : IsLabel l) : l ≠ [] := List.length_pos_iff.mp h.1

theorem IsLabel.toNat {l : Bytes} (h : IsLabel l) : (UInt8.ofNat l.length).toNat = l.length := by
  have hle := h.2
  rw [UInt8.toNat_ofNat']
  omega

theorem IsLabel.lower {l : Bytes} (h : IsLabel l) : IsLabel (lower l) := by
  rwa [IsLabel, length_lower]

/-! ### Reading -/

/-- One round for each label. -/
theorem readName_labelBytes {data post : Bytes} {ls : List Bytes} (hls : ∀ l ∈ ls, IsLabel l)
    (budget : ℕ) : ∀ pre qname : Bytes, data = pre ++ labelBytes ls ++ post →
      readName data (budget + ls.length) ⟨pre.length, pre.length, false, qname⟩ =
        readName data budget ⟨(pre ++ labelBytes ls).length, (pre ++ labelBytes ls).length, false,
          pushLabels qname ls⟩ := by
  induction ls with
  | nil =>
    intro pre qname _
    simp [pushLabels]
  | cons l ls ih =>
    intro pre qname hdata
    have hl : IsLabel l := hls l List.mem_cons_self
    have hn := hl.toNat
    have hlen := congrArg List.length hdata
    simp only [labelBytes_cons, List.length_append, List.length_cons] at hlen
    have hbyte : data[pre.length]? = some (UInt8.ofNat l.length) := by simp [hdata]
    have hlabel : (data.drop (pre.length + 1)).take l.length = l := by
      simp [hdata, List.drop_append, List.take_append]
    have hread := @readName_label data ⟨pre.length, pre.length, false, qname⟩ _
      (budget + ls.length) hbyte (by rw [hn]; exact hl.1)
      (by rw [hn]; have := hl.2; omega) (by simp only [hn]; omega)
    have hend : pre.length + 1 + l.length = (pre ++ UInt8.ofNat l.length :: l).length := by
      simp
      omega
    simp only [hn, hlabel, hend, Bool.false_eq_true, if_false] at hread
    rw [List.length_cons, ← Nat.add_assoc, hread,
      ih (fun x hx => hls x (List.mem_cons_of_mem l hx)) _ _ (by simp [hdata])]
    simp [pushLabels]

/-- The first 64 labels are decoded, and the loop ends inside the name or right
after it. -/
theorem exists_readName_wireName {data pre post : Bytes} {ls : List Bytes}
    (hls : ∀ l ∈ ls, IsLabel l) (hdata : data = pre ++ wireName ls ++ post) :
    ∃ c, readName data 64 (startCursor pre.length) = some c ∧
      c.qname = dotted ((ls.take 64).map lower) ∧ c.offset ≤ (pre ++ wireName ls).length ∧
      (ls.length ≤ 63 → c.offset = (pre ++ wireName ls).length) := by
  have hne : ∀ l ∈ ls.take 64, l ≠ [] := fun l hl => (hls l (List.mem_of_mem_take hl)).ne_nil
  rcases Nat.lt_or_ge ls.length 64 with hlt | hge
  · have hwire : data = pre ++ labelBytes ls ++ ([0] ++ post) := by simp [hdata, wireName]
    have hread := readName_labelBytes hls (63 - ls.length + 1) pre [] hwire
    have hzero : data[(pre ++ labelBytes ls).length]? = some 0 := by
      rw [hdata, wireName, ← List.append_assoc, List.append_assoc,
        List.getElem?_append_right le_rfl]
      simp
    rw [show 63 - ls.length + 1 + ls.length = 64 by omega] at hread
    refine ⟨_, hread.trans (readName_zero hzero), ?_, ?_, fun _ => ?_⟩
    · rw [← pushLabels_nil hne, List.take_of_length_le hlt.le]
    · simp [wireName, Nat.add_assoc]
    · simp [wireName, Nat.add_assoc]
  · have htake : (ls.take 64).length = 64 := List.length_take_of_le hge
    have hsplit : labelBytes ls = labelBytes (ls.take 64) ++ labelBytes (ls.drop 64) := by
      rw [← labelBytes_append, List.take_append_drop]
    have hwire : data = pre ++ labelBytes (ls.take 64) ++
        (labelBytes (ls.drop 64) ++ [0] ++ post) := by simp [hdata, wireName, hsplit]
    have hread := readName_labelBytes (fun l hl => hls l (List.mem_of_mem_take hl)) 0 pre [] hwire
    rw [htake] at hread
    refine ⟨_, hread, pushLabels_nil hne, ?_, fun h => by omega⟩
    simp [wireName, hsplit]

/-! ### Words -/

theorem word_be16 (hi lo : UInt8) : word (be16 hi lo) = [hi, lo] := by
  have hh := hi.toNat_lt
  have hl := lo.toNat_lt
  have hand : (hi.toNat * 256 + lo.toNat) &&& 255 = (hi.toNat * 256 + lo.toNat) % 256 :=
    Nat.and_two_pow_sub_one_eq_mod _ 8
  have h₁ : (be16 hi lo >>> 8).toUInt8 = hi := by
    apply UInt8.toNat_inj.mp
    simp only [UInt16.toNat_toUInt8, UInt16.toNat_shiftRight, be16_toNat, UInt16.reduceToNat,
      Nat.reduceMod, Nat.shiftRight_eq_div_pow, Nat.reducePow]
    omega
  have h₂ : (be16 hi lo &&& 0xFF).toUInt8 = lo := by
    apply UInt8.toNat_inj.mp
    simp only [UInt16.toNat_toUInt8, UInt16.toNat_and, be16_toNat, UInt16.reduceToNat, hand]
    omega
  rw [word, h₁, h₂]

theorem u16At_append_left {a : Bytes} {i : ℕ} (hi : i + 1 < a.length) (b : Bytes) :
    u16At (a ++ b) i = u16At a i := by
  simp [u16At, List.getD_eq_getElem?_getD, List.getElem?_append_left, hi, Nat.lt_of_succ_lt hi]

theorem u16At_append_right (a b : Bytes) (i : ℕ) : u16At (a ++ b) (a.length + i) = u16At b i := by
  simp [u16At, List.getD_eq_getElem?_getD, List.getElem?_append_right, Nat.add_assoc]

theorem u16At_word (w : UInt16) (b : Bytes) : u16At (word w ++ b) 0 = w := be16_bytes w

theorem u16At_two_words (w w' : UInt16) (b : Bytes) :
    u16At (word w ++ word w' ++ b) 0 = w ∧ u16At (word w ++ word w' ++ b) 2 = w' := by
  rw [List.append_assoc]
  exact ⟨u16At_word w _, (u16At_append_right (word w) (word w' ++ b) 0).trans (u16At_word w' b)⟩

/-- Four bytes are the two words they spell. -/
theorem take_four {b : Bytes} (h : 4 ≤ b.length) :
    b.take 4 = word (u16At b 0) ++ word (u16At b 2) := by
  match b, h with
  | b₀ :: b₁ :: b₂ :: b₃ :: _, _ => simp [u16At, word_be16]

/-! ### Parsing -/

section Datagram

variable {hdr tail : Bytes} {ls : List Bytes} {p : DnsPacket}

/-- The first question of an accepted datagram whose first name is uncompressed. -/
theorem parse_head (hhdr : hdr.length = 12) (hcount : 1 ≤ (u16At hdr 4).toNat)
    (hls : ∀ l ∈ ls, IsLabel l) (hshort : ls.length ≤ 63)
    (h : parse (hdr ++ wireName ls ++ tail) = some p) :
    4 ≤ tail.length ∧ p.id = u16At hdr 0 ∧
      p.questions.head? = some ⟨dotted (ls.map lower), u16At tail 0, u16At tail 2⟩ := by
  obtain ⟨c, hc, hq, -, hoff⟩ := exists_readName_wireName hls
    (rfl : hdr ++ wireName ls ++ tail = hdr ++ wireName ls ++ tail)
  obtain ⟨n, hn⟩ := Nat.exists_eq_add_of_le' hcount
  have htype := u16At_append_right (hdr ++ wireName ls) tail
  have hid := u16At_append_left (a := hdr) (i := 0) (by omega) (wireName ls ++ tail)
  have hqd := u16At_append_left (a := hdr) (i := 4) (by omega) (wireName ls ++ tail)
  rw [← List.append_assoc] at hid hqd
  rw [List.take_of_length_le (by omega)] at hq
  rw [hhdr] at hc
  simp only [parse, Option.ite_none_left_eq_some, Option.map_eq_some_iff, hqd, hn, parseQuestions,
    hc, hoff hshort] at h
  obtain ⟨-, qs, ⟨hlen, rest, -, rfl⟩, rfl⟩ := h
  refine ⟨?_, hid, ?_⟩
  · have htotal := @List.length_append _ (hdr ++ wireName ls) tail
    omega
  · rw [htype 2, ← Nat.add_zero (hdr ++ wireName ls).length, htype 0, hq]
    rfl

/-- A datagram that announces one question with an uncompressed name is accepted. -/
theorem parse_single (hhdr : hdr.length = 12) (hcount : u16At hdr 4 = 1)
    (hls : ∀ l ∈ ls, IsLabel l) (htail : 4 ≤ tail.length) :
    ∃ q, parse (hdr ++ wireName ls ++ tail) = some ⟨u16At hdr 0, u16At hdr 2, [q]⟩ ∧
      q.qname = dotted ((ls.take 64).map lower) := by
  obtain ⟨c, hc, hq, hoff, -⟩ := exists_readName_wireName hls
    (rfl : hdr ++ wireName ls ++ tail = hdr ++ wireName ls ++ tail)
  have hword : ∀ i, i + 1 < 12 → u16At (hdr ++ wireName ls ++ tail) i = u16At hdr i := by
    intro i hi
    rw [List.append_assoc, u16At_append_left (by omega)]
  have hlen := @List.length_append _ (hdr ++ wireName ls) tail
  have hlen' := @List.length_append _ hdr (wireName ls)
  rw [hhdr] at hc
  refine ⟨⟨c.qname, u16At (hdr ++ wireName ls ++ tail) c.offset,
    u16At (hdr ++ wireName ls ++ tail) (c.offset + 2)⟩, ?_, hq⟩
  rw [parse, if_neg (by omega), hword 4 (by omega), hcount, hword 0 (by omega), hword 2 (by omega)]
  simp only [UInt16.reduceToNat, parseQuestions, hc,
    if_neg (show ¬ (hdr ++ wireName ls ++ tail).length < c.offset + 4 by omega), Option.map_some]

end Datagram

end Degoonification.DnsPacket
