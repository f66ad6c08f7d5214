import Degoonification.Dns.Packet

/-! `DnsPacket::parse` with every read of the buffer on record. The reads here are
unchecked, as in the source, and return 0 outside the datagram; only the tests the
source makes stand before them. The record changes nothing about the result, holds no
index outside the datagram, and is bounded, so the loops end. -/

namespace Degoonification.DnsPacket

/-- `data[i]` behind a raw pointer. -/
def byteAt (data : Bytes) (i : ℕ) : UInt8 := data.getD i 0

/-- The name loop with `hops` counted up, its result and the indices it reads. -/
def nameReads (data : Bytes) (hops : ℕ) (c : NameCursor) : Option NameCursor × List ℕ :=
  if c.curr < data.length ∧ hops < 64 then
    let labelLen := byteAt data c.curr
    if labelLen = 0 then
      (some { c with offset := if c.jumped then c.offset else c.curr + 1 }, [c.curr])
    else if labelLen &&& 0xC0 = 0xC0 then
      if data.length ≤ c.curr + 1 then (none, [c.curr])
      else
        let r := nameReads data (hops + 1)
          { curr := pointerOffset labelLen (byteAt data (c.curr + 1))
            offset := if c.jumped then c.offset else c.curr + 2
            jumped := true
            qname := c.qname }
        (r.1, c.curr :: (c.curr + 1) :: r.2)
    else if data.length < c.curr + 1 + labelLen.toNat then (none, [c.curr])
    else
      let label := List.range' (c.curr + 1) labelLen.toNat
      let r := nameReads data (hops + 1)
        { curr := c.curr + 1 + labelLen.toNat
          offset := if c.jumped then c.offset else c.curr + 1 + labelLen.toNat
          jumped := c.jumped
          qname := pushLabel c.qname (label.map (byteAt data)) }
      (r.1, c.curr :: label ++ r.2)
  else (some c, [])
termination_by 64 - hops

/-- The loop over the questions, `n` of them left. -/
def questionReads (data : Bytes) : ℕ → ℕ → Option (List DnsQuestion) × List ℕ
  | 0, _ => (some [], [])
  | n + 1, offset =>
    match nameReads data 0 (startCursor offset) with
    | (none, reads) => (none, reads)
    | (some c, reads) =>
      if data.length < c.offset + 4 then (none, reads)
      else
        let qtype := be16 (byteAt data c.offset) (byteAt data (c.offset + 1))
        let qclass := be16 (byteAt data (c.offset + 2)) (byteAt data (c.offset + 3))
        let r := questionReads data n (c.offset + 4)
        (r.1.map (⟨c.qname, qtype, qclass⟩ :: ·),
          reads ++ [c.offset, c.offset + 1, c.offset + 2, c.offset + 3] ++ r.2)

def parseReads (data : Bytes) : Option DnsPacket × List ℕ :=
  if data.length < 12 then (none, [])
  else
    let id := be16 (byteAt data 0) (byteAt data 1)
    let flags := be16 (byteAt data 2) (byteAt data 3)
    let qdcount := be16 (byteAt data 4) (byteAt data 5)
    let r := questionReads data qdcount.toNat 12
    (r.1.map fun questions => ⟨id, flags, questions⟩, [0, 1, 2, 3, 4, 5] ++ r.2)

/-! ### The result -/

theorem getElem?_byteAt {data : Bytes} {i : ℕ} (h : i < data.length) :
    data[i]? = some (byteAt data i) := by
  rw [byteAt, List.getD_eq_getElem?_getD, List.getElem?_eq_getElem h, Option.getD_some]

theorem map_byteAt_range' {data : Bytes} {i n : ℕ} (h : i + n ≤ data.length) :
    (List.range' i n).map (byteAt data) = (data.drop i).take n := by
  refine List.ext_getElem (by simp; omega) fun j hj hj' => ?_
  rw [List.length_map, List.length_range'] at hj
  simp [byteAt, List.getElem?_eq_getElem (show i + j < data.length by omega)]

/-- One round of `readName` on a position inside the datagram, in terms of `byteAt`. -/
theorem readName_round {data : Bytes} {hops : ℕ} {c : NameCursor}
    (hin : c.curr < data.length ∧ hops < 64) : readName data (64 - hops) c =
      if byteAt data c.curr = 0 then
        some { c with offset := if c.jumped then c.offset else c.curr + 1 }
      else if byteAt data c.curr &&& 0xC0 = 0xC0 then
        data[c.curr + 1]?.bind fun lo =>
          readName data (64 - (hops + 1))
            { curr := pointerOffset (byteAt data c.curr) lo
              offset := if c.jumped then c.offset else c.curr + 2
              jumped := true
              qname := c.qname }
      else if data.length < c.curr + 1 + (byteAt data c.curr).toNat then none
      else
        readName data (64 - (hops + 1))
          { curr := c.curr + 1 + (byteAt data c.curr).toNat
            offset := if c.jumped then c.offset else c.curr + 1 + (byteAt data c.curr).toNat
            jumped := c.jumped
            qname := pushLabel c.qname
              ((data.drop (c.curr + 1)).take (byteAt data c.curr).toNat) } := by
  rw [show 64 - hops = (64 - (hops + 1)) + 1 by omega, readName, getElem?_byteAt hin.1]
  cases data[c.curr + 1]? <;> rfl

/-- Up to the record, the loop is `readName`. -/
theorem nameReads_fst (data : Bytes) (hops : ℕ) (c : NameCursor) :
    (nameReads data hops c).1 = readName data (64 - hops) c := by
  fun_induction nameReads data hops c with
  | case1 hops c hin labelLen hzero => rw [readName_round hin, if_pos hzero]
  | case2 hops c hin labelLen hzero hptr hend =>
    rw [readName_round hin, if_neg hzero, if_pos hptr, List.getElem?_eq_none hend]
    rfl
  | case3 hops c hin labelLen hzero hptr hend r ih =>
    rw [readName_round hin, if_neg hzero, if_pos hptr, getElem?_byteAt (not_le.mp hend)]
    exact ih
  | case4 hops c hin labelLen hzero hptr hlen =>
    rw [readName_round hin, if_neg hzero, if_neg hptr, if_pos hlen]
  | case5 hops c hin labelLen hzero hptr hlen label r ih =>
    rw [readName_round hin, if_neg hzero, if_neg hptr, if_neg hlen,
      ← map_byteAt_range' (not_lt.mp hlen)]
    exact ih
  | case6 hops c hout =>
    rcases Nat.lt_or_ge hops 64 with hhops | hhops
    · have hnone : data[c.curr]? = none :=
        List.getElem?_eq_none (not_lt.mp fun hin => hout ⟨hin, hhops⟩)
      rw [show 64 - hops = (64 - (hops + 1)) + 1 by omega, readName, hnone]
    · rw [Nat.sub_eq_zero_of_le hhops, readName]

theorem questionReads_fst (data : Bytes) (n offset : ℕ) :
    (questionReads data n offset).1 = parseQuestions data n offset := by
  induction n generalizing offset with
  | zero => rfl
  | succ n ih =>
    have hname := nameReads_fst data 0 (startCursor offset)
    rw [questionReads, parseQuestions, ← hname]
    rcases nameReads data 0 (startCursor offset) with ⟨_ | c, reads⟩
    · rfl
    · dsimp only
      split_ifs
      · rfl
      · rw [← ih]
        rfl

theorem parseReads_fst (data : Bytes) : (parseReads data).1 = parse data := by
  rw [parseReads, parse]
  split_ifs with hlen
  · rfl
  · exact congrArg (Option.map _) (questionReads_fst data _ 12)

/-! ### The reads -/

/-- Indices inside the datagram, at most `bound` of them. -/
structure Checked (data : Bytes) (bound : ℕ) (reads : List ℕ) : Prop where
  inside : ∀ i ∈ reads, i < data.length
  length_le : reads.length ≤ bound

theorem Checked.append {data : Bytes} {m n : ℕ} {reads reads' : List ℕ}
    (h : Checked data m reads) (h' : Checked data n reads') :
    Checked data (m + n) (reads ++ reads') :=
  ⟨List.forall_mem_append.mpr ⟨h.inside, h'.inside⟩,
    List.length_append.trans_le (Nat.add_le_add h.length_le h'.length_le)⟩

theorem Checked.mono {data : Bytes} {m n : ℕ} {reads : List ℕ} (h : Checked data m reads)
    (hle : m ≤ n) : Checked data n reads := ⟨h.inside, h.length_le.trans hle⟩

theorem Checked.nil (data : Bytes) (n : ℕ) : Checked data n [] :=
  ⟨List.forall_mem_nil _, n.zero_le⟩

/-- The next `n` bytes from `i` on, where the datagram has them. -/
theorem Checked.range' {data : Bytes} {i n : ℕ} (h : i + n ≤ data.length) :
    Checked data n (List.range' i n) := by
  refine ⟨fun j hj => ?_, List.length_range'.le⟩
  have := (List.mem_range'_1.mp hj).2
  omega

/-- A round reads at most 256 bytes, a length byte and a label or half a pointer. -/
theorem checked_nameReads (data : Bytes) (hops : ℕ) (c : NameCursor) :
    Checked data ((64 - hops) * 256) (nameReads data hops c).2 := by
  have hone : ∀ {i : ℕ}, i < data.length → Checked data 1 [i] := fun h =>
    Checked.range' h
  fun_induction nameReads data hops c with
  | case1 hops c hin labelLen hzero => exact (hone hin.1).mono (by omega)
  | case2 hops c hin labelLen hzero hptr hend => exact (hone hin.1).mono (by omega)
  | case3 hops c hin labelLen hzero hptr hend r ih =>
    have hpair : Checked data 2 [c.curr, c.curr + 1] := Checked.range' (by omega)
    exact (hpair.append ih).mono (by omega)
  | case4 hops c hin labelLen hzero hptr hlen => exact (hone hin.1).mono (by omega)
  | case5 hops c hin labelLen hzero hptr hlen label r ih =>
    have hlabel : Checked data labelLen.toNat label := Checked.range' (not_lt.mp hlen)
    have hbyte := labelLen.toNat_lt
    exact (((hone hin.1).append hlabel).append ih).mono (by omega)
  | case6 hops c hout => exact Checked.nil data _

theorem checked_questionReads (data : Bytes) (n offset : ℕ) :
    Checked data (n * (64 * 256 + 4)) (questionReads data n offset).2 := by
  induction n generalizing offset with
  | zero => exact Checked.nil data _
  | succ n ih =>
    have hname := checked_nameReads data 0 (startCursor offset)
    rw [questionReads]
    generalize nameReads data 0 (startCursor offset) = r at hname
    rcases r with ⟨_ | c, reads⟩
    · exact hname.mono (by omega)
    · dsimp only at hname ⊢
      split_ifs with hlen
      · exact hname.mono (by omega)
      · have hwords : Checked data 4 [c.offset, c.offset + 1, c.offset + 2, c.offset + 3] :=
          Checked.range' (not_lt.mp hlen)
        exact ((hname.append hwords).append (ih (c.offset + 4))).mono (by omega)

/-- `parse` reads no byte outside the buffer and ends after a bounded number of reads. -/
theorem parse_reads_inside (data : Bytes) :
    (parseReads data).1 = parse data ∧ (∀ i ∈ (parseReads data).2, i < data.length) ∧
      (parseReads data).2.length ≤ 6 + 65535 * (64 * 256 + 4) := by
  have hchecked : Checked data (6 + 65535 * (64 * 256 + 4)) (parseReads data).2 := by
    rw [parseReads]
    split_ifs with hlen
    · exact Checked.nil data _
    · have hheader : Checked data 6 [0, 1, 2, 3, 4, 5] := Checked.range' (by omega)
      have hcount := (be16 (byteAt data 4) (byteAt data 5)).toNat_lt
      refine (hheader.append (checked_questionReads data _ 12)).mono ?_
      exact Nat.add_le_add_left (Nat.mul_le_mul_right _ (by omega)) 6
  exact ⟨parseReads_fst data, hchecked.inside, hchecked.length_le⟩

end Degoonification.DnsPacket
