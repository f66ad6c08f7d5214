import Degoonification.Dns.Names

/-! Which accepted names are complete. A walk repeats the moves of the name loop
without its stops; the loop is a walk of at most 64 moves. A name is accepted
without being complete exactly when its walk goes astray: it meets a length byte
of a reserved type, lands outside the datagram behind a pointer, or makes 64
moves with something left to read. A complete name of 64 labels uses up the rounds
in front of its end, and the question behind it is read too early. -/

namespace Degoonification.DnsPacket

/-- One move of the loop from a position: the label it reads, none at a pointer,
and where it goes. There is no move at a zero byte, outside the datagram, or at a
label or pointer that is cut off. -/
def hop (data : Bytes) (c : ℕ) : Option (List Bytes × ℕ) :=
  match data[c]? with
  | none => none
  | some l =>
    if l = 0 then none
    else if 192 ≤ l.toNat then
      data[c + 1]?.map fun lo => ([], (l.toNat - 192) * 256 + lo.toNat)
    else if data.length < c + 1 + l.toNat then none
    else some ([(data.drop (c + 1)).take l.toNat], c + 1 + l.toNat)

/-- `k` moves: the labels read and the position reached. -/
def walk (data : Bytes) : ℕ → ℕ → Option (List Bytes × ℕ)
  | 0, c => some ([], c)
  | k + 1, c => (hop data c).bind fun r => (walk data k r.2).map fun r' => (r.1 ++ r'.1, r'.2)

/-- A length byte with exactly one of its two high bits set. -/
def Reserved (data : Bytes) (c : ℕ) : Prop :=
  ∃ l, data[c]? = some l ∧ 64 ≤ l.toNat ∧ l.toNat < 192

/-- The walk from `s` leaves the labels and pointers of a name within the 64
moves of the loop, or needs more of them. -/
def Astray (data : Bytes) (s : ℕ) : Prop :=
  ∃ k ls c, walk data k s = some (ls, c) ∧
    (k < 64 ∧ (data.length ≤ c ∨ Reserved data c) ∨
      k = 64 ∧ ¬ ∃ hops next, NameAt data c [] hops next)

/-! ### Walks -/

theorem walk_zero {data : Bytes} {c c' : ℕ} {ls : List Bytes} :
    walk data 0 c = some (ls, c') ↔ ls = [] ∧ c' = c := by
  rw [walk, Option.some_inj, Prod.mk.injEq, eq_comm, @eq_comm _ c]

theorem walk_succ {data : Bytes} {k c c' : ℕ} {ls : List Bytes} :
    walk data (k + 1) c = some (ls, c') ↔ ∃ l m ls', hop data c = some (l, m) ∧
      walk data k m = some (ls', c') ∧ ls = l ++ ls' := by
  simp only [walk, Option.bind_eq_some_iff, Option.map_eq_some_iff, Prod.exists, Prod.mk.injEq]
  constructor
  · rintro ⟨l, m, hhop, ls', c'', hwalk, rfl, rfl⟩
    exact ⟨l, m, ls', hhop, hwalk, rfl⟩
  · rintro ⟨l, m, ls', hhop, hwalk, rfl⟩
    exact ⟨l, m, hhop, ls', c', hwalk, rfl, rfl⟩

/-- A shorter walk is the beginning of a longer one. -/
theorem walk_add {data : Bytes} {k m c e : ℕ} {ls : List Bytes}
    (h : walk data (k + m) c = some (ls, e)) : ∃ ls₁ c₁ ls₂, walk data k c = some (ls₁, c₁) ∧
      walk data m c₁ = some (ls₂, e) ∧ ls = ls₁ ++ ls₂ := by
  induction k generalizing c ls with
  | zero => exact ⟨[], c, ls, rfl, by rwa [Nat.zero_add] at h, rfl⟩
  | succ k ih =>
    rw [Nat.add_right_comm, walk_succ] at h
    obtain ⟨l, c', ls', hhop, hwalk, rfl⟩ := h
    obtain ⟨ls₁, c₁, ls₂, h₁, h₂, rfl⟩ := ih hwalk
    exact ⟨l ++ ls₁, c₁, ls₂, walk_succ.mpr ⟨l, c', ls₁, hhop, h₁, rfl⟩, h₂,
      (List.append_assoc ..).symm⟩

theorem hop_eq_none {data : Bytes} {c : ℕ} (h : data[c]? = none ∨ data[c]? = some 0) :
    hop data c = none := by
  rcases h with h | h <;> simp [hop, h]

theorem one_le_of_ne_zero {l : UInt8} (h : l ≠ 0) : 1 ≤ l.toNat := by
  rw [Nat.one_le_iff_ne_zero]
  exact fun h0 => h (UInt8.toNat_inj.mp h0)

theorem hop_label {data : Bytes} {c : ℕ} {l : UInt8} (h : data[c]? = some l) (hpos : 1 ≤ l.toNat)
    (hlt : l.toNat < 192) (hin : c + 1 + l.toNat ≤ data.length) :
    hop data c = some ([(data.drop (c + 1)).take l.toNat], c + 1 + l.toNat) := by
  simp only [hop, h, if_neg (ne_zero_of_pos hpos), if_neg (Nat.not_le.mpr hlt),
    if_neg (show ¬ data.length < c + 1 + l.toNat by omega)]

theorem hop_pointer {data : Bytes} {c : ℕ} {hi lo : UInt8} (h : data[c]? = some hi)
    (hhi : 192 ≤ hi.toNat) (hlo : data[c + 1]? = some lo) :
    hop data c = some ([], (hi.toNat - 192) * 256 + lo.toNat) := by
  simp only [hop, h, if_neg (ne_zero_of_pos (by omega : 1 ≤ hi.toNat)), if_pos hhi, hlo,
    Option.map_some]

/-- A move reads a label or follows a pointer. -/
theorem hop_cases {data : Bytes} {c m : ℕ} {ls : List Bytes} (h : hop data c = some (ls, m)) :
    (∃ l, data[c]? = some l ∧ 1 ≤ l.toNat ∧ l.toNat < 192 ∧ c + 1 + l.toNat ≤ data.length ∧
        ls = [(data.drop (c + 1)).take l.toNat] ∧ m = c + 1 + l.toNat) ∨
      ∃ hi lo, data[c]? = some hi ∧ 192 ≤ hi.toNat ∧ data[c + 1]? = some lo ∧ ls = [] ∧
        m = (hi.toNat - 192) * 256 + lo.toNat := by
  cases hl : data[c]? with
  | none => simp [hop_eq_none (Or.inl hl)] at h
  | some l =>
    rcases eq_or_ne l 0 with rfl | hzero
    · simp [hop_eq_none (Or.inr hl)] at h
    have hpos := one_le_of_ne_zero hzero
    rcases Nat.lt_or_ge l.toNat 192 with hlt | hhi
    · rcases Nat.lt_or_ge data.length (c + 1 + l.toNat) with hcut | hin
      · simp [hop, hl, hzero, Nat.not_le.mpr hlt, hcut] at h
      · rw [hop_label hl hpos hlt hin] at h
        obtain ⟨rfl, rfl⟩ := Prod.mk.inj (Option.some.inj h)
        exact Or.inl ⟨l, rfl, hpos, hlt, hin, rfl, rfl⟩
    · cases hlo : data[c + 1]? with
      | none => simp [hop, hl, hzero, hhi, hlo] at h
      | some lo =>
        rw [hop_pointer hl hhi hlo] at h
        obtain ⟨rfl, rfl⟩ := Prod.mk.inj (Option.some.inj h)
        exact Or.inr ⟨l, lo, rfl, hhi, rfl, rfl, rfl⟩

/-- What a round of the loop can do: fall out outside the datagram or at a zero
byte, read a label, or follow a pointer. -/
theorem readName_succ_cases {data : Bytes} {budget : ℕ} {c c' : NameCursor}
    (h : readName data (budget + 1) c = some c') :
    (data[c.curr]? = none ∧ c' = c) ∨
      (data[c.curr]? = some 0 ∧
        c' = { c with offset := if c.jumped then c.offset else c.curr + 1 }) ∨
      (∃ l, data[c.curr]? = some l ∧ 1 ≤ l.toNat ∧ l.toNat < 192 ∧
        c.curr + 1 + l.toNat ≤ data.length ∧ readName data budget ⟨c.curr + 1 + l.toNat,
          if c.jumped then c.offset else c.curr + 1 + l.toNat, c.jumped,
          pushLabel c.qname ((data.drop (c.curr + 1)).take l.toNat)⟩ = some c') ∨
      ∃ hi lo, data[c.curr]? = some hi ∧ 192 ≤ hi.toNat ∧ data[c.curr + 1]? = some lo ∧
        readName data budget ⟨(hi.toNat - 192) * 256 + lo.toNat,
          if c.jumped then c.offset else c.curr + 2, true, c.qname⟩ = some c' := by
  cases hl : data[c.curr]? with
  | none =>
    obtain rfl := Option.some.inj ((readName_none hl).symm.trans h)
    exact Or.inl ⟨rfl, rfl⟩
  | some l =>
    rcases eq_or_ne l 0 with rfl | hzero
    · obtain rfl := Option.some.inj ((readName_zero hl).symm.trans h)
      exact Or.inr (Or.inl ⟨rfl, rfl⟩)
    · have hpos := one_le_of_ne_zero hzero
      rcases Nat.lt_or_ge l.toNat 192 with hlt | hhi
      · rcases Nat.lt_or_ge data.length (c.curr + 1 + l.toNat) with hcut | hin
        · rw [readName_label_cut hl hpos hlt hcut] at h
          cases h
        · rw [readName_label hl hpos hlt hin] at h
          exact Or.inr (Or.inr (Or.inl ⟨l, rfl, hpos, hlt, hin, h⟩))
      · cases hlo : data[c.curr + 1]? with
        | none =>
          rw [readName_pointer_cut hl hhi hlo] at h
          cases h
        | some lo =>
          rw [readName_pointer hl hhi hlo] at h
          exact Or.inr (Or.inr (Or.inr ⟨l, lo, rfl, hhi, rfl, h⟩))

/-- The loop is a walk that stops at its budget, outside the datagram or at a
zero byte. -/
theorem exists_walk_of_readName {data : Bytes} {budget : ℕ} : ∀ {c c' : NameCursor},
    readName data budget c = some c' → ∃ k ls, k ≤ budget ∧
      walk data k c.curr = some (ls, c'.curr) ∧ c'.qname = pushLabels c.qname ls ∧
      (k = budget ∨ data[c'.curr]? = none ∨ data[c'.curr]? = some 0) := by
  induction budget with
  | zero =>
    intro c c' h
    obtain rfl : c = c' := Option.some.inj h
    exact ⟨0, [], le_rfl, rfl, rfl, Or.inl rfl⟩
  | succ budget ih =>
    intro c c' h
    rcases readName_succ_cases h with ⟨hend, rfl⟩ | ⟨hzero, rfl⟩ |
      ⟨l, hl, hpos, hlt, hin, hrest⟩ | ⟨hi, lo, hl, hhi, hlo, hrest⟩
    · exact ⟨0, [], Nat.zero_le _, rfl, rfl, Or.inr (Or.inl hend)⟩
    · exact ⟨0, [], Nat.zero_le _, rfl, rfl, Or.inr (Or.inr hzero)⟩
    · obtain ⟨k, ls, hk, hwalk, hq, hstop⟩ := ih hrest
      exact ⟨k + 1, _ :: ls, by omega,
        walk_succ.mpr ⟨_, _, ls, hop_label hl hpos hlt hin, hwalk, rfl⟩, hq,
        hstop.imp_left fun h => by rw [h]⟩
    · obtain ⟨k, ls, hk, hwalk, hq, hstop⟩ := ih hrest
      exact ⟨k + 1, ls, by omega, walk_succ.mpr ⟨_, _, ls, hop_pointer hl hhi hlo, hwalk, rfl⟩, hq,
        hstop.imp_left fun h => by rw [h]⟩

/-! ### Walks and complete names -/

/-- A walk along a complete name never leaves it. -/
theorem NameAt.of_walk {data : Bytes} {k : ℕ} : ∀ {s c hops next : ℕ} {ls ls' : List Bytes},
    NameAt data s ls hops next → walk data k s = some (ls', c) →
      ∃ ls'' hops' next', ls = ls' ++ ls'' ∧ NameAt data c ls'' hops' next' := by
  induction k with
  | zero =>
    intro s c hops next ls ls' h hwalk
    obtain ⟨rfl, rfl⟩ := walk_zero.mp hwalk
    exact ⟨ls, hops, next, rfl, h⟩
  | succ k ih =>
    intro s c hops next ls ls' h hwalk
    obtain ⟨l, m, ls₁, hhop, hleft, rfl⟩ := walk_succ.mp hwalk
    cases h with
    | zero hz => simp [hop_eq_none (Or.inr hz)] at hhop
    | label hl hpos hle hin hrest =>
      rw [hop_label hl hpos (by omega) hin] at hhop
      obtain ⟨rfl, rfl⟩ := Prod.mk.inj (Option.some.inj hhop)
      obtain ⟨ls'', hops', next', rfl, hname⟩ := ih hrest hleft
      exact ⟨ls'', hops', next', rfl, hname⟩
    | pointer hp hhi hlo hrest =>
      rw [hop_pointer hp hhi hlo] at hhop
      obtain ⟨rfl, rfl⟩ := Prod.mk.inj (Option.some.inj hhop)
      obtain ⟨ls'', hops', next', rfl, hname⟩ := ih hrest hleft
      exact ⟨ls'', hops', next', rfl, hname⟩

/-- A move from a position whose length byte is not reserved extends a complete
name backwards. -/
theorem NameAt.of_hop {data : Bytes} {s m hops next : ℕ} {l ls : List Bytes}
    (hhop : hop data s = some (l, m)) (hres : ¬ Reserved data s) (h : NameAt data m ls hops next) :
    ∃ next', NameAt data s (l ++ ls) (hops + 1) next' := by
  rcases hop_cases hhop with ⟨b, hb, hpos, hlt, hin, rfl, rfl⟩ | ⟨hi, lo, hb, hhi, hlo, rfl, rfl⟩
  · have hle : b.toNat ≤ 63 := by
      by_contra hgt
      exact hres ⟨b, hb, by omega, hlt⟩
    exact ⟨next, .label hb hpos hle hin h⟩
  · exact ⟨s + 2, .pointer hb hhi hlo h⟩

/-- A walk that meets no reserved length byte extends a complete name backwards. -/
theorem exists_nameAt_of_walk {data : Bytes} {k : ℕ} : ∀ {s c hops next : ℕ}
    {ls ls' : List Bytes}, walk data k s = some (ls, c) →
      (∀ j < k, ∀ ls₁ c₁, walk data j s = some (ls₁, c₁) → ¬ Reserved data c₁) →
      NameAt data c ls' hops next → ∃ hops' next', NameAt data s (ls ++ ls') hops' next' := by
  induction k with
  | zero =>
    intro s c hops next ls ls' hwalk _ h
    obtain ⟨rfl, rfl⟩ := walk_zero.mp hwalk
    exact ⟨hops, next, h⟩
  | succ k ih =>
    intro s c hops next ls ls' hwalk hres h
    obtain ⟨l, m, ls₁, hhop, hleft, rfl⟩ := walk_succ.mp hwalk
    obtain ⟨hops', next', hrest⟩ := ih hleft (fun j hj ls₂ c₂ h₂ =>
      hres (j + 1) (by omega) _ c₂ (walk_succ.mpr ⟨l, m, ls₂, hhop, h₂, rfl⟩)) h
    obtain ⟨next'', hname⟩ := hrest.of_hop hhop (hres 0 (by omega) [] s rfl)
    exact ⟨hops' + 1, next'', by rwa [List.append_assoc]⟩

/-! ### Accepted names -/

theorem length_pushLabels_lt {ls : List Bytes} (hne : ∀ l ∈ ls, l ≠ []) (hls : ls ≠ [])
    (qname : Bytes) : qname.length < (pushLabels qname ls).length := by
  have hpush : ∀ {l : Bytes}, l ≠ [] → ∀ q : Bytes, q.length < (pushLabel q l).length := by
    intro l hl q
    have hpos := List.length_pos_iff.mpr hl
    rw [pushLabel, List.length_append, length_lower]
    split_ifs with hq
    · simpa [hq] using hpos
    · rw [List.length_append]
      omega
  induction ls generalizing qname with
  | nil => exact absurd rfl hls
  | cons l ls ih =>
    have hl := hpush (hne l List.mem_cons_self) qname
    rcases eq_or_ne ls [] with rfl | hls'
    · exact hl
    · exact hl.trans (ih (fun x hx => hne x (List.mem_cons_of_mem l hx)) hls' (pushLabel qname l))

/-- A walk of the loop's full budget has nothing left when it ends on a complete
name whose labels are all decoded. -/
theorem leftover_nil {data : Bytes} {s k c' : ℕ} {ls ls₁ ls₂ : List Bytes} {c₁ hops next : ℕ}
    (hwalk : walk data k s = some (ls, c')) (hk : k ≤ 64)
    (hstop : k = 64 ∨ data[c']? = none ∨ data[c']? = some 0)
    (hwalk₁ : walk data 64 s = some (ls₁, c₁)) (hname : NameAt data s (ls₁ ++ ls₂) hops next)
    (hq : pushLabels [] ls = pushLabels [] (ls₁ ++ ls₂)) : ls₂ = [] := by
  rcases Nat.lt_or_eq_of_le hk with hlt | rfl
  · obtain ⟨ls₃, c₃, ls₄, h₃, h₄, -⟩ := walk_add (k := k) (m := 63 - k + 1)
      (by rwa [show k + (63 - k + 1) = 64 by omega])
    obtain ⟨-, rfl⟩ := Prod.mk.inj (Option.some.inj (hwalk.symm.trans h₃))
    obtain ⟨l, m, ls₅, hhop, -, -⟩ := walk_succ.mp h₄
    rw [hop_eq_none (hstop.resolve_left hlt.ne)] at hhop
    cases hhop
  · obtain ⟨rfl, -⟩ := Prod.mk.inj (Option.some.inj (hwalk.symm.trans hwalk₁))
    by_contra hls₂
    have hlt := length_pushLabels_lt
      (fun l hl => hname.ne_nil l (List.mem_append_right ls hl)) hls₂ (pushLabels [] ls)
    have happ : pushLabels [] (ls ++ ls₂) = pushLabels (pushLabels [] ls) ls₂ := List.foldl_append
    rw [← happ, ← hq] at hlt
    exact lt_irrefl _ hlt

/-- An accepted name is complete, and decoded whole, exactly when its walk does
not go astray. -/
theorem readName_decodes_iff {data : Bytes} {s : ℕ} {c : NameCursor}
    (h : readName data 64 (startCursor s) = some c) :
    (∃ ls hops next, NameAt data s ls hops next ∧ c.qname = dotted (ls.map lower)) ↔
      ¬ Astray data s := by
  obtain ⟨k, ls, hk, hwalk, hq, hstop⟩ := exists_walk_of_readName h
  constructor
  · rintro ⟨ls', hops, next, hname, hq'⟩ ⟨j, ls₁, c₁, hwalk₁, hj⟩
    obtain ⟨ls₂, hops₂, next₂, rfl, hname₂⟩ := hname.of_walk hwalk₁
    rcases hj with ⟨-, hout | ⟨b, hb, hlo, hhi⟩⟩ | ⟨rfl, hleft⟩
    · rw [← List.getElem?_eq_none_iff] at hout
      cases hname₂ <;> simp_all
    · cases hname₂ with
      | zero hz =>
        obtain rfl := Option.some.inj (hb.symm.trans hz)
        simp at hlo
      | label hl _ hle =>
        obtain rfl := Option.some.inj (hb.symm.trans hl)
        omega
      | pointer hl hge =>
        obtain rfl := Option.some.inj (hb.symm.trans hl)
        omega
    · rw [← pushLabels_nil hname.ne_nil] at hq'
      obtain rfl := leftover_nil hwalk hk hstop hwalk₁ hname (hq.symm.trans hq')
      exact hleft ⟨hops₂, next₂, hname₂⟩
  · intro hstay
    have hend : ∃ hops next, NameAt data c.curr [] hops next := by
      by_contra hnone
      rcases hstop with rfl | hout | hzero
      · exact hstay ⟨64, ls, c.curr, hwalk, Or.inr ⟨rfl, hnone⟩⟩
      · rcases Nat.lt_or_eq_of_le hk with hlt | rfl
        · exact hstay ⟨k, ls, c.curr, hwalk,
            Or.inl ⟨hlt, Or.inl (List.getElem?_eq_none_iff.mp hout)⟩⟩
        · exact hstay ⟨64, ls, c.curr, hwalk, Or.inr ⟨rfl, hnone⟩⟩
      · exact hnone ⟨0, c.curr + 1, .zero hzero⟩
    obtain ⟨hops, next, hname⟩ := hend
    obtain ⟨hops', next', hname'⟩ := exists_nameAt_of_walk hwalk
      (fun j hj ls₁ c₁ h₁ hres => hstay ⟨j, ls₁, c₁, h₁, Or.inl ⟨by omega, Or.inr hres⟩⟩) hname
    rw [List.append_nil] at hname'
    exact ⟨ls, hops', next', hname', hq.trans (pushLabels_nil hname'.ne_nil)⟩

/-! ### Where a name ends -/

/-- 64 labels in a row, and no zero byte or pointer before them: the loop stops in
front of the end of the name. -/
def Crowded (data : Bytes) (s : ℕ) : Prop :=
  ∃ ls c, walk data 64 s = some (ls, c) ∧ ls.length = 64

/-- A move reads at most one label. -/
theorem length_le_of_walk {data : Bytes} {k : ℕ} : ∀ {s c : ℕ} {ls : List Bytes},
    walk data k s = some (ls, c) → ls.length ≤ k := by
  induction k with
  | zero =>
    intro s c ls h
    obtain ⟨rfl, -⟩ := walk_zero.mp h
    exact le_rfl
  | succ k ih =>
    intro s c ls h
    obtain ⟨l, m, ls', hhop, hwalk, rfl⟩ := walk_succ.mp h
    have hle := ih hwalk
    rw [List.length_append]
    rcases hop_cases hhop with ⟨_, -, -, -, -, rfl, -⟩ | ⟨_, _, -, -, -, rfl, -⟩
    · rw [List.length_singleton]
      omega
    · rw [List.length_nil]
      omega

/-- Behind a label, rounds are spent on labels alone if they were before it. -/
theorem exists_full_walk_label {data label : Bytes} {k s m : ℕ}
    (hhop : hop data s = some ([label], m)) :
    (∃ ls e, walk data (k + 1) s = some (ls, e) ∧ ls.length = k + 1) ↔
      ∃ ls e, walk data k m = some (ls, e) ∧ ls.length = k := by
  constructor
  · rintro ⟨ls, e, hwalk, hlen⟩
    obtain ⟨l, m', ls', hhop', hleft, rfl⟩ := walk_succ.mp hwalk
    obtain ⟨rfl, rfl⟩ := Prod.mk.inj (Option.some.inj (hhop.symm.trans hhop'))
    rw [List.singleton_append, List.length_cons, Nat.add_right_cancel_iff] at hlen
    exact ⟨ls', e, hleft, hlen⟩
  · rintro ⟨ls, e, hwalk, hlen⟩
    refine ⟨_, e, walk_succ.mpr ⟨_, _, ls, hhop, hwalk, rfl⟩, ?_⟩
    rw [List.singleton_append, List.length_cons, hlen]

/-- A round that follows a pointer reads no label. -/
theorem not_full_walk_pointer {data : Bytes} {k s m : ℕ} (hhop : hop data s = some ([], m)) :
    ¬ ∃ ls e, walk data (k + 1) s = some (ls, e) ∧ ls.length = k + 1 := by
  rintro ⟨ls, e, hwalk, hlen⟩
  obtain ⟨l, m', ls', hhop', hleft, rfl⟩ := walk_succ.mp hwalk
  obtain ⟨rfl, rfl⟩ := Prod.mk.inj (Option.some.inj (hhop.symm.trans hhop'))
  have hle := length_le_of_walk hleft
  rw [List.nil_append] at hlen
  omega

theorem NameAt.lt_next {data : Bytes} {s hops next : ℕ} {ls : List Bytes}
    (h : NameAt data s ls hops next) : s < next := by
  induction h with
  | zero => omega
  | label _ _ _ _ _ ih => omega
  | pointer => omega

/-- A position starts at most one complete name. -/
theorem NameAt.unique {data : Bytes} {s hops next : ℕ} {ls : List Bytes}
    (h : NameAt data s ls hops next) : ∀ {ls' : List Bytes} {hops' next' : ℕ},
      NameAt data s ls' hops' next' → ls' = ls ∧ next' = next := by
  induction h with
  | zero hz =>
    intro ls' hops' next' h'
    cases h' with
    | zero => exact ⟨rfl, rfl⟩
    | label hl hpos => exact absurd (Option.some.inj (hl.symm.trans hz)) (ne_zero_of_pos hpos)
    | pointer hp hhi =>
      exact absurd (Option.some.inj (hp.symm.trans hz)) (ne_zero_of_pos (by omega))
  | label hl hpos hle _ _ ih =>
    intro ls' hops' next' h'
    cases h' with
    | zero hz => exact absurd (Option.some.inj (hl.symm.trans hz)) (ne_zero_of_pos hpos)
    | label hl' _ _ _ hrest' =>
      obtain rfl := Option.some.inj (hl.symm.trans hl')
      obtain ⟨rfl, rfl⟩ := ih hrest'
      exact ⟨rfl, rfl⟩
    | pointer hp hhi =>
      obtain rfl := Option.some.inj (hl.symm.trans hp)
      omega
  | pointer hp hhi hlo _ ih =>
    intro ls' hops' next' h'
    cases h' with
    | zero hz => exact absurd (Option.some.inj (hp.symm.trans hz)) (ne_zero_of_pos (by omega))
    | label hl' _ hle' =>
      obtain rfl := Option.some.inj (hp.symm.trans hl')
      omega
    | pointer hp' _ hlo' hrest' =>
      obtain rfl := Option.some.inj (hp.symm.trans hp')
      obtain rfl := Option.some.inj (hlo.symm.trans hlo')
      exact ⟨(ih hrest').1, rfl⟩

/-- `offset` is frozen once a pointer was followed. -/
theorem readName_offset_of_jumped {data : Bytes} {budget : ℕ} : ∀ {c c' : NameCursor},
    readName data budget c = some c' → c.jumped = true → c'.offset = c.offset := by
  induction budget with
  | zero =>
    intro c c' h _
    rw [← Option.some.inj h]
  | succ budget ih =>
    intro c c' h hj
    rcases readName_succ_cases h with ⟨-, rfl⟩ | ⟨-, rfl⟩ |
      ⟨_, -, -, -, -, hrest⟩ | ⟨_, _, -, -, -, hrest⟩
    · rfl
    · exact if_pos hj
    · exact (ih hrest hj).trans (if_pos hj)
    · exact (ih hrest rfl).trans (if_pos hj)

/-- The loop finds the end of a complete name unless its rounds are spent on labels
in front of it. The induction is on the derivation, one round for each label. -/
theorem NameAt.offset_iff {data : Bytes} {s hops next : ℕ} {ls : List Bytes}
    (h : NameAt data s ls hops next) : ∀ {budget : ℕ} {c c' : NameCursor},
      DnsPacket.readName data budget c = some c' → c.curr = s → c.offset = s →
      c.jumped = false →
      (c'.offset = next ↔ ¬ ∃ ls' e, walk data budget s = some (ls', e) ∧ ls'.length = budget) := by
  induction h with
  | zero hz =>
    rintro (_ | budget) c c' h rfl hoff hj
    · obtain rfl := Option.some.inj h
      exact iff_of_false (by omega) (not_not.mpr ⟨[], _, rfl, rfl⟩)
    · obtain rfl := Option.some.inj ((readName_zero hz).symm.trans h)
      refine iff_of_true (by simp [hj]) ?_
      rintro ⟨ls', e, hwalk, -⟩
      obtain ⟨l, m, -, hhop, -⟩ := walk_succ.mp hwalk
      simp [hop_eq_none (Or.inr hz)] at hhop
  | @label s _ _ _ _ hl hpos hle hin hrest ih =>
    rintro (_ | budget) c c' h rfl hoff hj
    · obtain rfl := Option.some.inj h
      have hlt := hrest.lt_next
      exact iff_of_false (by omega) (not_not.mpr ⟨[], _, rfl, rfl⟩)
    · rw [readName_label hl hpos (by omega) hin] at h
      rw [ih h rfl (by simp [hj]) hj, not_iff_not]
      exact (exists_full_walk_label (hop_label hl hpos (by omega) hin)).symm
  | pointer hp hhi hlo _ _ =>
    rintro (_ | budget) c c' h rfl hoff hj
    · obtain rfl := Option.some.inj h
      exact iff_of_false (by omega) (not_not.mpr ⟨[], _, rfl, rfl⟩)
    · rw [readName_pointer hp hhi hlo] at h
      exact iff_of_true ((readName_offset_of_jumped h rfl).trans (by simp [hj]))
        (not_full_walk_pointer (hop_pointer hp hhi hlo))

/-! ### Accepted datagrams -/

/-- The loop over the questions, with the offset each of them is read from. -/
def questionsRead (data : Bytes) : ℕ → ℕ → Option (List (ℕ × DnsQuestion))
  | 0, _ => some []
  | n + 1, offset =>
    match readName data 64 (startCursor offset) with
    | none => none
    | some c =>
      if data.length < c.offset + 4 then none
      else
        (questionsRead data n (c.offset + 4)).map fun rest =>
          (offset, ⟨c.qname, u16At data c.offset, u16At data (c.offset + 2)⟩) :: rest

theorem parseQuestions_eq_questionsRead (data : Bytes) (n s : ℕ) :
    parseQuestions data n s = (questionsRead data n s).map fun qs => qs.map Prod.snd := by
  induction n generalizing s with
  | zero => rfl
  | succ n ih =>
    rw [parseQuestions, questionsRead]
    cases readName data 64 (startCursor s) with
    | none => rfl
    | some c =>
      dsimp only
      split_ifs
      · rfl
      · rw [ih, Option.map_map, Option.map_map]
        rfl

theorem length_of_questionsRead {data : Bytes} {n : ℕ} : ∀ {s : ℕ} {qs : List (ℕ × DnsQuestion)},
    questionsRead data n s = some qs → qs.length = n := by
  induction n with
  | zero =>
    intro s qs h
    rw [← Option.some.inj h, List.length_nil]
  | succ n ih =>
    intro s qs h
    rw [questionsRead] at h
    cases hc : readName data 64 (startCursor s) with
    | none => simp [hc] at h
    | some c =>
      simp only [hc, Option.ite_none_left_eq_some, Option.map_eq_some_iff] at h
      obtain ⟨-, rest, hrest, rfl⟩ := h
      rw [List.length_cons, ih hrest]

/-- The first question is read at the offset handed over. -/
theorem exists_cons_of_questionsRead {data : Bytes} {n s : ℕ} {qs : List (ℕ × DnsQuestion)}
    (h : questionsRead data (n + 1) s = some qs) : ∃ q rest, qs = q :: rest ∧ q.1 = s := by
  rw [questionsRead] at h
  cases hc : readName data 64 (startCursor s) with
  | none => simp [hc] at h
  | some c =>
    simp only [hc, Option.ite_none_left_eq_some, Option.map_eq_some_iff] at h
    obtain ⟨-, rest, -, rfl⟩ := h
    exact ⟨_, rest, rfl, rfl⟩

/-- The questions from an offset on: each is read where it starts, its name is
complete and `qname` is the whole of it, and the next one starts four bytes behind
that name. -/
def NamesDecoded (data : Bytes) : ℕ → List (ℕ × DnsQuestion) → Prop
  | _, [] => True
  | s, r :: qs => r.1 = s ∧ ∃ ls hops next, NameAt data s ls hops next ∧
      r.2.qname = dotted (ls.map lower) ∧ NamesDecoded data (next + 4) qs

/-- None of `n` names goes astray, the first starting at `s` and each next one four
bytes behind the end of a complete name, and none but the last is crowded. -/
def NamesStay (data : Bytes) : ℕ → ℕ → Prop
  | 0, _ => True
  | n + 1, s => ¬ Astray data s ∧ (n ≠ 0 → ¬ Crowded data s) ∧
      ∀ ls hops next, NameAt data s ls hops next → NamesStay data n (next + 4)

/-- One question after the other: where the loop takes a name to end decides where
it reads the next one. -/
theorem namesDecoded_iff {data : Bytes} {n : ℕ} : ∀ {s : ℕ} {qs : List (ℕ × DnsQuestion)},
    questionsRead data n s = some qs → (NamesDecoded data s qs ↔ NamesStay data n s) := by
  induction n with
  | zero =>
    intro s qs h
    obtain rfl := Option.some.inj h
    exact Iff.rfl
  | succ n ih =>
    intro s qs h
    rw [questionsRead] at h
    cases hc : readName data 64 (startCursor s) with
    | none => simp [hc] at h
    | some c =>
      simp only [hc, Option.ite_none_left_eq_some, Option.map_eq_some_iff] at h
      obtain ⟨-, rest, hrest, rfl⟩ := h
      have hdec := readName_decodes_iff hc
      have hend : ∀ {ls hops next}, NameAt data s ls hops next →
          (c.offset = next ↔ ¬ Crowded data s) := fun h => h.offset_iff hc rfl rfl rfl
      constructor
      · rintro ⟨-, ls, hops, next, hname, hq, hleft⟩
        have hplace : n ≠ 0 → c.offset = next := by
          intro hn
          obtain ⟨n, rfl⟩ := Nat.exists_eq_succ_of_ne_zero hn
          obtain ⟨q, qs, rfl, hstart⟩ := exists_cons_of_questionsRead hrest
          exact Nat.add_right_cancel (hstart.symm.trans hleft.1)
        refine ⟨hdec.mp ⟨ls, hops, next, hname, hq⟩, fun hn => (hend hname).mp (hplace hn), ?_⟩
        intro ls' hops' next' hname'
        obtain ⟨-, rfl⟩ := hname.unique hname'
        cases n with
        | zero => trivial
        | succ n =>
          rw [hplace n.succ_ne_zero] at hrest
          exact (ih hrest).mp hleft
      · rintro ⟨hstay, hroom, hleft⟩
        obtain ⟨ls, hops, next, hname, hq⟩ := hdec.mpr hstay
        refine ⟨rfl, ls, hops, next, hname, hq, ?_⟩
        cases n with
        | zero =>
          obtain rfl := Option.some.inj hrest
          trivial
        | succ n =>
          rw [(hend hname).mpr (hroom n.succ_ne_zero)] at hrest
          exact (ih hrest).mpr (hleft ls hops next hname)

/-- The names of an accepted datagram are complete, decoded whole and read where
they start exactly when none of their walks goes astray and none but the last
spends all rounds of the loop on its labels. -/
theorem parse_complete_iff (data : Bytes) (p : DnsPacket) (h : parse data = some p) :
    (∃ qs, questionsRead data (u16At data 4).toNat 12 = some qs ∧
      p.questions = qs.map Prod.snd ∧ qs.length = (u16At data 4).toNat ∧
      NamesDecoded data 12 qs) ↔ NamesStay data (u16At data 4).toNat 12 := by
  have hqs : parseQuestions data (u16At data 4).toNat 12 = some p.questions := by
    simp only [parse, Option.ite_none_left_eq_some, Option.map_eq_some_iff] at h
    obtain ⟨-, qs, hqs, rfl⟩ := h
    exact hqs
  rw [parseQuestions_eq_questionsRead, Option.map_eq_some_iff] at hqs
  obtain ⟨qs, hread, hmap⟩ := hqs
  rw [← namesDecoded_iff hread]
  constructor
  · rintro ⟨qs', hread', -, -, hdec⟩
    obtain rfl := Option.some.inj (hread.symm.trans hread')
    exact hdec
  · exact fun hdec => ⟨qs, hread, hmap.symm, length_of_questionsRead hread, hdec⟩

/-- Two questions, the second name ending in a pointer to the first. -/
theorem parse_complete_two_names :
    let data : Bytes := [0x12, 0x34, 1, 0, 0, 2, 0, 0, 0, 0, 0, 0, 1, 97, 0, 0, 1, 0, 1,
      1, 66, 0xC0, 0x0C, 0, 28, 0, 1]
    parse data = some ⟨0x1234, 0x0100, [⟨[97], 1, 1⟩, ⟨[98, 46, 97], 28, 1⟩]⟩ ∧
      NamesStay data 2 12 := by
  intro data
  have hparse : parse data =
      some ⟨0x1234, 0x0100, [⟨[97], 1, 1⟩, ⟨[98, 46, 97], 28, 1⟩]⟩ := by decide
  have ha : NameAt data 12 [[97]] 1 15 :=
    .label (l := 1) rfl (by decide) (by decide) (by decide) (.zero rfl)
  have hb : NameAt data 19 [[66], [97]] 3 23 :=
    .label (l := 1) rfl (by decide) (by decide) (by decide) (.pointer rfl (by decide) rfl ha)
  have hcount : (u16At data 4).toNat = 2 := by decide
  refine ⟨hparse, hcount ▸ (parse_complete_iff data _ hparse).mp
    ⟨[(12, ⟨[97], 1, 1⟩), (19, ⟨[98, 46, 97], 28, 1⟩)], by decide, rfl, hcount.symm, ?_⟩⟩
  exact ⟨rfl, _, _, _, ha, by decide, rfl, _, _, _, hb, by decide, trivial⟩

/-- A question whose name is a pointer to offset 255 of an 18-byte datagram is
accepted with the empty name. -/
theorem parse_accepts_pointer_outside :
    let data : Bytes := [0x12, 0x34, 1, 0, 0, 1, 0, 0, 0, 0, 0, 0, 0xC0, 0xFF, 0, 1, 0, 1]
    parse data = some ⟨0x1234, 0x0100, [⟨[], 1, 1⟩]⟩ ∧
      ¬ ∃ ls hops next, NameAt data 12 ls hops next := by
  refine ⟨by decide, ?_⟩
  rintro ⟨ls, hops, next, h⟩
  cases h with
  | zero h => cases h
  | label h _ hle =>
    cases h
    exact absurd hle (by decide)
  | pointer h _ hlo rest =>
    cases h
    cases hlo
    cases rest with
    | zero h => cases h
    | label h => cases h
    | pointer h => cases h

end Degoonification.DnsPacket
