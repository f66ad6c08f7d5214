import Degoonification.Bytes

/-! `DomainRadixTree::split_domain_labels`: trimming, then one index loop that
cuts the domain at its dots. The loop is equal to a scan that carries the pending
field, and on the dotted form of a label list it gives the labels back. -/

namespace Degoonification

/-- The two trimming loops at the head of `split_domain_labels`. -/
def trimDomain (domain : Bytes) : Bytes :=
  (domain.rdropWhile fun c => c == dot || isspace c).dropWhile isspace

/-- One round of the `for` loop over `i`; the state is `start` and `labels`. -/
def splitStep (domain : Bytes) (s : ℕ × List Bytes) (i : ℕ) : ℕ × List Bytes :=
  if i = domain.length ∨ domain[i]? = some dot then
    (i + 1, if s.1 < i then s.2 ++ [lower ((domain.drop s.1).take (i - s.1))] else s.2)
  else s

def splitDomainLabels (domain : Bytes) : List Bytes :=
  let domain := trimDomain domain
  ((List.range (domain.length + 1)).foldl (splitStep domain) (0, [])).2

/-! ### The loop as a scan -/

/-- The labels a pending field yields: none when it is empty. -/
def emit (field : Bytes) : List Bytes := if field = [] then [] else [lower field]

/-- The scan behind the loop: `field` is `domain[start..i)`. -/
def splitScan (field : Bytes) : Bytes → List Bytes
  | [] => emit field
  | c :: rest => if c = dot then emit field ++ splitScan [] rest else splitScan (field ++ [c]) rest

theorem splitStep_cut {d : Bytes} {start i : ℕ} {labels : List Bytes} (hi : i ≤ d.length)
    (hcut : i = d.length ∨ d[i]? = some dot) :
    splitStep d (start, labels) i = (i + 1, labels ++ emit ((d.drop start).take (i - start))) := by
  have hempty : (d.drop start).take (i - start) = [] ↔ ¬ start < i := by
    rw [← List.length_eq_zero_iff, List.length_take, List.length_drop]
    omega
  simp only [splitStep, if_pos hcut, emit, hempty, ite_not]
  split_ifs <;> simp

theorem splitStep_skip {d : Bytes} {s : ℕ × List Bytes} {i : ℕ}
    (hcut : ¬ (i = d.length ∨ d[i]? = some dot)) : splitStep d s i = s := if_neg hcut

/-- From index `i` on, the loop appends what the scan of the rest yields. The
induction is on the number of bytes left. -/
theorem foldl_splitStep (d : Bytes) : ∀ (n i start : ℕ) (labels : List Bytes), start ≤ i →
    i + n = d.length →
    ((List.range' i (n + 1)).foldl (splitStep d) (start, labels)).2 =
      labels ++ splitScan ((d.drop start).take (i - start)) (d.drop i)
  | 0, i, start, labels, _, hn => by
    have hi : i = d.length := by omega
    rw [List.range'_one, List.foldl_cons, List.foldl_nil, splitStep_cut hi.le (Or.inl hi),
      List.drop_of_length_le hi.ge, splitScan]
  | n + 1, i, start, labels, hs, hn => by
    have hi : i < d.length := by omega
    have hne : i ≠ d.length := by omega
    rw [List.range'_succ, List.foldl_cons, List.drop_eq_getElem_cons hi, splitScan]
    by_cases hdot : d[i] = dot
    · rw [splitStep_cut hi.le (Or.inr (by simp [hi, hdot])), if_pos hdot,
        foldl_splitStep d n (i + 1) (i + 1) _ le_rfl (by omega)]
      simp
    · rw [splitStep_skip (by simp [hi, hdot, hne]), if_neg hdot,
        foldl_splitStep d n (i + 1) start _ (by omega) (by omega)]
      have htake : (d.drop start).take (i + 1 - start) =
          (d.drop start).take (i - start) ++ [d[i]] := by
        rw [show i + 1 - start = i - start + 1 by omega, List.take_add_one, List.getElem?_drop,
          show start + (i - start) = i by omega, List.getElem?_eq_getElem hi, Option.toList_some]
      rw [htake]

theorem splitDomainLabels_eq_scan (s : Bytes) :
    splitDomainLabels s = splitScan [] (trimDomain s) := by
  have h := foldl_splitStep (trimDomain s) (trimDomain s).length 0 0 [] le_rfl (by omega)
  simpa [splitDomainLabels, List.range_eq_range'] using h

/-! ### Splitting a dotted label list -/

/-- The labels joined with `'.'`. -/
def dotted (labels : List Bytes) : Bytes := [dot].intercalate labels

@[simp] theorem dotted_nil : dotted [] = [] := rfl

@[simp] theorem dotted_singleton (l : Bytes) : dotted [l] = l := List.intercalate_singleton

@[simp] theorem dotted_cons_cons (l l' : Bytes) (ls : List Bytes) :
    dotted (l :: l' :: ls) = l ++ dot :: dotted (l' :: ls) := by
  simp [dotted, List.intercalate_cons_cons]

theorem splitScan_append {l : Bytes} (hl : dot ∉ l) (field rest : Bytes) :
    splitScan field (l ++ rest) = splitScan (field ++ l) rest := by
  induction l generalizing field with
  | nil => simp
  | cons c l ih =>
    obtain ⟨hc, hl⟩ : dot ≠ c ∧ dot ∉ l := by simpa using hl
    rw [List.cons_append, splitScan, if_neg (Ne.symm hc), ih hl, List.append_assoc,
      List.singleton_append]

theorem splitScan_dotted {ls : List Bytes} (hne : ∀ l ∈ ls, l ≠ []) (hdot : ∀ l ∈ ls, dot ∉ l) :
    splitScan [] (dotted ls) = ls.map lower := by
  induction ls with
  | nil => rfl
  | cons l ls ih =>
    have hl : emit l = [lower l] := if_neg (hne l (by simp))
    have hl' := hdot l (by simp)
    cases ls with
    | nil =>
      have h := splitScan_append hl' [] []
      rw [List.append_nil, List.nil_append] at h
      rw [dotted_singleton, h, splitScan, hl]
      rfl
    | cons l' ls =>
      have ih := ih (fun x hx => hne x (by simp [hx])) (fun x hx => hdot x (by simp [hx]))
      rw [dotted_cons_cons, splitScan_append hl', List.nil_append, splitScan, if_pos rfl, hl, ih]
      rfl

/-- The first and the last byte of a dotted list are bytes of its labels. -/
theorem dotted_ends {ls : List Bytes} (hne : ∀ l ∈ ls, l ≠ []) (hls : ls ≠ []) :
    (∃ l ∈ ls, ∃ c ∈ l, (dotted ls).head? = some c) ∧
      ∃ l ∈ ls, ∃ c ∈ l, (dotted ls).getLast? = some c := by
  induction ls with
  | nil => exact absurd rfl hls
  | cons l ls ih =>
    obtain ⟨c, l₀, rfl⟩ := List.exists_cons_of_ne_nil (hne l (by simp))
    have hc : c ∈ c :: l₀ := by simp
    cases ls with
    | nil =>
      refine ⟨⟨c :: l₀, by simp, c, hc, by simp⟩, c :: l₀, by simp, (c :: l₀).getLast (by simp),
        List.getLast_mem _, ?_⟩
      rw [dotted_singleton, List.getLast?_eq_some_getLast]
    | cons l' ls =>
      obtain ⟨-, l₁, h₁, c₁, hc₁, hlast⟩ := ih (fun x hx => hne x (by simp [hx])) (by simp)
      refine ⟨⟨c :: l₀, by simp, c, hc, by simp⟩, l₁, by simp [h₁], c₁, hc₁, ?_⟩
      rw [dotted_cons_cons, List.append_cons, List.getLast?_append, hlast]
      rfl

theorem trimDomain_eq_self {s : Bytes} (hhead : ∀ c, s.head? = some c → ¬ isspace c)
    (hlast : ∀ c, s.getLast? = some c → ¬ (c == dot || isspace c)) : trimDomain s = s := by
  have hr : s.rdropWhile (fun c => c == dot || isspace c) = s :=
    List.rdropWhile_eq_self_iff.mpr fun hs => hlast _ (List.getLast?_eq_some_getLast hs)
  rw [trimDomain, hr, List.dropWhile_eq_self_iff]
  intro hs
  exact hhead _ (List.head?_eq_getElem? ▸ List.getElem?_eq_getElem hs)

/-- Labels without dots and blanks come back, lower-cased, from their dotted form. -/
theorem splitDomainLabels_dotted {ls : List Bytes} (hne : ∀ l ∈ ls, l ≠ [])
    (hdot : ∀ l ∈ ls, dot ∉ l) (hspace : ∀ l ∈ ls, ∀ c ∈ l, ¬ isspace c) :
    splitDomainLabels (dotted ls) = ls.map lower := by
  rw [splitDomainLabels_eq_scan, trimDomain_eq_self, splitScan_dotted hne hdot]
  all_goals
    intro c hc
    rcases eq_or_ne ls [] with rfl | hls
    · simp at hc
  · obtain ⟨⟨l, hl, c', hc', h⟩, -⟩ := dotted_ends hne hls
    obtain rfl : c' = c := Option.some.inj (h.symm.trans hc)
    exact hspace l hl c' hc'
  · obtain ⟨-, l, hl, c', hc', h⟩ := dotted_ends hne hls
    obtain rfl : c' = c := Option.some.inj (h.symm.trans hc)
    have hd : c' ≠ dot := fun he => hdot l hl (he ▸ hc')
    simpa [hd] using hspace l hl c' hc'

/-! ### Ends and parts of a dotted list -/

theorem dotted_append {ls ls' : List Bytes} (hls : ls ≠ []) (hls' : ls' ≠ []) :
    dotted (ls ++ ls') = dotted ls ++ dot :: dotted ls' := by
  induction ls with
  | nil => exact absurd rfl hls
  | cons l ls ih =>
    cases ls with
    | nil =>
      obtain ⟨l', rest, rfl⟩ := List.exists_cons_of_ne_nil hls'
      rw [dotted_singleton, List.singleton_append, dotted_cons_cons]
    | cons l' ls =>
      rw [List.cons_append, List.cons_append, dotted_cons_cons, dotted_cons_cons,
        ← List.cons_append, ih (by simp), List.append_assoc, List.cons_append]

theorem lower_dotted (ls : List Bytes) : lower (dotted ls) = dotted (ls.map lower) := by
  induction ls with
  | nil => rfl
  | cons l ls ih =>
    cases ls with
    | nil => rw [dotted_singleton, List.map_singleton, dotted_singleton]
    | cons l' ls =>
      rw [dotted_cons_cons, List.map_cons, List.map_cons, dotted_cons_cons, ← List.map_cons, ← ih]
      have hd : tolower dot = dot := tolower_eq_dot.mpr rfl
      simp [lower, hd]

theorem splitOn_dotted {ls : List Bytes} (hdot : ∀ l ∈ ls, dot ∉ l) (hls : ls ≠ []) :
    (dotted ls).splitOn dot = ls :=
  List.splitOn_intercalate dot hdot hls

/-- Behind a dot, a text that ends a dotted list is made of its last labels. -/
theorem dot_cons_dotted_suffix_iff {rs ls : List Bytes} (hrs : rs ≠ []) (hls : ls ≠ [])
    (hdotr : ∀ l ∈ rs, dot ∉ l) (hdot : ∀ l ∈ ls, dot ∉ l) :
    dot :: dotted rs <:+ dotted ls ↔ rs <:+ ls ∧ rs ≠ ls := by
  constructor
  · rintro ⟨t, ht⟩
    have hsplit := congrArg (List.splitOn dot) ht
    rw [splitOn_dotted hdot hls, List.splitOn_append_cons_self, splitOn_dotted hdotr hrs] at hsplit
    refine ⟨⟨_, hsplit⟩, ?_⟩
    rintro rfl
    exact List.splitOn_ne_nil dot t (List.self_eq_append_left.mp hsplit.symm)
  · rintro ⟨⟨pre, rfl⟩, hne⟩
    have hpre : pre ≠ [] := by
      rintro rfl
      exact hne rfl
    exact ⟨dotted pre, (dotted_append hpre hrs).symm⟩

theorem dotted_inj {rs ls : List Bytes} (hrs : rs ≠ []) (hls : ls ≠ [])
    (hdotr : ∀ l ∈ rs, dot ∉ l) (hdot : ∀ l ∈ ls, dot ∉ l) : dotted rs = dotted ls ↔ rs = ls := by
  refine ⟨fun h => ?_, congrArg dotted⟩
  rw [← splitOn_dotted hdotr hrs, h, splitOn_dotted hdot hls]

/-- A word without the letter `x` lies on one side of an `x`. -/
theorem infix_append_cons_iff {α : Type*} {p a b : List α} {x : α} (hp : p ≠ []) (hx : x ∉ p) :
    p <:+: a ++ x :: b ↔ p <:+: a ∨ p <:+: b := by
  constructor
  · rintro ⟨s, t, h⟩
    obtain ⟨u, rfl, -⟩ | ⟨u, hu, htail⟩ := List.append_eq_append_iff.mp h
    · exact Or.inl ⟨s, u, rfl⟩
    obtain _ | ⟨c, u⟩ := u
    · exact Or.inl ⟨s, [], by rw [List.append_nil, hu, List.append_nil]⟩
    obtain ⟨rfl, rfl⟩ := List.cons.inj htail
    obtain ⟨v, -, rfl⟩ | ⟨v, -, hv⟩ := List.append_eq_append_iff.mp hu
    · simp at hx
    obtain _ | ⟨c, v⟩ := v
    · have hp : x :: u = p := hv
      exact absurd (hp ▸ List.mem_cons_self) hx
    obtain ⟨rfl, rfl⟩ := List.cons.inj hv
    exact Or.inr ⟨v, t, rfl⟩
  · rintro (h | h)
    · exact h.trans List.infix_append_left
    · exact h.trans ((List.suffix_cons x b).isInfix.trans List.infix_append_right)

/-- A text without dots lies inside a dotted list if it lies inside a label. -/
theorem infix_dotted_iff {p : Bytes} (hp : p ≠ []) (hdot : dot ∉ p) (ls : List Bytes) :
    p <:+: dotted ls ↔ ∃ l ∈ ls, p <:+: l := by
  induction ls with
  | nil => simp [hp]
  | cons l ls ih =>
    cases ls with
    | nil => simp
    | cons l' ls =>
      rw [dotted_cons_cons, infix_append_cons_iff hp hdot, ih]
      simp only [List.mem_cons, exists_eq_or_imp]

end Degoonification
