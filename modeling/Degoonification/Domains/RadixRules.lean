import Degoonification.Domains.RadixPaths

/-! Runs of `DomainRadixTree` operations against the rules in force. A tree
represents a set of words, the reversed label lists of the rules, when it is well
formed and its terminal paths are the minimal words of the set. Every operation
keeps this relation, so suffix matching, the canonical shape and the exact drift
of the rule counter are read off the represented set. -/

namespace Degoonification.DomainRadixTree

open Words

/-- The label lists of the strings that carry a rule: a string without labels is
ignored by `insert`. -/
def IsRule (domains : List Bytes) (labels : List Bytes) : Prop :=
  labels ≠ [] ∧ ∃ d ∈ domains, splitDomainLabels d = labels

/-- The rules as the tree spells them, top-level domain first. -/
def ruleWords (domains : List Bytes) : Set (List Bytes) := {p | IsRule domains p.reverse}

structure Represents (t : DomainRadixTree) (S : Set (List Bytes)) : Prop where
  wf : t.root.Wf
  rootOpen : t.root.isTerminal = false
  words : t.root.words = minimal S

theorem mem_ruleWords {ds : List Bytes} {p : List Bytes} :
    p ∈ ruleWords ds ↔ IsRule ds p.reverse := Iff.rfl

theorem ruleWords_snoc_of_nil {ds : List Bytes} {d : Bytes} (hd : splitDomainLabels d = []) :
    ruleWords (ds ++ [d]) = ruleWords ds := by
  ext p
  simp only [mem_ruleWords, IsRule, List.mem_append, List.mem_singleton, and_congr_right_iff]
  intro hp
  constructor
  · rintro ⟨e, he | rfl, heq⟩
    · exact ⟨e, he, heq⟩
    · exact absurd (heq ▸ hd) hp
  · rintro ⟨e, he, heq⟩
    exact ⟨e, Or.inl he, heq⟩

theorem ruleWords_snoc {ds : List Bytes} {d : Bytes} (hd : splitDomainLabels d ≠ []) :
    ruleWords (ds ++ [d]) = Insert.insert (splitDomainLabels d).reverse (ruleWords ds) := by
  ext p
  simp only [mem_ruleWords, IsRule, List.mem_append, List.mem_singleton, Set.mem_insert_iff]
  constructor
  · rintro ⟨hp, e, he | rfl, heq⟩
    · exact Or.inr ⟨hp, e, he, heq⟩
    · exact Or.inl (by rw [heq, List.reverse_reverse])
  · rintro (rfl | ⟨hp, e, he, heq⟩)
    · exact ⟨by simpa using hd, d, Or.inr rfl, by simp⟩
    · exact ⟨hp, e, Or.inl he, heq⟩

/-! ### One operation -/

theorem represents_empty : Represents empty (ruleWords []) := by
  refine ⟨Node.wf_fresh, rfl, ?_⟩
  have hrules : ruleWords [] = ∅ := by
    ext p
    simp [mem_ruleWords, IsRule]
  rw [hrules, minimal_empty]
  ext p
  exact iff_of_false List.not_mem_nil (Set.notMem_empty p)

theorem insert_of_nil {t : DomainRadixTree} {d : Bytes} (hd : splitDomainLabels d = []) :
    t.insert d = t := if_pos hd

theorem insert_root {t : DomainRadixTree} {d : Bytes} (hd : splitDomainLabels d ≠ []) :
    (t.insert d).root = (Node.insertLabels (splitDomainLabels d).reverse t.root).1 := by
  rw [DomainRadixTree.insert, if_neg hd]

theorem insert_totalRules {t : DomainRadixTree} {d : Bytes} (hd : splitDomainLabels d ≠ []) :
    (t.insert d).totalRules =
      if (Node.insertLabels (splitDomainLabels d).reverse t.root).2 then t.totalRules + 1
      else t.totalRules := by
  rw [DomainRadixTree.insert, if_neg hd]

theorem Represents.insert {t : DomainRadixTree} {ds : List Bytes}
    (h : Represents t (ruleWords ds)) (d : Bytes) :
    Represents (t.insert d) (ruleWords (ds ++ [d])) := by
  by_cases hd : splitDomainLabels d = []
  · rwa [insert_of_nil hd, ruleWords_snoc_of_nil hd]
  · have hroot := insert_root (t := t) hd
    refine ⟨hroot ▸ Node.wf_insertLabels h.wf _, ?_, ?_⟩
    · obtain ⟨l, ls, hls⟩ := List.exists_cons_of_ne_nil (List.reverse_ne_nil_iff.mpr hd)
      rw [hroot, hls, Node.isTerminal_insertLabels_cons, h.rootOpen]
    · rw [hroot, Node.words_insertLabels h.wf, h.words, ruleWords_snoc hd, minimal_insert]

theorem Represents.foldl_insert {t : DomainRadixTree} {ds : List Bytes}
    (h : Represents t (ruleWords ds)) (es : List Bytes) :
    Represents (es.foldl DomainRadixTree.insert t) (ruleWords (ds ++ es)) := by
  induction es generalizing t ds with
  | nil => rwa [List.append_nil]
  | cons e es ih =>
    have := ih (h.insert e)
    rwa [List.append_assoc, List.singleton_append] at this

/-- The tree reached by a run represents the rules in force. -/
theorem represents_run (ops : List Op) : Represents (run ops) (ruleWords (liveDomains ops)) := by
  have h := represents_empty.foldl_insert (liveDomains ops)
  rwa [← run_eq, List.nil_append] at h

/-! ### Suffix matching -/

theorem Represents.matchesDomain_iff {t : DomainRadixTree} {ds : List Bytes}
    (h : Represents t (ruleWords ds)) (q : Bytes) :
    t.matchesDomain q = true ↔ ∃ d ∈ ds, splitDomainLabels d ≠ [] ∧
      splitDomainLabels d <:+ splitDomainLabels q := by
  have hcov : Covers (ruleWords ds) (splitDomainLabels q).reverse ↔
      ∃ d ∈ ds, splitDomainLabels d ≠ [] ∧ splitDomainLabels d <:+ splitDomainLabels q := by
    constructor
    · rintro ⟨p, ⟨hp, d, hd, heq⟩, hpre⟩
      rw [← List.reverse_suffix, List.reverse_reverse, ← heq] at hpre
      exact ⟨d, hd, heq ▸ hp, hpre⟩
    · rintro ⟨d, hd, hne, hsuf⟩
      refine ⟨(splitDomainLabels d).reverse, ⟨?_, d, hd, ?_⟩, List.reverse_prefix.mpr hsuf⟩
      · simpa using hne
      · simp
  rw [← hcov, ← covers_minimal, ← h.words]
  by_cases hq : splitDomainLabels q = []
  · rw [matchesDomain, if_pos hq, hq, List.reverse_nil, Node.covers_nil, h.rootOpen]
  · rw [matchesDomain, if_neg hq, Node.matchLabels_iff h.wf (by simp [h.rootOpen])]

/-- The tree implements suffix matching over the rules in force. -/
theorem matchesDomain_run_iff (ops : List Op) (q : Bytes) :
    (run ops).matchesDomain q = true ↔ ∃ d ∈ liveDomains ops, splitDomainLabels d ≠ [] ∧
      splitDomainLabels d <:+ splitDomainLabels q :=
  (represents_run ops).matchesDomain_iff q

/-! ### Canonical form -/

theorem Represents.mem_terminalPaths {t : DomainRadixTree} {ds : List Bytes}
    (h : Represents t (ruleWords ds)) (p : List Bytes) :
    p ∈ t.root.terminalPaths ↔
      IsRule ds p.reverse ∧ ∀ ls, IsRule ds ls → ls <:+ p.reverse → ls = p.reverse := by
  have hmem : p ∈ t.root.terminalPaths ↔ p ∈ minimal (ruleWords ds) := Set.ext_iff.mp h.words p
  rw [hmem, mem_minimal, mem_ruleWords, and_congr_right_iff]
  intro _
  constructor
  · intro hmin ls hls hsuf
    have hpre : ls.reverse <+: p := by rwa [← List.reverse_suffix, List.reverse_reverse]
    rw [← hmin ls.reverse (by rwa [mem_ruleWords, List.reverse_reverse]) hpre, List.reverse_reverse]
  · intro hmin q hq hpre
    exact List.reverse_injective (hmin q.reverse hq (List.reverse_suffix.mpr hpre))

/-- Every reachable tree is canonical, and its shape depends only on the rules in
force. -/
theorem canonical_run (ops : List Op) :
    (run ops).root.isTerminal = false ∧
      (∀ p n, (run ops).root.nodeAt p = some n → n.isTerminal = true → n.children = []) ∧
      (∀ p n, p ≠ [] → (run ops).root.nodeAt p = some n →
        ∃ q m, n.nodeAt q = some m ∧ m.isTerminal = true) ∧
      (∀ p, p ∈ (run ops).root.terminalPaths ↔ IsRule (liveDomains ops) p.reverse ∧
        ∀ ls, IsRule (liveDomains ops) ls → ls <:+ p.reverse → ls = p.reverse) ∧
      ∀ ops', (∀ ls, IsRule (liveDomains ops) ls ↔ IsRule (liveDomains ops') ls) →
        Node.Same (run ops).root (run ops').root := by
  have h := represents_run ops
  refine ⟨h.rootOpen, fun p n hn => (h.wf.nodeAt hn).leaf, fun p n hp hn => ?_,
    h.mem_terminalPaths, fun ops' hops => ?_⟩
  · obtain ⟨q, hq⟩ := List.exists_mem_of_ne_nil _ (Node.terminalPaths_nodeAt_ne_nil hp h.wf hn)
    exact ⟨q, (Node.mem_terminalPaths_iff (h.wf.nodeAt hn)).mp hq⟩
  · have h' := represents_run ops'
    have hrules : ruleWords (liveDomains ops) = ruleWords (liveDomains ops') := by
      ext p
      exact hops p.reverse
    exact Node.same_of_words_eq h.wf h'.wf (by rw [h.words, h'.words, hrules])

/-- A string without labels is inserted without becoming a terminal path, so the
terminal paths are not those of all inserted strings. -/
theorem terminalPaths_ne_all_inserted :
    ¬ ∀ (ops : List Op) (p : List Bytes), p ∈ (run ops).root.terminalPaths ↔
      ∃ d ∈ liveDomains ops, p = (splitDomainLabels d).reverse ∧
        ∀ e ∈ liveDomains ops, splitDomainLabels e <:+ splitDomainLabels d →
          splitDomainLabels e = splitDomainLabels d := by
  intro h
  have hpath : [] ∈ (run [.insert []]).root.terminalPaths :=
    (h [.insert []] []).mpr ⟨[], by decide, by decide, by decide⟩
  exact absurd hpath (by decide)

/-! ### The rule counter -/

/-- Inserting `d` deletes terminal nodes: some rule in force is a proper
subdomain of it. -/
def Prunes (t : DomainRadixTree) (d : Bytes) : Prop :=
  splitDomainLabels d ≠ [] ∧ ∃ p ∈ t.root.terminalPaths,
    (splitDomainLabels d).reverse <+: p ∧ p ≠ (splitDomainLabels d).reverse

/-- No insertion of the list, made in order from `t` on, prunes. -/
def NeverPrunes (t : DomainRadixTree) : List Bytes → Prop
  | [] => True
  | d :: ds => ¬ Prunes t d ∧ NeverPrunes (t.insert d) ds

theorem not_prunes_of_covers {t : DomainRadixTree} {S : Set (List Bytes)} (h : Represents t S)
    {d : Bytes} (hcov : Covers t.root.words (splitDomainLabels d).reverse) : ¬ Prunes t d := by
  rintro ⟨-, p, hp, hpre, hne⟩
  obtain ⟨r, hr, hrd⟩ := hcov
  have hfree : PrefixFree t.root.words := h.words ▸ prefixFree_minimal S
  have hrp : r = p := hfree r hr p hp (hrd.trans hpre)
  exact hne (antisymm (hrp ▸ hrd) hpre)

/-- One insertion keeps the counter at or above the number of terminal nodes, and
keeps them equal exactly when they were equal and nothing is pruned. -/
theorem Represents.size_insert {t : DomainRadixTree} {S : Set (List Bytes)} (h : Represents t S)
    (hle : t.root.terminalPaths.length ≤ t.size) (d : Bytes) :
    (t.insert d).root.terminalPaths.length ≤ (t.insert d).size ∧
      ((t.insert d).size = (t.insert d).root.terminalPaths.length ↔
        t.size = t.root.terminalPaths.length ∧ ¬ Prunes t d) := by
  by_cases hd : splitDomainLabels d = []
  · rw [insert_of_nil hd]
    exact ⟨hle, by simp [Prunes, hd]⟩
  by_cases hcov : Covers t.root.words (splitDomainLabels d).reverse
  · have hsame := Node.insertLabels_covered h.wf hcov
    simp only [size, insert_root hd, insert_totalRules hd, hsame, not_prunes_of_covers h hcov]
    exact ⟨hle, by simp⟩
  · have hlen := Node.length_insertLabels h.wf hcov
    have hflag := (Node.insertLabels_uncovered h.wf hcov).1
    have hfilter := List.length_filter_le
      (fun q => !(splitDomainLabels d).reverse.isPrefixOf q) t.root.terminalPaths
    have hprunes : (t.root.terminalPaths.filter
        fun q => !(splitDomainLabels d).reverse.isPrefixOf q).length =
          t.root.terminalPaths.length ↔ ¬ Prunes t d := by
      rw [List.length_filter_eq_length_iff]
      simp only [Prunes, hd, ne_eq, not_false_eq_true, true_and, not_exists, not_and, not_not]
      refine forall₂_congr fun p hp => ?_
      rw [Bool.not_eq_true', ← Bool.not_eq_true, List.isPrefixOf_iff_prefix]
      exact ⟨fun hn hpre => absurd hpre hn,
        fun hpd hpre => hcov (covers_of_mem (S := t.root.words) (hpd hpre ▸ hp))⟩
    simp only [size] at hle ⊢
    rw [insert_root hd, insert_totalRules hd, hflag, if_pos rfl, hlen, ← hprunes]
    omega

theorem size_foldl_insert (es : List Bytes) : ∀ {t : DomainRadixTree} {ds : List Bytes},
    Represents t (ruleWords ds) → t.root.terminalPaths.length ≤ t.size →
    ((es.foldl DomainRadixTree.insert t).size =
        (es.foldl DomainRadixTree.insert t).root.terminalPaths.length ↔
      t.size = t.root.terminalPaths.length ∧ NeverPrunes t es) := by
  induction es with
  | nil =>
    intro t ds _ _
    simp [NeverPrunes]
  | cons e es ih =>
    intro t ds h hle
    obtain ⟨hle', hiff⟩ := h.size_insert hle e
    rw [List.foldl_cons, ih (h.insert e) hle', hiff, and_assoc]
    rfl

/-- The counter is the number of terminal nodes exactly when no insertion since
the last `clear` pruned a rule. -/
theorem size_run_eq_iff (ops : List Op) :
    (run ops).size = (run ops).root.terminalPaths.length ↔ NeverPrunes empty (liveDomains ops) := by
  rw [run_eq, size_foldl_insert _ represents_empty (by decide)]
  simp [size, empty, Node.fresh, Node.terminalPaths, Node.childPaths]

/-- A subdomain and then its parent: one terminal node, counted twice. -/
theorem size_run_child_then_parent :
    (run [.insert [97, 46, 98], .insert [98]]).size = 2 ∧
      (run [.insert [97, 46, 98], .insert [98]]).root.terminalPaths.length = 1 := by
  decide

end Degoonification.DomainRadixTree
