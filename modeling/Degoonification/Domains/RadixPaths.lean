import Degoonification.Domains.RadixTree
import Degoonification.Library.Words
import Mathlib.Data.List.Nodup

/-! Terminal paths of the label tree. A well-formed node has one child per label,
no children once it is terminal, and a terminal node below every child. On such
nodes the walk of `insert` is the insertion into a prefix-free set of words, the
walk of `matches` is the covering test, and the terminal paths determine the
tree. -/

namespace Degoonification.Node

mutual
/-- The label paths from a node to the terminal nodes under it, one for each of
these, the empty path when the node itself is terminal. -/
def terminalPaths : Node → List (List Bytes)
  | mk t cs => (if t then [[]] else []) ++ childPaths cs
def childPaths : List (Bytes × Node) → List (List Bytes)
  | [] => []
  | (label, n) :: cs => n.terminalPaths.map (label :: ·) ++ childPaths cs
end

/-- The terminal paths as a set of words. -/
def words (n : Node) : Set (List Bytes) := {p | p ∈ n.terminalPaths}

inductive Wf : Node → Prop
  | mk {t : Bool} {cs : List (Bytes × Node)} (leaf : t = true → cs = [])
      (keys : (cs.map Prod.fst).Nodup) (wf : ∀ e ∈ cs, Wf e.2)
      (live : ∀ e ∈ cs, e.2.terminalPaths ≠ []) : Wf (.mk t cs)

/-- The node a label path leads to. -/
def nodeAt : List Bytes → Node → Option Node
  | [], n => some n
  | label :: labels, n => (n.child label).bind (nodeAt labels)

/-! ### Children as a map -/

section Children

variable {l l' : Bytes} {n : Node} {cs : List (Bytes × Node)}

theorem lookup_cons_self {e : Bytes × Node} : (e :: cs).lookup e.1 = some e.2 :=
  List.lookup_cons_self

theorem lookup_cons_ne {e : Bytes × Node} (h : l ≠ e.1) : (e :: cs).lookup l = cs.lookup l := by
  have hb : (l == e.1) = false := beq_eq_false_iff_ne.mpr h
  rw [List.lookup_cons, hb]

theorem lookup_setChild (l l' : Bytes) (n : Node) (cs : List (Bytes × Node)) :
    (setChild l n cs).lookup l' = if l' = l then some n else cs.lookup l' := by
  induction cs with
  | nil =>
    by_cases h : l' = l
    · simp [setChild, h]
    · rw [if_neg h, setChild, lookup_cons_ne h]
  | cons e cs ih =>
    simp only [setChild]
    split_ifs with hk h h
    · subst h
      simp
    · rw [lookup_cons_ne h, lookup_cons_ne (hk ▸ h)]
    · subst h
      rw [lookup_cons_ne (Ne.symm hk), ih, if_pos rfl]
    · by_cases he : l' = e.1
      · rw [he, lookup_cons_self, lookup_cons_self]
      · rw [lookup_cons_ne he, lookup_cons_ne he, ih, if_neg h]

theorem setChild_self (h : cs.lookup l = some n) : setChild l n cs = cs := by
  induction cs with
  | nil => simp at h
  | cons e cs ih =>
    by_cases hk : e.1 = l
    · subst hk
      obtain rfl : e.2 = n := Option.some.inj (lookup_cons_self.symm.trans h)
      rw [setChild, if_pos rfl]
    · rw [lookup_cons_ne (Ne.symm hk)] at h
      simp [setChild, hk, ih h]

theorem mem_setChild {e : Bytes × Node} (h : e ∈ setChild l n cs) : e = (l, n) ∨ e ∈ cs := by
  induction cs with
  | nil => simpa [setChild] using h
  | cons e' cs ih =>
    simp only [setChild] at h
    split_ifs at h with hk
    · rcases List.mem_cons.mp h with h | h
      · exact Or.inl h
      · exact Or.inr (by simp [h])
    · rcases List.mem_cons.mp h with h | h
      · exact Or.inr (by simp [h])
      · exact (ih h).imp_right fun h => by simp [h]

theorem nodup_setChild (h : (cs.map Prod.fst).Nodup) :
    ((setChild l n cs).map Prod.fst).Nodup := by
  induction cs with
  | nil => simp [setChild]
  | cons e cs ih =>
    obtain ⟨he, hcs⟩ := List.nodup_cons.mp (List.map_cons ▸ h)
    simp only [setChild]
    split_ifs with hk
    · rw [List.map_cons, List.nodup_cons, ← hk]
      exact ⟨he, hcs⟩
    · rw [List.map_cons, List.nodup_cons]
      refine ⟨fun hm => ?_, ih hcs⟩
      obtain ⟨e', he', hf⟩ := List.mem_map.mp hm
      rcases mem_setChild he' with rfl | hmem
      · exact hk hf.symm
      · exact he (hf ▸ List.mem_map_of_mem hmem)

theorem mem_of_lookup (h : cs.lookup l = some n) : (l, n) ∈ cs := by
  obtain ⟨l₁, l₂, rfl, -⟩ := List.lookup_eq_some_iff.mp h
  simp

theorem lookup_of_mem (hk : (cs.map Prod.fst).Nodup) (h : (l, n) ∈ cs) : cs.lookup l = some n := by
  induction cs with
  | nil => simp at h
  | cons e cs ih =>
    obtain ⟨he, hcs⟩ := List.nodup_cons.mp (List.map_cons ▸ hk)
    rcases List.mem_cons.mp h with rfl | h
    · simp
    · rw [lookup_cons_ne fun hl => he (hl ▸ List.mem_map_of_mem h), ih hcs h]

end Children

/-! ### Paths -/

theorem childPaths_eq (cs : List (Bytes × Node)) :
    childPaths cs = cs.flatMap fun e => e.2.terminalPaths.map (e.1 :: ·) := by
  induction cs with
  | nil => rfl
  | cons e cs ih => rw [List.flatMap_cons, ← ih]; rfl

theorem nil_mem_terminalPaths {n : Node} : [] ∈ n.terminalPaths ↔ n.isTerminal = true := by
  obtain ⟨t, cs⟩ := n
  cases t <;> simp [terminalPaths, childPaths_eq, isTerminal]

theorem cons_mem_terminalPaths {n : Node} (hn : n.Wf) {l : Bytes} {p : List Bytes} :
    l :: p ∈ n.terminalPaths ↔ ∃ c, n.child l = some c ∧ p ∈ c.terminalPaths := by
  obtain ⟨-, hkeys, -, -⟩ := hn
  rename_i t cs
  have hhead : l :: p ∉ (if t then [[]] else [] : List (List Bytes)) := by split <;> simp
  simp only [terminalPaths, childPaths_eq, List.mem_append, hhead, false_or, List.mem_flatMap,
    List.mem_map, List.cons.injEq, child, children]
  constructor
  · rintro ⟨⟨l', c⟩, hmem, q, hq, rfl, rfl⟩
    exact ⟨c, lookup_of_mem hkeys hmem, hq⟩
  · rintro ⟨c, hc, hp⟩
    exact ⟨(l, c), mem_of_lookup hc, p, hp, rfl, rfl⟩

theorem wf_fresh : fresh.Wf :=
  .mk (fun _ => rfl) List.nodup_nil (fun _ h => absurd h List.not_mem_nil)
    fun _ h => absurd h List.not_mem_nil

theorem Wf.child {n c : Node} {l : Bytes} (hn : n.Wf) (h : n.child l = some c) : c.Wf := by
  obtain ⟨-, -, hwf, -⟩ := hn
  exact hwf _ (mem_of_lookup h)

theorem Wf.child_live {n c : Node} {l : Bytes} (hn : n.Wf) (h : n.child l = some c) :
    c.terminalPaths ≠ [] := by
  obtain ⟨-, -, -, hlive⟩ := hn
  exact hlive _ (mem_of_lookup h)

theorem Wf.leaf {n : Node} (hn : n.Wf) (h : n.isTerminal = true) : n.children = [] := by
  obtain ⟨hleaf, -, -, -⟩ := hn
  exact hleaf h

/-- No terminal node is listed twice. -/
theorem nodup_terminalPaths {n : Node} (hn : n.Wf) : n.terminalPaths.Nodup := by
  induction hn with
  | @mk t cs _ hkeys _ _ ih =>
    rw [terminalPaths, childPaths_eq, List.nodup_append]
    refine ⟨by split <;> simp, ?_, ?_⟩
    · rw [List.nodup_flatMap]
      refine ⟨fun e he => (ih e he).map fun _ _ h => (List.cons.inj h).2, ?_⟩
      rw [List.Nodup, List.pairwise_map] at hkeys
      refine hkeys.imp fun {a b} hab => ?_
      intro p hpa hpb
      obtain ⟨q, -, rfl⟩ := List.mem_map.mp hpa
      obtain ⟨q', -, h⟩ := List.mem_map.mp hpb
      exact hab (List.cons.inj h).1.symm
    · intro p hp q hq hpq
      subst hpq
      split at hp
      · obtain rfl : p = [] := by simpa using hp
        simp at hq
      · simp at hp

/-! ### The walks of `insert` and `matches` -/

open Words

theorem covers_nil {n : Node} : Covers n.words [] ↔ n.isTerminal = true := by
  rw [← nil_mem_terminalPaths]
  constructor
  · rintro ⟨p, hp, hpre⟩
    exact List.prefix_nil.mp hpre ▸ hp
  · exact fun h => covers_of_mem (S := n.words) h

theorem covers_of_terminal {n : Node} (h : n.isTerminal = true) (p : List Bytes) :
    Covers n.words p := ⟨[], nil_mem_terminalPaths.mpr h, List.nil_prefix⟩

/-- Under a node that is not terminal, covering goes through the child. -/
theorem covers_cons {n : Node} (hn : n.Wf) (ht : n.isTerminal ≠ true) {l : Bytes}
    {p : List Bytes} :
    Covers n.words (l :: p) ↔ ∃ c, n.child l = some c ∧ Covers c.words p := by
  constructor
  · rintro ⟨q, hq, hpre⟩
    cases q with
    | nil => exact absurd (nil_mem_terminalPaths.mp hq) ht
    | cons l' q =>
      obtain ⟨rfl, hqp⟩ := List.cons_prefix_cons.mp hpre
      obtain ⟨c, hc, hqc⟩ := (cons_mem_terminalPaths hn).mp hq
      exact ⟨c, hc, q, hqc, hqp⟩
  · rintro ⟨c, hc, q, hq, hpre⟩
    exact ⟨l :: q, (cons_mem_terminalPaths hn).mpr ⟨c, hc, hq⟩,
      List.cons_prefix_cons.mpr ⟨rfl, hpre⟩⟩

/-- Below a node that is not terminal the walk of `matches` tests covering. -/
theorem matchLabels_iff {p : List Bytes} : ∀ {n : Node}, n.Wf → n.isTerminal ≠ true →
    (matchLabels p n = true ↔ Covers n.words p) := by
  induction p with
  | nil =>
    intro n _ _
    rw [matchLabels, covers_nil]
  | cons l p ih =>
    intro n hn ht
    rw [covers_cons hn ht, matchLabels]
    cases hc : n.child l with
    | none => simp
    | some c =>
      by_cases hct : c.isTerminal = true
      · simp [hct, covers_of_terminal hct p]
      · simp [hct, ih (hn.child hc) hct]

/-- A covered path changes nothing. -/
theorem insertLabels_covered {p : List Bytes} : ∀ {n : Node}, n.Wf → Covers n.words p →
    insertLabels p n = (n, false) := by
  induction p with
  | nil =>
    intro n _ h
    rw [insertLabels, if_pos (covers_nil.mp h)]
  | cons l p ih =>
    intro n hn h
    by_cases ht : n.isTerminal = true
    · rw [insertLabels, if_pos ht]
    · obtain ⟨c, hc, hcov⟩ := (covers_cons hn ht).mp h
      have hself : setChild l c n.children = n.children := setChild_self hc
      simp only [insertLabels, if_neg ht, hc, Option.getD_some, ih (hn.child hc) hcov, hself,
        mk_eta]

/-- The child `insert` descends into, created when it is missing, has the paths
of the node behind the label. -/
theorem child_getD_fresh {n : Node} (hn : n.Wf) (l : Bytes) :
    ((n.child l).getD fresh).Wf ∧
      ∀ q, q ∈ ((n.child l).getD fresh).terminalPaths ↔ l :: q ∈ n.terminalPaths := by
  cases hc : n.child l with
  | none =>
    refine ⟨wf_fresh, fun q => ?_⟩
    simp [cons_mem_terminalPaths hn, hc, fresh, terminalPaths, childPaths]
  | some c =>
    refine ⟨hn.child hc, fun q => ?_⟩
    simp [cons_mem_terminalPaths hn, hc]

theorem wf_setChild {n c : Node} {l : Bytes} (hn : n.Wf) (ht : n.isTerminal ≠ true) (hc : c.Wf)
    (hlive : c.terminalPaths ≠ []) : (mk n.isTerminal (setChild l c n.children)).Wf := by
  obtain ⟨-, hkeys, hcs, hlives⟩ := hn
  refine .mk (fun h => absurd h ht) (nodup_setChild hkeys) (fun e he => ?_) fun e he => ?_
  · rcases mem_setChild he with rfl | he
    · exact hc
    · exact hcs e he
  · rcases mem_setChild he with rfl | he
    · exact hlive
    · exact hlives e he

/-- Replacing the child behind `l` replaces the paths that start with `l`. -/
theorem mem_terminalPaths_setChild {n c : Node} {l : Bytes} (hn : n.Wf)
    (ht : n.isTerminal ≠ true) (hnew : (mk n.isTerminal (setChild l c n.children)).Wf)
    (q : List Bytes) :
    q ∈ (mk n.isTerminal (setChild l c n.children)).terminalPaths ↔
      (∃ r, q = l :: r ∧ r ∈ c.terminalPaths) ∨ q ∈ n.terminalPaths ∧ ¬ [l] <+: q := by
  cases q with
  | nil => simp [nil_mem_terminalPaths, ht]
  | cons l' q =>
    rw [cons_mem_terminalPaths hnew, cons_mem_terminalPaths hn]
    simp only [Node.child, children_mk, lookup_setChild]
    by_cases hl : l' = l
    · subst hl
      simp
    · simp [hl, Ne.symm hl]

/-- What an uncovered path does: the node stays well formed, exactly the paths
that the new one is a prefix of make room for it, and the flag is raised. -/
theorem insertLabels_uncovered {p : List Bytes} : ∀ {n : Node}, n.Wf → ¬ Covers n.words p →
    (insertLabels p n).2 = true ∧ (insertLabels p n).1.Wf ∧
      ∀ q, q ∈ (insertLabels p n).1.terminalPaths ↔ q = p ∨ q ∈ n.terminalPaths ∧ ¬ p <+: q := by
  induction p with
  | nil =>
    intro n _ h
    rw [insertLabels, if_neg (covers_nil.not.mp h)]
    refine ⟨rfl, .mk (fun _ => rfl) List.nodup_nil (by simp) (by simp), fun q => ?_⟩
    simp [terminalPaths, childPaths]
  | cons l p ih =>
    intro n hn h
    have ht : n.isTerminal ≠ true := fun ht => h (covers_of_terminal ht _)
    obtain ⟨hwf, hpaths⟩ := child_getD_fresh hn l
    have hunc : ¬ Covers ((n.child l).getD fresh).words p := by
      rintro ⟨q, hq, hpre⟩
      exact h ⟨l :: q, (hpaths q).mp hq, List.cons_prefix_cons.mpr ⟨rfl, hpre⟩⟩
    obtain ⟨hflag, hwf', hmem⟩ := ih hwf hunc
    have hnew := wf_setChild (l := l) hn ht hwf' (List.ne_nil_of_mem ((hmem p).mpr (Or.inl rfl)))
    rw [insertLabels, if_neg ht]
    refine ⟨hflag, hnew, fun q => (mem_terminalPaths_setChild hn ht hnew q).trans ?_⟩
    cases q with
    | nil => simp [nil_mem_terminalPaths, ht]
    | cons l' q =>
      by_cases hl : l' = l
      · subst hl
        simp [hmem, hpaths]
      · simp [hl, Ne.symm hl]

/-- One walk of `insert` is one insertion into a prefix-free set of words. -/
theorem words_insertLabels {n : Node} (hn : n.Wf) (p : List Bytes) :
    (insertLabels p n).1.words = insertMinimal p n.words := by
  ext q
  rw [mem_insertMinimal]
  by_cases h : Covers n.words p
  · rw [insertLabels_covered hn h]
    simp [h]
  · simp only [h, false_and, not_false_eq_true, true_and, false_or]
    exact (insertLabels_uncovered hn h).2.2 q

theorem wf_insertLabels {n : Node} (hn : n.Wf) (p : List Bytes) : (insertLabels p n).1.Wf := by
  by_cases h : Covers n.words p
  · rwa [insertLabels_covered hn h]
  · exact (insertLabels_uncovered hn h).2.1

/-- The root never becomes terminal: rules have at least one label. -/
theorem isTerminal_insertLabels_cons (l : Bytes) (p : List Bytes) (n : Node) :
    (insertLabels (l :: p) n).1.isTerminal = n.isTerminal := by
  rw [insertLabels]
  split_ifs <;> simp

/-- The terminal nodes after a walk that made a new one: this one and those not
below it. -/
theorem length_insertLabels {n : Node} (hn : n.Wf) {p : List Bytes} (h : ¬ Covers n.words p) :
    (insertLabels p n).1.terminalPaths.length =
      (n.terminalPaths.filter fun q => !p.isPrefixOf q).length + 1 := by
  obtain ⟨-, hwf, hmem⟩ := insertLabels_uncovered hn h
  have hnodup : (p :: n.terminalPaths.filter fun q => !p.isPrefixOf q).Nodup := by
    refine List.nodup_cons.mpr ⟨fun hp => ?_, (nodup_terminalPaths hn).filter _⟩
    exact h (covers_of_mem (List.mem_of_mem_filter hp))
  have hperm : (insertLabels p n).1.terminalPaths.Perm
      (p :: n.terminalPaths.filter fun q => !p.isPrefixOf q) := by
    refine (List.perm_ext_iff_of_nodup (nodup_terminalPaths hwf) hnodup).mpr fun q => ?_
    simp [hmem q, ← List.isPrefixOf_iff_prefix]
  rw [hperm.length_eq, List.length_cons]

/-! ### Nodes and paths -/

theorem Wf.nodeAt {p : List Bytes} : ∀ {n m : Node}, n.Wf → n.nodeAt p = some m → m.Wf := by
  induction p with
  | nil =>
    rintro n m hn h
    exact Option.some.inj h ▸ hn
  | cons l p ih =>
    intro n m hn h
    obtain ⟨c, hc, hm⟩ := Option.bind_eq_some_iff.mp h
    exact ih (hn.child hc) hm

/-- The terminal paths under a node, seen from above. -/
theorem append_mem_terminalPaths {p q : List Bytes} : ∀ {n m : Node}, n.Wf →
    n.nodeAt p = some m → (p ++ q ∈ n.terminalPaths ↔ q ∈ m.terminalPaths) := by
  induction p with
  | nil =>
    rintro n m _ h
    rw [List.nil_append, Option.some.inj h]
  | cons l p ih =>
    intro n m hn h
    obtain ⟨c, hc, hm⟩ := Option.bind_eq_some_iff.mp h
    rw [List.cons_append, cons_mem_terminalPaths hn, ← ih (hn.child hc) hm]
    simp [hc]

/-- Below every node but the starting one there is a terminal node. -/
theorem terminalPaths_nodeAt_ne_nil {p : List Bytes} (hp : p ≠ []) : ∀ {n m : Node}, n.Wf →
    n.nodeAt p = some m → m.terminalPaths ≠ [] := by
  induction p with
  | nil => exact absurd rfl hp
  | cons l p ih =>
    intro n m hn h
    obtain ⟨c, hc, hm⟩ := Option.bind_eq_some_iff.mp h
    cases p with
    | nil => exact Option.some.inj hm ▸ hn.child_live hc
    | cons l' p => exact ih (by simp) (hn.child hc) hm

theorem nodeAt_of_mem {p : List Bytes} : ∀ {q : List Bytes} {n : Node}, n.Wf →
    p ++ q ∈ n.terminalPaths → ∃ m, n.nodeAt p = some m := by
  induction p with
  | nil => exact fun {q n} _ _ => ⟨n, rfl⟩
  | cons l p ih =>
    intro q n hn h
    obtain ⟨c, hc, hq⟩ := (cons_mem_terminalPaths hn).mp h
    obtain ⟨m, hm⟩ := ih (hn.child hc) hq
    exact ⟨m, Option.bind_eq_some_iff.mpr ⟨c, hc, hm⟩⟩

theorem mem_terminalPaths_iff {n : Node} (hn : n.Wf) {p : List Bytes} :
    p ∈ n.terminalPaths ↔ ∃ m, n.nodeAt p = some m ∧ m.isTerminal = true := by
  constructor
  · intro h
    obtain ⟨m, hm⟩ := nodeAt_of_mem (q := []) hn (by rwa [List.append_nil])
    refine ⟨m, hm, nil_mem_terminalPaths.mp ?_⟩
    rwa [← append_mem_terminalPaths hn hm, List.append_nil]
  · rintro ⟨m, hm, ht⟩
    have h := (append_mem_terminalPaths hn hm).mpr (nil_mem_terminalPaths.mpr ht)
    rwa [List.append_nil] at h

/-- The same nodes at the same label paths, with the same flags: equality of the
trees as nested maps. -/
def Same (a b : Node) : Prop :=
  ∀ p, (a.nodeAt p).map isTerminal = (b.nodeAt p).map isTerminal

/-- A path of one tree leads somewhere in any tree with the same terminal paths. -/
theorem exists_nodeAt_of_words_eq {a b : Node} (ha : a.Wf) (hb : b.Wf) (h : a.words = b.words)
    {p : List Bytes} {m : Node} (hm : a.nodeAt p = some m) :
    ∃ m', b.nodeAt p = some m' ∧ m'.isTerminal = m.isTerminal := by
  have hmem : ∀ q, q ∈ a.terminalPaths ↔ q ∈ b.terminalPaths := fun q => Set.ext_iff.mp h q
  obtain ⟨m', hm'⟩ : ∃ m', b.nodeAt p = some m' := by
    rcases eq_or_ne p [] with rfl | hp
    · exact ⟨b, rfl⟩
    · obtain ⟨q, hq⟩ := List.exists_mem_of_ne_nil _ (terminalPaths_nodeAt_ne_nil hp ha hm)
      exact nodeAt_of_mem hb ((hmem _).mp ((append_mem_terminalPaths ha hm).mpr hq))
  refine ⟨m', hm', ?_⟩
  rw [Bool.eq_iff_iff, ← nil_mem_terminalPaths, ← nil_mem_terminalPaths,
    ← append_mem_terminalPaths ha hm, ← append_mem_terminalPaths hb hm', hmem]

/-- The terminal paths determine a well-formed tree. -/
theorem same_of_words_eq {a b : Node} (ha : a.Wf) (hb : b.Wf) (h : a.words = b.words) :
    Same a b := by
  intro p
  cases hap : a.nodeAt p with
  | some m =>
    obtain ⟨m', hm', ht⟩ := exists_nodeAt_of_words_eq ha hb h hap
    simp [hm', ht]
  | none =>
    cases hbp : b.nodeAt p with
    | none => rfl
    | some m =>
      obtain ⟨m', hm', -⟩ := exists_nodeAt_of_words_eq hb ha h.symm hbp
      simp [hap] at hm'

end Degoonification.Node
