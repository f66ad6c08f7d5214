import Degoonification.Domains.LabelFields
import Degoonification.Domains.RadixRules

/-! What `load_from_file` makes of a blocklist. A line of the two usual shapes, a bare
domain or a hosts-file entry, ends in the same tree as the insertion of its domain:
comments are cut, leading blanks and the address are skipped, and whatever else is
left around the domain is blank, which the label splitter trims. The returned count
is one for each insertion, also for one that adds no rule. -/

namespace Degoonification.DomainRadixTree

open Words

/-! ### Lines -/

/-- What may follow the last word of a line: blanks, then possibly a comment. -/
inductive IsTail : Bytes → Prop
  | plain {spaces : Bytes} (hspaces : ∀ c ∈ spaces, isspace c) : IsTail spaces
  | comment {spaces : Bytes} (hspaces : ∀ c ∈ spaces, isspace c) (text : Bytes) :
      IsTail (spaces ++ 35 :: text)

/-- A text without blanks and without `'#'`. -/
def IsWord (domain : Bytes) : Prop := ∀ c ∈ domain, ¬ isspace c ∧ c ≠ 35

instance (domain : Bytes) : Decidable (IsWord domain) :=
  List.decidableBAll (fun c => ¬ isspace c ∧ c ≠ 35) domain

/-- A line of a blocklist and the domain it names. -/
inductive Names : Bytes → Option Bytes → Prop
  | blank {tail : Bytes} (htail : IsTail tail) : Names tail none
  | bare {indent domain tail : Bytes} (hindent : ∀ c ∈ indent, isBlank c)
      (hdomain : IsWord domain) (hbare : ∀ a ∈ hostsAddresses, ¬ a <+: domain)
      (htail : IsTail tail) : Names (indent ++ (domain ++ tail)) (some domain)
  | hosts {indent address blanks domain tail : Bytes} (hindent : ∀ c ∈ indent, isBlank c)
      (haddress : address ∈ hostsAddresses) (hblanks : ∀ c ∈ blanks, isBlank c)
      (hne : blanks ≠ []) (hdomain : IsWord domain) (htail : IsTail tail) :
      Names (indent ++ (address ++ (blanks ++ (domain ++ tail)))) (some domain)

theorem isspace_of_isBlank {c : UInt8} (h : isBlank c) : isspace c := by
  rw [isBlank, Bool.or_eq_true, beq_iff_eq, beq_iff_eq] at h
  rcases h with rfl | rfl <;> decide

theorem ne_hash_of_isspace {c : UInt8} (h : isspace c) : c ≠ 35 := by
  rintro rfl
  exact absurd h (by decide)

/-- The addresses are words. -/
theorem isWord_address {a : Bytes} (ha : a ∈ hostsAddresses) : IsWord a := by
  simp only [hostsAddresses, List.mem_cons, List.not_mem_nil, or_false] at ha
  rcases ha with rfl | rfl <;> decide

/-- Of a tail, cutting the comment leaves blanks. -/
theorem IsTail.exists_takeWhile {tail : Bytes} (h : IsTail tail) :
    ∃ spaces : Bytes, (∀ c ∈ spaces, isspace c) ∧ ∀ head : Bytes, (∀ c ∈ head, c ≠ 35) →
      (head ++ tail).takeWhile (fun c => c != 35) = head ++ spaces := by
  have hcut : ∀ {head spaces : Bytes}, (∀ c ∈ head, c ≠ 35) → (∀ c ∈ spaces, isspace c) →
      ∀ c ∈ head ++ spaces, c != 35 := by
    intro head spaces hhead hspaces c hc
    rcases List.mem_append.mp hc with hc | hc
    · exact bne_iff_ne.mpr (hhead c hc)
    · exact bne_iff_ne.mpr (ne_hash_of_isspace (hspaces c hc))
  cases h with
  | plain hspaces =>
    exact ⟨tail, hspaces, fun head hhead => List.takeWhile_eq_self_iff.mpr (hcut hhead hspaces)⟩
  | @comment spaces hspaces text =>
    refine ⟨spaces, hspaces, fun head hhead => ?_⟩
    rw [← List.append_assoc, List.takeWhile_append_of_pos (hcut hhead hspaces),
      List.takeWhile_cons_of_neg (by decide), List.append_nil]

/-! ### Blanks around a domain -/

theorem insert_append_spaces (t : DomainRadixTree) (d : Bytes) {spaces : Bytes}
    (h : ∀ c ∈ spaces, isspace c) : t.insert (d ++ spaces) = t.insert d := by
  have hlabels : splitDomainLabels (d ++ spaces) = splitDomainLabels d :=
    splitDomainLabels_append d fun c hc => Or.inr (h c hc)
  rw [DomainRadixTree.insert, DomainRadixTree.insert, hlabels]

theorem insert_nil (t : DomainRadixTree) : t.insert [] = t := insert_of_nil (by decide)

/-- A domain in front of blanks is inserted as the domain, also where nothing is left. -/
theorem elim_insert (t : DomainRadixTree) (d : Bytes) {spaces : Bytes}
    (h : ∀ c ∈ spaces, isspace c) :
    (if d ++ spaces = [] then none else some (d ++ spaces)).elim t t.insert = t.insert d := by
  split_ifs with hnil
  · rw [(List.append_eq_nil_iff.mp hnil).1, insert_nil]
    rfl
  · exact insert_append_spaces t d h

/-! ### One line -/

/-- The characters `load_from_file` skips at the head of a line. -/
def isSkipped (c : UInt8) : Bool := isBlank c || c == 13 || c == 10

/-- `lineDomain` from the first character on that is not skipped. -/
def viewDomain (view : Bytes) : Option Bytes :=
  if view = [] then none
  else
    let sv := if hostsAddresses.any fun a => a.isPrefixOf view then skipAddress view else view
    if sv = [] then none else some sv

theorem lineDomain_eq (line : Bytes) :
    lineDomain line = viewDomain ((line.takeWhile fun c => c != 35).dropWhile isSkipped) := rfl

theorem isspace_of_isSkipped {c : UInt8} (h : isSkipped c) : isspace c := by
  simp only [isSkipped, Bool.or_eq_true, beq_iff_eq] at h
  rcases h with (h | rfl) | rfl
  · exact isspace_of_isBlank h
  · decide
  · decide

/-- The view starts at the first word. -/
theorem dropWhile_isSkipped {word : Bytes} (hne : word ≠ []) (hword : IsWord word)
    (rest : Bytes) : (word ++ rest).dropWhile isSkipped = word ++ rest := by
  obtain ⟨c, word, rfl⟩ := List.exists_cons_of_ne_nil hne
  refine List.dropWhile_cons_of_neg fun h => ?_
  exact (hword c List.mem_cons_self).1 (isspace_of_isSkipped h)

/-- An address is no prefix of other words, whatever blanks follow them. -/
theorem not_any_isPrefixOf {domain spaces : Bytes} (hspaces : ∀ c ∈ spaces, isspace c)
    (hbare : ∀ a ∈ hostsAddresses, ¬ a <+: domain) :
    ¬ hostsAddresses.any fun a => a.isPrefixOf (domain ++ spaces) := by
  rw [List.any_eq_true]
  rintro ⟨a, ha, hpre⟩
  rw [List.isPrefixOf_iff_prefix] at hpre
  refine hbare a ha ?_
  rcases List.prefix_or_prefix_of_prefix hpre (List.prefix_append domain spaces) with h | h
  · exact h
  · obtain ⟨rest, rfl⟩ := h
    cases rest with
    | nil => exact (List.append_nil domain).symm ▸ List.prefix_rfl
    | cons c rest =>
      have hc : c ∈ spaces :=
        ((List.prefix_append_right_inj domain).mp hpre).subset List.mem_cons_self
      exact absurd (hspaces c hc) (isWord_address ha c (by simp)).1

/-- Behind an address the view goes on at the domain, or at blanks where none follows. -/
theorem skipAddress_append {address blanks domain spaces : Bytes} (haddress : IsWord address)
    (hblanks : ∀ c ∈ blanks, isBlank c) (hne : blanks ≠ []) (hdomain : IsWord domain)
    (hspaces : ∀ c ∈ spaces, isspace c) :
    ∃ spaces', (∀ c ∈ spaces', isspace c) ∧
      skipAddress (address ++ (blanks ++ (domain ++ spaces))) = domain ++ spaces' := by
  have hword : ∀ c ∈ address, !isBlank c := fun c hc => by
    rw [Bool.not_eq_true']
    exact Bool.eq_false_iff.mpr fun h => (haddress c hc).1 (isspace_of_isBlank h)
  obtain ⟨b, bs, rfl⟩ := List.exists_cons_of_ne_nil hne
  have hstop : (b :: (bs ++ (domain ++ spaces))).dropWhile (fun c => !isBlank c) =
      b :: (bs ++ (domain ++ spaces)) := by
    refine List.dropWhile_cons_of_neg ?_
    rw [hblanks b List.mem_cons_self]
    decide
  have hdrop : (b :: (bs ++ (domain ++ spaces))).dropWhile isBlank =
      (domain ++ spaces).dropWhile isBlank := List.dropWhile_append_of_pos hblanks
  rw [skipAddress, List.dropWhile_append_of_pos hword, List.cons_append, hstop]
  simp only [hdrop]
  cases domain with
  | nil =>
    rw [List.nil_append]
    cases hrest : spaces.dropWhile isBlank with
    | nil =>
      refine ⟨b :: (bs ++ spaces), fun c hc => ?_, rfl⟩
      rcases List.mem_append.mp (List.cons_append ▸ hc) with hc | hc
      · exact isspace_of_isBlank (hblanks c hc)
      · exact hspaces c hc
    | cons c rest =>
      refine ⟨c :: rest, fun c' hc' => hspaces c' ?_, rfl⟩
      exact (List.dropWhile_sublist isBlank).subset (hrest ▸ hc')
  | cons c d =>
    have hc : ¬ isBlank c = true := fun h =>
      (hdomain c List.mem_cons_self).1 (isspace_of_isBlank h)
    rw [List.cons_append, List.dropWhile_cons_of_neg hc]
    exact ⟨spaces, hspaces, rfl⟩

/-- A view without an address is inserted as it is. -/
theorem insert_viewDomain_bare (t : DomainRadixTree) {domain spaces : Bytes}
    (hbare : ∀ a ∈ hostsAddresses, ¬ a <+: domain) (hspaces : ∀ c ∈ spaces, isspace c) :
    (viewDomain (domain ++ spaces)).elim t t.insert = t.insert domain := by
  rw [← elim_insert t domain hspaces, viewDomain, if_neg (not_any_isPrefixOf hspaces hbare)]
  rcases eq_or_ne (domain ++ spaces) [] with hnil | hnil
  · rw [if_pos hnil, if_pos hnil]
  · simp only [if_neg hnil]

/-- Blanks alone insert nothing. -/
theorem insert_viewDomain_spaces (t : DomainRadixTree) {spaces : Bytes}
    (hspaces : ∀ c ∈ spaces, isspace c) :
    (viewDomain (spaces.dropWhile isSkipped)).elim t t.insert = t := by
  have hrest : ∀ c ∈ spaces.dropWhile isSkipped, isspace c := fun c hc =>
    hspaces c ((List.dropWhile_sublist isSkipped).subset hc)
  have hbare : ∀ a ∈ hostsAddresses, ¬ a <+: ([] : Bytes) := by decide
  have h := insert_viewDomain_bare t hbare hrest
  rwa [insert_nil] at h

/-- A view that opens with an address is inserted from the domain on. -/
theorem insert_viewDomain_hosts (t : DomainRadixTree) {address blanks domain spaces : Bytes}
    (haddress : address ∈ hostsAddresses) (hblanks : ∀ c ∈ blanks, isBlank c)
    (hne : blanks ≠ []) (hdomain : IsWord domain) (hspaces : ∀ c ∈ spaces, isspace c) :
    (viewDomain (address ++ (blanks ++ (domain ++ spaces)))).elim t t.insert =
      t.insert domain := by
  obtain ⟨spaces', hspaces', hview⟩ :=
    skipAddress_append (isWord_address haddress) hblanks hne hdomain hspaces
  have hany : hostsAddresses.any fun a =>
      a.isPrefixOf (address ++ (blanks ++ (domain ++ spaces))) := by
    rw [List.any_eq_true]
    exact ⟨address, haddress, List.isPrefixOf_iff_prefix.mpr (List.prefix_append _ _)⟩
  have hnil : address ++ (blanks ++ (domain ++ spaces)) ≠ [] := by simp [hne]
  rw [viewDomain, if_neg hnil, if_pos hany, hview]
  exact elim_insert t domain hspaces'

/-- The text a line passes to `insert` stands for the domain it names. -/
theorem Names.insert_lineDomain {line : Bytes} {named : Option Bytes} (h : Names line named)
    (t : DomainRadixTree) : (lineDomain line).elim t t.insert = named.elim t t.insert := by
  have hskip : ∀ {indent : Bytes}, (∀ c ∈ indent, isBlank c) → ∀ c ∈ indent, isSkipped c :=
    fun hindent c hc => by simp [isSkipped, hindent c hc]
  have hnothash : ∀ {word : Bytes}, IsWord word → ∀ c ∈ word, c ≠ 35 := fun hword c hc =>
    (hword c hc).2
  have hblank : ∀ {blanks : Bytes}, (∀ c ∈ blanks, isBlank c) → ∀ c ∈ blanks, c ≠ 35 :=
    fun hblanks c hc => ne_hash_of_isspace (isspace_of_isBlank (hblanks c hc))
  cases h with
  | blank htail =>
    obtain ⟨spaces, hspaces, hcut⟩ := htail.exists_takeWhile
    have hcut' := hcut [] (List.forall_mem_nil _)
    rw [List.nil_append, List.nil_append] at hcut'
    rw [lineDomain_eq, hcut']
    exact insert_viewDomain_spaces t hspaces
  | @bare indent domain tail hindent hdomain hbare htail =>
    obtain ⟨spaces, hspaces, hcut⟩ := htail.exists_takeWhile
    have hhead := List.forall_mem_append.mpr ⟨hblank hindent, hnothash hdomain⟩
    rw [lineDomain_eq, ← List.append_assoc, hcut _ hhead, List.append_assoc,
      List.dropWhile_append_of_pos (hskip hindent)]
    rcases eq_or_ne domain [] with rfl | hne
    · exact (insert_viewDomain_spaces t hspaces).trans (insert_nil t).symm
    · rw [dropWhile_isSkipped hne hdomain]
      exact insert_viewDomain_bare t hbare hspaces
  | @hosts indent address blanks domain tail hindent haddress hblanks hne hdomain htail =>
    obtain ⟨spaces, hspaces, hcut⟩ := htail.exists_takeWhile
    have hword := isWord_address haddress
    have hhead := List.forall_mem_append.mpr ⟨hblank hindent, List.forall_mem_append.mpr
      ⟨hnothash hword, List.forall_mem_append.mpr ⟨hblank hblanks, hnothash hdomain⟩⟩⟩
    have hcut' := hcut _ hhead
    simp only [List.append_assoc] at hcut'
    have hne' : address ≠ [] := by
      rintro rfl
      exact absurd haddress (by decide)
    rw [lineDomain_eq, hcut', List.dropWhile_append_of_pos (hskip hindent),
      dropWhile_isSkipped hne' hword]
    exact insert_viewDomain_hosts t haddress hblanks hne hdomain hspaces

/-! ### A whole file -/

theorem foldl_reduceOption_cons (t : DomainRadixTree) (name : Option Bytes)
    (named : List (Option Bytes)) : (name :: named).reduceOption.foldl insert t =
      named.reduceOption.foldl insert (name.elim t t.insert) := by
  cases name <;> rfl

theorem foldl_lineDomain_cons (t : DomainRadixTree) (line : Bytes) (lines : List Bytes) :
    ((line :: lines).filterMap lineDomain).foldl insert t =
      (lines.filterMap lineDomain).foldl insert ((lineDomain line).elim t t.insert) := by
  rw [List.filterMap_cons]
  cases lineDomain line <;> rfl

theorem foldl_lineDomain {lines : List Bytes} {named : List (Option Bytes)}
    (h : List.Forall₂ Names lines named) (t : DomainRadixTree) :
    (lines.filterMap lineDomain).foldl insert t = named.reduceOption.foldl insert t := by
  induction h generalizing t with
  | nil => rfl
  | @cons line name lines named hname _ ih =>
    rw [foldl_lineDomain_cons, foldl_reduceOption_cons, hname.insert_lineDomain, ih]

/-- No line follows a final newline, and an empty one would not be inserted. -/
theorem filterMap_getlines (text : Bytes) :
    (getlines text).filterMap lineDomain = (text.splitOn 10).filterMap lineDomain := by
  simp only [getlines]
  split_ifs with hlast
  · rw [← List.dropLast_append_getLast? [] hlast, List.dropLast_concat, List.filterMap_append]
    exact (List.append_nil _).symm
  · rfl

/-- A file of such lines leaves the tree that inserting its domains in order leaves. -/
theorem loadFromFile_eq_foldl_insert (t : DomainRadixTree) {text : Bytes}
    {named : List (Option Bytes)} (h : List.Forall₂ Names (text.splitOn 10) named) :
    (t.loadFromFile (some text)).1 = named.reduceOption.foldl insert t := by
  rw [loadFromFile_eq, fileDomains, filterMap_getlines, foldl_lineDomain h]

/-- A hosts entry `a.b` with a comment, an empty line, an indented `c`, each ended by
CR LF or LF. -/
def hostsFile : Bytes :=
  [48, 46, 48, 46, 48, 46, 48, 9, 97, 46, 98, 32, 35, 120, 13, 10, 10, 32, 99, 13, 10]

theorem loadFromFile_eq_foldl_insert_hostsFile :
    (empty.loadFromFile (some hostsFile)).1 = (empty.insert [97, 46, 98]).insert [99] := by
  have hblank : Names [] none := .blank (.plain (List.forall_mem_nil _))
  have hhosts : Names [48, 46, 48, 46, 48, 46, 48, 9, 97, 46, 98, 32, 35, 120, 13]
      (some [97, 46, 98]) :=
    @Names.hosts [] [48, 46, 48, 46, 48, 46, 48] [9] [97, 46, 98] [32, 35, 120, 13]
      (List.forall_mem_nil _) (by decide) (List.forall_mem_singleton.mpr rfl) (by decide)
      (by decide) (@IsTail.comment [32] (List.forall_mem_singleton.mpr rfl) [120, 13])
  have hbare : Names [32, 99, 13] (some [99]) :=
    @Names.bare [32] [99] [13] (List.forall_mem_singleton.mpr rfl) (by decide) (by decide +kernel)
      (.plain (List.forall_mem_singleton.mpr rfl))
  exact @loadFromFile_eq_foldl_insert empty hostsFile
    [some [97, 46, 98], none, some [99], none]
    (.cons hhosts (.cons hblank (.cons hbare (.cons hblank .nil))))

/-! ### The returned count -/

/-- A string that carries a rule beyond the known ones: it has labels, and no known
string with labels is a parent of it or equal to it. -/
def AddsRule (known : List Bytes) (d : Bytes) : Prop :=
  splitDomainLabels d ≠ [] ∧ ∀ e ∈ known, splitDomainLabels e ≠ [] →
    ¬ splitDomainLabels e <:+ splitDomainLabels d

/-- One insertion counts a rule exactly where it adds one. -/
theorem Represents.totalRules_insert {t : DomainRadixTree} {ds : List Bytes}
    (h : Represents t (ruleWords ds)) (d : Bytes) :
    (AddsRule ds d ∧ (t.insert d).totalRules = t.totalRules + 1) ∨
      (¬ AddsRule ds d ∧ (t.insert d).totalRules = t.totalRules) := by
  by_cases hd : splitDomainLabels d = []
  · exact Or.inr ⟨fun hadds => hadds.1 hd, by rw [insert_of_nil hd]⟩
  have hmatch := h.matchesDomain_iff d
  have hcov : t.matchesDomain d = true ↔ Covers t.root.words (splitDomainLabels d).reverse := by
    rw [matchesDomain, if_neg hd, Node.matchLabels_iff h.wf (by simp [h.rootOpen])]
  by_cases hcovers : Covers t.root.words (splitDomainLabels d).reverse
  · obtain ⟨e, he, hne, hsuf⟩ := hmatch.mp (hcov.mpr hcovers)
    refine Or.inr ⟨fun hadds => hadds.2 e he hne hsuf, ?_⟩
    rw [insert_totalRules hd, Node.insertLabels_covered h.wf hcovers]
    rfl
  · refine Or.inl ⟨⟨hd, fun e he hne hsuf => hcovers ?_⟩, ?_⟩
    · exact hcov.mp (hmatch.mpr ⟨e, he, hne, hsuf⟩)
    · rw [insert_totalRules hd, (Node.insertLabels_uncovered h.wf hcovers).1, if_pos rfl]

/-- What every string adds, the first one taken apart from the rest. -/
theorem forall_addsRule_cons {ds es : List Bytes} {e : Bytes} :
    (∀ pre d post, e :: es = pre ++ d :: post → AddsRule (ds ++ pre) d) ↔
      AddsRule ds e ∧ ∀ pre d post, es = pre ++ d :: post → AddsRule (ds ++ [e] ++ pre) d := by
  constructor
  · intro hall
    refine ⟨List.append_nil ds ▸ hall [] e es rfl, fun pre d post heq => ?_⟩
    rw [List.append_assoc]
    exact hall (e :: pre) d post (congrArg (e :: ·) heq)
  · rintro ⟨he, hall⟩ pre d post heq
    cases pre with
    | nil =>
      obtain ⟨rfl, -⟩ := List.cons.inj heq
      rwa [List.append_nil]
    | cons e' pre =>
      obtain ⟨rfl, htail⟩ := List.cons.inj heq
      exact List.append_assoc ds [e] pre ▸ hall pre d post htail

/-- A list of insertions counts at most one rule each, and all of them exactly where
every string adds a rule beyond those before it. -/
theorem Represents.totalRules_foldl_insert (es : List Bytes) :
    ∀ {t : DomainRadixTree} {ds : List Bytes}, Represents t (ruleWords ds) →
      t.totalRules ≤ (es.foldl DomainRadixTree.insert t).totalRules ∧
        (es.foldl DomainRadixTree.insert t).totalRules ≤ t.totalRules + es.length ∧
        ((es.foldl DomainRadixTree.insert t).totalRules = t.totalRules + es.length ↔
          ∀ pre d post, es = pre ++ d :: post → AddsRule (ds ++ pre) d) := by
  induction es with
  | nil =>
    intro t ds _
    exact ⟨le_rfl, le_rfl, iff_of_true rfl fun pre d post h => by simp at h⟩
  | cons e es ih =>
    intro t ds h
    obtain ⟨hge, hle, hiff⟩ := ih (h.insert e)
    rw [List.foldl_cons, List.length_cons, forall_addsRule_cons, ← hiff]
    rcases h.totalRules_insert e with ⟨hadds, hcount⟩ | ⟨hadds, hcount⟩
    · rw [hcount] at hge hle ⊢
      exact ⟨by omega, by omega, fun heq => ⟨hadds, by omega⟩, fun heq => by omega⟩
    · rw [hcount] at hge hle ⊢
      exact ⟨hge, by omega, fun heq => by omega, fun heq => absurd heq.1 hadds⟩

/-- The returned count is the number of rules added exactly where every string of the
file has labels and no rule in force, or earlier in the file, covers it. -/
theorem count_eq_added_iff (ops : List Op) (file : Option Bytes) :
    ((run ops).loadFromFile file).2 =
        ((run ops).loadFromFile file).1.totalRules - (run ops).totalRules ↔
      ∀ pre d post, fileDomains file = pre ++ d :: post →
        AddsRule (liveDomains ops ++ pre) d := by
  obtain ⟨hge, hle, hiff⟩ := (represents_run ops).totalRules_foldl_insert (fileDomains file)
  rw [← hiff, loadFromFile_eq]
  dsimp only
  omega

/-- A file that names one domain twice: two are reported, one rule is added. -/
theorem count_twice :
    ((run []).loadFromFile (some [97, 10, 97, 10])).2 = 2 ∧
      ((run []).loadFromFile (some [97, 10, 97, 10])).1.totalRules - (run []).totalRules = 1 := by
  decide

end Degoonification.DomainRadixTree
