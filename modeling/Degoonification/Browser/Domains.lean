import Degoonification.Domains.LabelFields
import Degoonification.Domains.RadixRules
import Degoonification.Ipc.Status

/-! `isDomainBlocked` of the browser extension against the domain tree on the same
rules. The tree compares labels after trimming; the extension compares the ends of
strings after taking off one leading `www.`. On a name without root dot both see
the same suffixes, except that a rule which is the whole name is lost with its
`www.`; a root dot hides every suffix from the extension. -/

namespace Degoonification.Browser

open Ipc (ascii)

def blockedTlds : List Bytes :=
  [ascii ".xxx", ascii ".porn", ascii ".adult", ascii ".sex", ascii ".cam"]

def blockedPatterns : List Bytes :=
  [ascii "porn", ascii "xxx", ascii "hentai", ascii "camgirl", ascii "sexvid", ascii "erovideo",
    ascii "livecam", ascii "nakedgirl", ascii "fapvid", ascii "nudeleak", ascii "onlyfansleak",
    ascii "erocams"]

/-- `replace(/^www\./, '')`. -/
def stripWww (host : Bytes) : Bytes :=
  if ascii "www." <+: host then host.drop 4 else host

/-- The blocklists are parameters; the extension has its own domains and the two
lists above. -/
def isDomainBlocked (domains tlds patterns : List Bytes) (hostname : Bytes) : Bool :=
  if hostname = [] then false
  else
    let host := stripWww (lower hostname)
    domains.any (fun domain => host == domain || (dot :: domain).isSuffixOf host) ||
      tlds.any (fun tld => tld.isSuffixOf host) ||
      patterns.any (fun pat => decide (pat <:+: host))

/-- A label of a host name; `URL` takes no blank in a host. -/
structure IsHostLabel (l : Bytes) : Prop where
  ne_nil : l ≠ []
  dot_notMem : dot ∉ l
  not_isspace : ∀ c ∈ l, ¬isspace c

/-- A rule of the blocklists: lower-case labels. -/
structure DomainRule where
  labels : List Bytes
  ne_nil : labels ≠ []
  valid : ∀ l ∈ labels, IsHostLabel l
  lowercase : labels.map lower = labels

def DomainRule.text (r : DomainRule) : Bytes := dotted r.labels

/-- A host name as `URL.hostname` keeps it, with a root dot or without. -/
structure Hostname where
  labels : List Bytes
  rootDot : Bool
  ne_nil : labels ≠ []
  valid : ∀ l ∈ labels, IsHostLabel l

def Hostname.text (h : Hostname) : Bytes := dotted h.labels ++ if h.rootDot then [dot] else []

/-! ### The tree -/

theorem splitDomainLabels_rule (r : DomainRule) : splitDomainLabels r.text = r.labels := by
  rw [DomainRule.text, splitDomainLabels_dotted (fun l hl => (r.valid l hl).ne_nil)
    (fun l hl => (r.valid l hl).dot_notMem) (fun l hl => (r.valid l hl).not_isspace), r.lowercase]

theorem splitDomainLabels_append_dot (s : Bytes) :
    splitDomainLabels (s ++ [dot]) = splitDomainLabels s :=
  splitDomainLabels_append s (List.forall_mem_singleton.mpr (Or.inl rfl))

theorem splitDomainLabels_hostname (h : Hostname) :
    splitDomainLabels h.text = h.labels.map lower := by
  have hdotted := splitDomainLabels_dotted (fun l hl => (h.valid l hl).ne_nil)
    (fun l hl => (h.valid l hl).dot_notMem) (fun l hl => (h.valid l hl).not_isspace)
  rw [Hostname.text]
  split_ifs
  · rw [splitDomainLabels_append_dot, hdotted]
  · rw [List.append_nil, hdotted]

/-- The tree of a list of rules. -/
def ruleTree (rules : List DomainRule) : DomainRadixTree :=
  (rules.map (·.text)).foldl DomainRadixTree.insert .empty

theorem matchesDomain_iff (rules : List DomainRule) (h : Hostname) :
    (ruleTree rules).matchesDomain h.text = true ↔
      ∃ r ∈ rules, r.labels <:+ h.labels.map lower := by
  have hrep : DomainRadixTree.Represents (ruleTree rules)
      (DomainRadixTree.ruleWords (rules.map (·.text))) := by
    have := DomainRadixTree.represents_empty.foldl_insert (rules.map (·.text))
    rwa [List.nil_append] at this
  rw [hrep.matchesDomain_iff, splitDomainLabels_hostname]
  constructor
  · rintro ⟨d, hd, -, hsuf⟩
    obtain ⟨r, hr, rfl⟩ := List.mem_map.mp hd
    exact ⟨r, hr, splitDomainLabels_rule r ▸ hsuf⟩
  · rintro ⟨r, hr, hsuf⟩
    refine ⟨r.text, List.mem_map_of_mem hr, ?_, ?_⟩ <;> rw [splitDomainLabels_rule]
    · exact r.ne_nil
    · exact hsuf

/-! ### The extension's texts as lists of fields -/

/-- The fields between the dots of the lower-cased name; a root dot ends in an
empty one. -/
def Hostname.fields (h : Hostname) : List Bytes :=
  h.labels.map lower ++ if h.rootDot then [[]] else []

/-- What `stripWww` does to the fields. -/
def stripFields : List Bytes → List Bytes
  | l :: l' :: ls => if l = ascii "www" then l' :: ls else l :: l' :: ls
  | ls => ls

theorem lower_text (h : Hostname) : lower h.text = dotted h.fields := by
  rw [Hostname.text, Hostname.fields]
  split_ifs
  · rw [dotted_append (by simp [h.ne_nil]) (by simp), ← lower_dotted]
    simp [lower, tolower_eq_dot.mpr]
  · rw [List.append_nil, List.append_nil, lower_dotted]

theorem stripFields_ne_nil {ls : List Bytes} (hls : ls ≠ []) : stripFields ls ≠ [] := by
  match ls with
  | [l] => exact hls
  | l :: l' :: ls => rw [stripFields]; split_ifs <;> simp

theorem stripFields_suffix (ls : List Bytes) : stripFields ls <:+ ls := by
  match ls with
  | [] => exact List.suffix_rfl
  | [l] => exact List.suffix_rfl
  | l :: l' :: ls =>
    rw [stripFields]
    split_ifs
    · exact List.suffix_cons l (l' :: ls)
    · exact List.suffix_rfl

theorem Hostname.dot_notMem_fields (h : Hostname) : ∀ l ∈ h.fields, dot ∉ l := by
  intro l hl
  rcases List.mem_append.mp hl with hl | hl
  · obtain ⟨l', hl', rfl⟩ := List.mem_map.mp hl
    exact fun hd => (h.valid l' hl').dot_notMem (dot_mem_lower.mp hd)
  · split_ifs at hl
    · rw [List.mem_singleton.mp hl]
      exact List.not_mem_nil
    · exact absurd hl List.not_mem_nil

/-- A list of two or more fields begins with `www.` if its first field is `www`. -/
theorem www_prefix_iff {l l' : Bytes} {ls : List Bytes} (hdot : ∀ x ∈ l :: l' :: ls, dot ∉ x) :
    ascii "www." <+: dotted (l :: l' :: ls) ↔ l = ascii "www" := by
  have hwww : ascii "www." = ascii "www" ++ [dot] := by decide
  constructor
  · rintro ⟨t, ht⟩
    rw [hwww, List.append_assoc, List.singleton_append] at ht
    have hsplit := congrArg (List.splitOn dot) ht
    rw [splitOn_dotted hdot (by simp), List.splitOn_append_cons_self,
      List.splitOn_eq_singleton (by decide)] at hsplit
    exact (List.cons.inj hsplit).1.symm
  · rintro rfl
    rw [hwww, dotted_cons_cons]
    exact ⟨dotted (l' :: ls), by simp⟩

theorem stripWww_dotted {ls : List Bytes} (hdot : ∀ l ∈ ls, dot ∉ l) :
    stripWww (dotted ls) = dotted (stripFields ls) := by
  match ls with
  | [] => rfl
  | [l] =>
    refine if_neg fun h => hdot l (by simp) ?_
    rw [dotted_singleton] at h
    exact h.subset (by decide)
  | l :: l' :: ls =>
    simp only [stripWww, stripFields, www_prefix_iff hdot]
    split_ifs with hl
    · rw [hl, dotted_cons_cons]
      rfl
    · rfl

/-! ### What the extension blocks -/

/-- The test of one domain of the blocklist. -/
theorem domainTest_iff (r : DomainRule) {ls : List Bytes} (hls : ls ≠ [])
    (hdot : ∀ l ∈ ls, dot ∉ l) :
    (dotted ls == r.text || (dot :: r.text).isSuffixOf (dotted ls)) = true ↔ r.labels <:+ ls := by
  have hdotr : ∀ l ∈ r.labels, dot ∉ l := fun l hl => (r.valid l hl).dot_notMem
  rw [Bool.or_eq_true, beq_iff_eq, List.isSuffixOf_iff_suffix, DomainRule.text,
    dotted_inj hls r.ne_nil hdot hdotr, dot_cons_dotted_suffix_iff r.ne_nil hls hdotr hdot]
  constructor
  · rintro (rfl | ⟨h, -⟩)
    · exact List.suffix_rfl
    · exact h
  · intro h
    by_cases heq : ls = r.labels
    · exact Or.inl heq
    · exact Or.inr ⟨h, Ne.symm heq⟩

/-- A blocked TLD is a dot and a label. -/
theorem tldTest_iff {tld : Bytes} (htld : tld ∈ blockedTlds) {ls : List Bytes} (hls : ls ≠ [])
    (hdot : ∀ l ∈ ls, dot ∉ l) :
    tld <:+ dotted ls ↔ [tld.tail] <:+ ls ∧ [tld.tail] ≠ ls := by
  have hshape : ∀ tld ∈ blockedTlds, tld = dot :: tld.tail ∧ dot ∉ tld.tail := by decide
  obtain ⟨htld, hnodot⟩ := hshape tld htld
  have h := dot_cons_dotted_suffix_iff (List.cons_ne_nil tld.tail []) hls (by simpa using hnodot)
    hdot
  rwa [dotted_singleton, ← htld] at h

theorem patternTest_iff {pat : Bytes} (hpat : pat ∈ blockedPatterns) (ls : List Bytes) :
    pat <:+: dotted ls ↔ ∃ l ∈ ls, pat <:+: l := by
  have hshape : ∀ pat ∈ blockedPatterns, pat ≠ [] ∧ dot ∉ pat := by decide
  exact infix_dotted_iff (hshape pat hpat).1 (hshape pat hpat).2 ls

theorem isDomainBlocked_iff (rules : List DomainRule) (h : Hostname) :
    isDomainBlocked (rules.map (·.text)) blockedTlds blockedPatterns h.text = true ↔
      (∃ r ∈ rules, r.labels <:+ stripFields h.fields) ∨
        (∃ tld ∈ blockedTlds, [tld.tail] <:+ stripFields h.fields ∧
          [tld.tail] ≠ stripFields h.fields) ∨
        ∃ pat ∈ blockedPatterns, ∃ l ∈ stripFields h.fields, pat <:+: l := by
  have hne : h.fields ≠ [] := by simp [Hostname.fields, h.ne_nil]
  have hS := stripFields_ne_nil hne
  have hdot : ∀ l ∈ stripFields h.fields, dot ∉ l := fun l hl =>
    h.dot_notMem_fields l ((stripFields_suffix _).subset hl)
  have htext : h.text ≠ [] := by
    obtain ⟨l, ls, hls⟩ := List.exists_cons_of_ne_nil h.ne_nil
    have hl : l ≠ [] := (h.valid l (by simp [hls])).ne_nil
    cases ls <;> simp [Hostname.text, hls, hl]
  simp only [isDomainBlocked, if_neg htext, lower_text, stripWww_dotted h.dot_notMem_fields]
  rw [Bool.or_eq_true, Bool.or_eq_true, or_assoc, List.any_map, List.any_eq_true,
    List.any_eq_true, List.any_eq_true]
  refine or_congr ?_ (or_congr ?_ ?_)
  · exact exists_congr fun r => and_congr_right fun _ => domainTest_iff r hS hdot
  · refine exists_congr fun tld => and_congr_right fun htld => ?_
    rw [List.isSuffixOf_iff_suffix, tldTest_iff htld hS hdot]
  · refine exists_congr fun pat => and_congr_right fun hpat => ?_
    rw [decide_eq_true_iff, patternTest_iff hpat]

/-! ### Names the tree blocks and the extension does not -/

/-- No rule ends the labels, and no TLD ends them behind another label. -/
def NoSuffix (rules : List DomainRule) (ls : List Bytes) : Prop :=
  (∀ r ∈ rules, ¬ r.labels <:+ ls) ∧ ∀ tld ∈ blockedTlds, [tld.tail] <:+ ls → [tld.tail] = ls

/-- A rule is met and no label holds a pattern, and either the root dot hides all
suffixes, or behind a leading `www` no suffix is left to compare. -/
structure Missed (rules : List DomainRule) (h : Hostname) : Prop where
  met : ∃ r ∈ rules, r.labels <:+ h.labels.map lower
  noPattern : ∀ pat ∈ blockedPatterns, ∀ l ∈ h.labels.map lower, ¬ pat <:+: l
  hidden : h.rootDot = true ∨
    ∃ rest ≠ [], h.labels.map lower = ascii "www" :: rest ∧ NoSuffix rules rest

theorem stripFields_cases (ls : List Bytes) :
    stripFields ls = ls ∨ ls = ascii "www" :: stripFields ls ∧ stripFields ls ≠ [] := by
  match ls with
  | [] => exact Or.inl rfl
  | [l] => exact Or.inl rfl
  | l :: l' :: ls =>
    rw [stripFields]
    split_ifs with hl
    · exact Or.inr ⟨by rw [hl], by simp⟩
    · exact Or.inl rfl

theorem stripFields_www {rest : List Bytes} (hrest : rest ≠ []) :
    stripFields (ascii "www" :: rest) = rest := by
  obtain ⟨l, ls, rfl⟩ := List.exists_cons_of_ne_nil hrest
  rw [stripFields, if_pos rfl]

/-- Neither the stripped `www` nor the empty field of the root dot holds a pattern. -/
theorem exists_pattern_iff {pat : Bytes} (hpat : pat ∈ blockedPatterns) (h : Hostname) :
    (∃ l ∈ stripFields h.fields, pat <:+: l) ↔ ∃ l ∈ h.labels.map lower, pat <:+: l := by
  have hshape : ∀ pat ∈ blockedPatterns, pat ≠ [] ∧ ¬ pat <:+: ascii "www" := by decide
  obtain ⟨hne, hwww⟩ := hshape pat hpat
  constructor
  · rintro ⟨l, hl, hin⟩
    rcases List.mem_append.mp ((stripFields_suffix _).subset hl) with hl | hl
    · exact ⟨l, hl, hin⟩
    · split_ifs at hl
      · rw [List.mem_singleton.mp hl] at hin
        exact absurd (List.infix_nil.mp hin) hne
      · exact absurd hl List.not_mem_nil
  · rintro ⟨l, hl, hin⟩
    have hl : l ∈ h.fields := List.mem_append_left _ hl
    rcases stripFields_cases h.fields with hS | ⟨hS, -⟩
    · exact ⟨l, hS.symm ▸ hl, hin⟩
    · rcases List.mem_cons.mp (hS ▸ hl : l ∈ ascii "www" :: stripFields h.fields) with rfl | hl
      · exact absurd hin hwww
      · exact ⟨l, hl, hin⟩

/-- Behind a root dot no list of labels ends the fields. -/
theorem not_suffix_of_rootDot {h : Hostname} (hroot : h.rootDot = true) {xs : List Bytes}
    (hne : xs ≠ []) (hlabels : ∀ l ∈ xs, l ≠ []) : ¬ xs <:+ stripFields h.fields := by
  intro hxs
  have hxs : xs <:+ h.labels.map lower ++ [[]] := by
    simpa [Hostname.fields, hroot] using hxs.trans (stripFields_suffix _)
  rcases List.suffix_concat_iff.mp hxs with rfl | ⟨t, rfl, -⟩
  · exact hne rfl
  · exact hlabels [] (by simp) rfl

theorem noSuffix_of_rootDot (rules : List DomainRule) {h : Hostname} (hroot : h.rootDot = true) :
    NoSuffix rules (stripFields h.fields) := by
  have hshape : ∀ tld ∈ blockedTlds, tld.tail ≠ [] := by decide
  constructor
  · intro r _
    exact not_suffix_of_rootDot hroot r.ne_nil fun l hl => (r.valid l hl).ne_nil
  · intro tld htld hsuf
    refine absurd hsuf (not_suffix_of_rootDot hroot (List.cons_ne_nil _ _) fun l hl => ?_)
    rw [List.mem_singleton.mp hl]
    exact hshape tld htld

theorem noSuffix_iff_hidden {rules : List DomainRule} {h : Hostname}
    (hmet : ∃ r ∈ rules, r.labels <:+ h.labels.map lower) :
    NoSuffix rules (stripFields h.fields) ↔ h.rootDot = true ∨
      ∃ rest ≠ [], h.labels.map lower = ascii "www" :: rest ∧ NoSuffix rules rest := by
  obtain ⟨r, hr, hsuf⟩ := hmet
  cases hroot : h.rootDot with
  | true => simp only [noSuffix_of_rootDot rules hroot, true_or]
  | false =>
    simp only [Bool.false_eq_true, false_or]
    have hfields : h.fields = h.labels.map lower := by simp [Hostname.fields, hroot]
    rw [← hfields] at hsuf ⊢
    constructor
    · intro hno
      rcases stripFields_cases h.fields with hS | ⟨hS, hne⟩
      · exact absurd hsuf (hS ▸ hno.1 r hr)
      · exact ⟨stripFields h.fields, hne, hS, hno⟩
    · rintro ⟨rest, hrest, hls, hno⟩
      rwa [hls, stripFields_www hrest]

theorem missed_iff (rules : List DomainRule) (h : Hostname) :
    Missed rules h ↔ (∃ r ∈ rules, r.labels <:+ h.labels.map lower) ∧
      ¬ isDomainBlocked (rules.map (·.text)) blockedTlds blockedPatterns h.text = true := by
  have hpat : (∃ pat ∈ blockedPatterns, ∃ l ∈ stripFields h.fields, pat <:+: l) ↔
      ∃ pat ∈ blockedPatterns, ∃ l ∈ h.labels.map lower, pat <:+: l :=
    exists_congr fun pat => and_congr_right fun hpat => exists_pattern_iff hpat h
  have hno : NoSuffix rules (stripFields h.fields) ↔
      ¬ (∃ r ∈ rules, r.labels <:+ stripFields h.fields) ∧
        ¬ ∃ tld ∈ blockedTlds, [tld.tail] <:+ stripFields h.fields ∧
          [tld.tail] ≠ stripFields h.fields := by
    simp only [NoSuffix, not_exists, not_and, not_not]
  rw [isDomainBlocked_iff, hpat, not_or, not_or, ← and_assoc (c := ¬ ∃ pat ∈ _, _), ← hno]
  constructor
  · rintro ⟨hmet, hnone, hhidden⟩
    refine ⟨hmet, (noSuffix_iff_hidden hmet).mpr hhidden, ?_⟩
    rintro ⟨pat, hpat, l, hl, hin⟩
    exact hnone pat hpat l hl hin
  · rintro ⟨hmet, hsuf, hnone⟩
    exact ⟨hmet, fun pat hpat l hl hin => hnone ⟨pat, hpat, l, hl, hin⟩,
      (noSuffix_iff_hidden hmet).mp hsuf⟩

/-- What the tree matches the extension blocks too, but for the missed names. -/
theorem blocked_of_matches_iff (rules : List DomainRule) (h : Hostname) :
    ((ruleTree rules).matchesDomain h.text = true →
        isDomainBlocked (rules.map (·.text)) blockedTlds blockedPatterns h.text = true) ↔
      ¬ Missed rules h := by
  rw [missed_iff, matchesDomain_iff, not_and, not_not]

def exampleRule : DomainRule where
  labels := [ascii "example", ascii "com"]
  ne_nil := by decide
  valid := by
    intro l hl
    rcases List.mem_pair.mp hl with rfl | rfl <;> exact ⟨by decide, by decide, by decide +kernel⟩
  lowercase := by decide

/-- `example.com.` -/
def exampleRooted : Hostname where
  labels := [ascii "example", ascii "com"]
  rootDot := true
  ne_nil := by decide
  valid := exampleRule.valid

/-- The root dot takes a name past the extension that the tree blocks. -/
theorem exampleRooted_missed :
    (ruleTree [exampleRule]).matchesDomain exampleRooted.text = true ∧
      isDomainBlocked ([exampleRule].map (·.text)) blockedTlds blockedPatterns
        exampleRooted.text = false := by
  decide +kernel

end Degoonification.Browser
