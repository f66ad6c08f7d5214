import Degoonification.Dns.Server
import Degoonification.Domains.Blocklists
import Degoonification.Library.Fields
import Mathlib.Data.Finset.Dedup

/-! The blocklist from the script that compiles it to the two programs that load it. The
script writes sorted hosts-file entries below a comment; the resolver reads them into its
tree, the Android service into a set of names. On a compiled list of host names both count
every entry, the set holds exactly the names, and the resolver blocks exactly the queries
for a name of the set and for everything below one. -/

namespace Degoonification

/-! ### The compiler -/

namespace BlocklistCompiler

/-- `"# Degoonification Default Adult Blocklist"`. -/
def title : Bytes :=
  [35, 32, 68, 101, 103, 111, 111, 110, 105, 102, 105, 99, 97, 116, 105, 111, 110, 32, 68, 101,
    102, 97, 117, 108, 116, 32, 65, 100, 117, 108, 116, 32, 66, 108, 111, 99, 107, 108, 105, 115,
    116]

/-- `"0.0.0.0 "`. -/
def sinkAddress : Bytes := [48, 46, 48, 46, 48, 46, 48, 32]

/-- `sorted`: the order of code points is that of the UTF-8 bytes. -/
def sorted (domains : List Bytes) : List Bytes := domains.mergeSort fun a b => decide (a ≤ b)

/-- The lines of the file that `main` writes. -/
def lines (domains : List Bytes) : List Bytes := title :: (sorted domains).map (sinkAddress ++ ·)

/-- The file that `main` writes. -/
def compile (domains : List Bytes) : Bytes := (lines domains).flatMap (· ++ [10])

end BlocklistCompiler

/-! ### The Android service -/

namespace DnsFilterVpnService

/-- `Char.isWhitespace` of an ASCII character. -/
def isWhitespace (c : UInt8) : Bool := c == 32 || (9 ≤ c && c ≤ 13) || (28 ≤ c && c ≤ 31)

/-- `readLine` until the end of the file: a line ends with LF, CR or CR LF. -/
def readLines (line : Bytes) : Bytes → List Bytes
  | [] => if line = [] then [] else [line]
  | 13 :: 10 :: rest => line :: readLines [] rest
  | c :: rest => if c = 10 ∨ c = 13 then line :: readLines [] rest else readLines (line ++ [c]) rest

/-- The name that a line adds to `blockedDomains`, if any. -/
def lineName (line : Bytes) : Option Bytes :=
  let trimmed := Fields.trim isWhitespace isWhitespace line
  if trimmed ≠ [] ∧ ¬ [35] <+: trimmed then
    some (lower (if BlocklistCompiler.sinkAddress <+: trimmed then
      Fields.trim isWhitespace isWhitespace (trimmed.drop 8) else trimmed))
  else none

/-- `loadBlocklist` on an asset of ASCII characters: `blockedDomains` and `count`. -/
def loadBlocklist (text : Bytes) : Finset Bytes × ℕ :=
  let names := (readLines [] text).filterMap lineName
  (names.toFinset, names.length)

end DnsFilterVpnService

/-! ### Host names -/

/-- Printable ASCII characters other than the dot and the comment sign, in labels that are
not empty. -/
def IsHostName (d : Bytes) : Prop :=
  ∃ labels : List Bytes, labels ≠ [] ∧ dotted labels = d ∧
    ∀ l ∈ labels, l ≠ [] ∧ ∀ c ∈ l, 33 ≤ c ∧ c ≤ 126 ∧ c ≠ 35 ∧ c ≠ dot

theorem not_isspace_of_le {c : UInt8} (h : 33 ≤ c) : ¬ isspace c := by
  rw [UInt8.le_iff_toNat_le] at h
  simp [isspace, ← UInt8.toNat_inj, UInt8.le_iff_toNat_le] at h ⊢
  omega

theorem mem_dotted {ls : List Bytes} {c : UInt8} (hc : c ∈ dotted ls) :
    c = dot ∨ ∃ l ∈ ls, c ∈ l := by
  induction ls with
  | nil => exact absurd hc List.not_mem_nil
  | cons l ls ih =>
    cases ls with
    | nil => exact Or.inr ⟨l, List.mem_singleton_self l, by rwa [dotted_singleton] at hc⟩
    | cons l' ls =>
      rw [dotted_cons_cons, List.mem_append, List.mem_cons] at hc
      obtain hl | rfl | hrest := hc
      · exact Or.inr ⟨l, List.mem_cons_self, hl⟩
      · exact Or.inl rfl
      · obtain rfl | ⟨m, hm, hcm⟩ := ih hrest
        · exact Or.inl rfl
        · exact Or.inr ⟨m, List.mem_cons_of_mem l hm, hcm⟩

/-- The labels of a host name are split at its dots. -/
theorem splitDomainLabels_isHostName {ls : List Bytes}
    (h : ∀ l ∈ ls, l ≠ [] ∧ ∀ c ∈ l, 33 ≤ c ∧ c ≤ 126 ∧ c ≠ 35 ∧ c ≠ dot) :
    splitDomainLabels (dotted ls) = ls.map lower := by
  refine splitDomainLabels_dotted (fun l hl => (h l hl).1) (fun l hl hmem => ?_) fun l hl c hc => ?_
  · exact ((h l hl).2 dot hmem).2.2.2 rfl
  · exact not_isspace_of_le ((h l hl).2 c hc).1

section HostName

variable {d : Bytes}

theorem IsHostName.ne_nil (h : IsHostName d) : d ≠ [] := by
  obtain ⟨labels, hne, rfl, hlabels⟩ := h
  obtain ⟨⟨l, -, c, -, hhead⟩, -⟩ := dotted_ends (fun l hl => (hlabels l hl).1) hne
  intro hnil
  rw [hnil] at hhead
  exact absurd hhead.symm (Option.some_ne_none c)

theorem IsHostName.printable (h : IsHostName d) {c : UInt8} (hc : c ∈ d) :
    33 ≤ c ∧ c ≤ 126 ∧ c ≠ 35 := by
  obtain ⟨labels, -, rfl, hlabels⟩ := h
  obtain rfl | ⟨l, hl, hcl⟩ := mem_dotted hc
  · decide
  · obtain ⟨hlow, hhigh, hhash, -⟩ := (hlabels l hl).2 c hcl
    exact ⟨hlow, hhigh, hhash⟩

theorem isWord_of_isHostName (h : IsHostName d) : DomainRadixTree.IsWord d := by
  intro c hc
  obtain ⟨hlow, -, hhash⟩ := h.printable hc
  exact ⟨not_isspace_of_le hlow, hhash⟩

theorem IsHostName.not_isWhitespace (h : IsHostName d) {c : UInt8} (hc : c ∈ d) :
    DnsFilterVpnService.isWhitespace c = false := by
  obtain ⟨hlow, -⟩ := h.printable hc
  rw [UInt8.le_iff_toNat_le] at hlow
  simp [DnsFilterVpnService.isWhitespace, ← UInt8.toNat_inj, UInt8.le_iff_toNat_le] at hlow ⊢
  omega

/-- Neither reader ends a line inside an entry. -/
theorem IsHostName.notMem_entry (h : IsHostName d) {c : UInt8}
    (hc : c ∈ BlocklistCompiler.sinkAddress ++ d) : c ≠ 10 ∧ c ≠ 13 ∧ c ≠ 35 := by
  obtain hc | hc := List.mem_append.mp hc
  · have haddress : ∀ a ∈ BlocklistCompiler.sinkAddress, a ≠ 10 ∧ a ≠ 13 ∧ a ≠ 35 := by
      decide +kernel
    exact haddress c hc
  · obtain ⟨hlow, -, hhash⟩ := h.printable hc
    refine ⟨?_, ?_, hhash⟩ <;> rintro rfl <;> exact absurd hlow (by decide)

/-! ### One entry -/

theorem IsHostName.lineDomain_entry (h : IsHostName d) :
    DomainRadixTree.lineDomain (BlocklistCompiler.sinkAddress ++ d) = some d := by
  have hne := h.ne_nil
  have hcut : (BlocklistCompiler.sinkAddress ++ d).takeWhile (fun c => c != 35) =
      BlocklistCompiler.sinkAddress ++ d :=
    List.takeWhile_eq_self_iff.mpr fun c hc => bne_iff_ne.mpr (h.notMem_entry hc).2.2
  have hblank : ∀ c ∈ d, ¬ DomainRadixTree.isBlank c = true := fun c hc hb =>
    (isWord_of_isHostName h c hc).1 (DomainRadixTree.isspace_of_isBlank hb)
  have hstart : d.dropWhile DomainRadixTree.isBlank = d := by
    obtain ⟨c, d, rfl⟩ := List.exists_cons_of_ne_nil hne
    exact List.dropWhile_cons_of_neg (hblank c List.mem_cons_self)
  have hview : DomainRadixTree.skipAddress (BlocklistCompiler.sinkAddress ++ d) = d := by
    have haddress : (BlocklistCompiler.sinkAddress ++ d).dropWhile
        (fun c => !DomainRadixTree.isBlank c) = 32 :: d := rfl
    have hrest : (32 :: d).dropWhile DomainRadixTree.isBlank = d := by
      rw [List.dropWhile_cons_of_pos (by decide), hstart]
    unfold DomainRadixTree.skipAddress
    rw [haddress]
    simp only [hrest]
  have hskip : (BlocklistCompiler.sinkAddress ++ d).dropWhile DomainRadixTree.isSkipped =
      BlocklistCompiler.sinkAddress ++ d := rfl
  have hany : DomainRadixTree.hostsAddresses.any
      (fun a => a.isPrefixOf (BlocklistCompiler.sinkAddress ++ d)) = true := rfl
  rw [DomainRadixTree.lineDomain_eq, hcut, hskip, DomainRadixTree.viewDomain,
    if_neg (List.append_ne_nil_of_right_ne_nil _ hne), if_pos hany, hview]
  exact if_neg hne

theorem IsHostName.lineName_entry (h : IsHostName d) :
    DnsFilterVpnService.lineName (BlocklistCompiler.sinkAddress ++ d) = some (lower d) := by
  have htrim := @Fields.trim_append_eq_self UInt8 DnsFilterVpnService.isWhitespace
    DnsFilterVpnService.isWhitespace BlocklistCompiler.sinkAddress d (by decide) h.ne_nil
    (by decide +kernel) fun c => h.not_isWhitespace
  have hname := @Fields.trim_eq_self UInt8 DnsFilterVpnService.isWhitespace
    DnsFilterVpnService.isWhitespace d (fun c => h.not_isWhitespace) fun c => h.not_isWhitespace
  have hdrop : (BlocklistCompiler.sinkAddress ++ d).drop 8 = d := rfl
  have hentry : BlocklistCompiler.sinkAddress ++ d ≠ [] ∧
      ¬ [35] <+: BlocklistCompiler.sinkAddress ++ d := by
    refine ⟨List.append_ne_nil_of_right_ne_nil _ h.ne_nil, fun hpre => ?_⟩
    exact (h.notMem_entry (hpre.subset (List.mem_singleton_self 35))).2.2 rfl
  simp only [DnsFilterVpnService.lineName, htrim, if_pos hentry, if_pos (List.prefix_append _ d),
    hdrop, hname]

end HostName

/-! ### A compiled file -/

theorem mem_sorted {domains : List Bytes} {d : Bytes} :
    d ∈ BlocklistCompiler.sorted domains ↔ d ∈ domains :=
  (List.mergeSort_perm domains _).mem_iff

theorem length_sorted (domains : List Bytes) :
    (BlocklistCompiler.sorted domains).length = domains.length :=
  (List.mergeSort_perm domains _).length_eq

section Compiled

variable {domains : List Bytes} (h : ∀ d ∈ domains, IsHostName d)
include h

theorem notMem_lines {l : Bytes} (hl : l ∈ BlocklistCompiler.lines domains) {c : UInt8}
    (hc : c ∈ l) : c ≠ 10 ∧ c ≠ 13 := by
  obtain rfl | hl := List.mem_cons.mp hl
  · have htitle : ∀ a ∈ BlocklistCompiler.title, a ≠ 10 ∧ a ≠ 13 := by decide +kernel
    exact htitle c hc
  · obtain ⟨d, hd, rfl⟩ := List.mem_map.mp hl
    obtain ⟨hlf, hcr, -⟩ := (h d (mem_sorted.mp hd)).notMem_entry hc
    exact ⟨hlf, hcr⟩

/-- The resolver inserts the sorted names, and nothing for the title. -/
theorem fileDomains_compile :
    DomainRadixTree.fileDomains (some (BlocklistCompiler.compile domains)) =
      BlocklistCompiler.sorted domains := by
  have hsplit : (BlocklistCompiler.compile domains).splitOn 10 =
      BlocklistCompiler.lines domains ++ [[]] :=
    Fields.splitOn_flatMap_concat fun l hl hmem => (notMem_lines h hl hmem).1 rfl
  have hentries : ((BlocklistCompiler.sorted domains).map
      (BlocklistCompiler.sinkAddress ++ ·)).filterMap DomainRadixTree.lineDomain =
        BlocklistCompiler.sorted domains := by
    rw [List.filterMap_map]
    refine (List.filterMap_congr fun d hd => ?_).trans List.filterMap_some
    exact (h d (mem_sorted.mp hd)).lineDomain_entry
  rw [DomainRadixTree.fileDomains, DomainRadixTree.filterMap_getlines, hsplit,
    BlocklistCompiler.lines, List.filterMap_append, List.filterMap_cons_none (by decide), hentries]
  exact List.append_nil _

omit h in
/-- Android reads a line up to its line feed. -/
theorem readLines_append {l : Bytes} (hl : ∀ c ∈ l, c ≠ 10 ∧ c ≠ 13) (line rest : Bytes) :
    DnsFilterVpnService.readLines line (l ++ 10 :: rest) =
      (line ++ l) :: DnsFilterVpnService.readLines [] rest := by
  induction l generalizing line with
  | nil => simp [DnsFilterVpnService.readLines]
  | cons c l ih =>
    obtain ⟨⟨hlf, hcr⟩, hl⟩ := List.forall_mem_cons.mp hl
    have hstep : DnsFilterVpnService.readLines line (c :: (l ++ 10 :: rest)) =
        DnsFilterVpnService.readLines (line ++ [c]) (l ++ 10 :: rest) := by
      simp [DnsFilterVpnService.readLines, hlf, hcr]
    rw [List.cons_append, hstep, ih hl, List.append_assoc, List.singleton_append]

omit h in
theorem readLines_flatMap {lines : List Bytes} (hlines : ∀ l ∈ lines, ∀ c ∈ l, c ≠ 10 ∧ c ≠ 13) :
    DnsFilterVpnService.readLines [] (lines.flatMap (· ++ [10])) = lines := by
  induction lines with
  | nil => rfl
  | cons l lines ih =>
    obtain ⟨hl, hlines⟩ := List.forall_mem_cons.mp hlines
    rw [List.flatMap_cons, List.append_assoc, List.singleton_append, readLines_append hl,
      ih hlines, List.nil_append]

theorem loadBlocklist_compile :
    DnsFilterVpnService.loadBlocklist (BlocklistCompiler.compile domains) =
      (((BlocklistCompiler.sorted domains).map lower).toFinset, domains.length) := by
  have hnames : (BlocklistCompiler.lines domains).filterMap DnsFilterVpnService.lineName =
      (BlocklistCompiler.sorted domains).map lower := by
    rw [BlocklistCompiler.lines, List.filterMap_cons_none (by decide +kernel), List.filterMap_map,
      ← List.filterMap_eq_map]
    exact List.filterMap_congr fun d hd => (h d (mem_sorted.mp hd)).lineName_entry
  rw [DnsFilterVpnService.loadBlocklist, BlocklistCompiler.compile,
    readLines_flatMap fun l hl c hc => notMem_lines h hl hc, hnames, List.length_map,
    length_sorted]

/-- A suffix of lower-cased labels is a lower-cased suffix of the labels. -/
theorem isRule_compile_iff {labels : List Bytes} (hdot : ∀ l ∈ labels, dot ∉ l) :
    (∃ r, DomainRadixTree.IsRule (BlocklistCompiler.sorted domains) r ∧ r <:+ labels.map lower) ↔
      ∃ name, name ≠ [] ∧ name <:+ labels ∧ ∃ d ∈ domains, lower d = lower (dotted name) := by
  constructor
  · rintro ⟨r, ⟨hr, d, hd, hlabels⟩, pre, hsuf⟩
    obtain ⟨pre', name, rfl, -, rfl⟩ := List.map_eq_append_iff.mp hsuf.symm
    refine ⟨name, fun hnil => hr (by rw [hnil, List.map_nil]), ⟨pre', rfl⟩, d,
      mem_sorted.mp hd, ?_⟩
    obtain ⟨ls, -, rfl, hls⟩ := h d (mem_sorted.mp hd)
    rw [splitDomainLabels_isHostName hls] at hlabels
    rw [lower_dotted, lower_dotted, hlabels]
  · rintro ⟨name, hne, hsuf, d, hd, hlower⟩
    refine ⟨name.map lower, ⟨by simpa using hne, d, mem_sorted.mpr hd, ?_⟩, hsuf.map lower⟩
    obtain ⟨ls, hls0, rfl, hls⟩ := h d hd
    rw [lower_dotted, lower_dotted, dotted_inj (by simpa using hls0) (by simpa using hne)] at hlower
    · rw [splitDomainLabels_isHostName hls, hlower]
    · refine List.forall_mem_map.mpr fun l hl => mt dot_mem_lower.mp fun hmem => ?_
      exact ((hls l hl).2 dot hmem).2.2.2 rfl
    · exact List.forall_mem_map.mpr fun l hl => mt dot_mem_lower.mp (hdot l (hsuf.subset hl))

end Compiled

/-- The resolver and the Android service read a compiled list of host names alike: both
count the names, the service keeps just the names, lower-cased, and the resolver answers
just the queries whose name, as far as its first 64 labels, ends in a name of the service. -/
theorem compiled_readers_agree {domains : List Bytes} (h : ∀ d ∈ domains, IsHostName d)
    (m k : UInt64) (upstreamOpen : Bool) :
    let text := BlocklistCompiler.compile domains
    let android := DnsFilterVpnService.loadBlocklist text
    (DomainRadixTree.empty.loadFromFile (some text)).2 = domains.length ∧
      android.2 = domains.length ∧
      (∀ q, q ∈ android.1 ↔ ∃ d ∈ domains, lower d = q) ∧
      ∀ q : DnsServer.Query,
        (DnsServer.init m k (some text) upstreamOpen).Sinkholes q.bytes ↔
          ∃ name, name ≠ [] ∧ name <:+ q.labels.take 64 ∧ lower (dotted name) ∈ android.1 := by
  intro text android
  have hmem (q : Bytes) : q ∈ android.1 ↔ ∃ d ∈ domains, lower d = q := by
    simp only [android, text, loadBlocklist_compile h, List.mem_toFinset, List.mem_map, mem_sorted]
  refine ⟨?_, congrArg Prod.snd (loadBlocklist_compile h), hmem, fun q => ?_⟩
  · rw [DomainRadixTree.loadFromFile_eq, fileDomains_compile h, length_sorted]
  · have hlive : DomainRadixTree.liveDomains [.loadFromFile (some text)] =
        BlocklistCompiler.sorted domains := fileDomains_compile h
    have hdot : ∀ l ∈ q.labels.take 64, dot ∉ l := fun l hl => q.noDot l (List.mem_of_mem_take hl)
    rw [(DnsServer.loaded_init m k (some text) upstreamOpen).sinkholes_iff, hlive,
      isRule_compile_iff h hdot]
    simp only [hmem]

/-- `x` and `a.b`. -/
theorem compiled_readers_agree_two_names :
    (DnsServer.init 718880 10 (some (BlocklistCompiler.compile [[120], [97, 46, 98]]))
      true).Sinkholes DnsServer.subdomainQuery.bytes := by
  have hx : IsHostName [120] := ⟨[[120]], by decide +kernel, rfl, by decide +kernel⟩
  have hab : IsHostName [97, 46, 98] := ⟨[[97], [98]], by decide +kernel, rfl, by decide +kernel⟩
  obtain ⟨-, -, hnames, hsinkholes⟩ := compiled_readers_agree
    (List.forall_mem_cons.mpr ⟨hx, List.forall_mem_singleton.mpr hab⟩) 718880 10 true
  exact (hsinkholes DnsServer.subdomainQuery).mpr ⟨[[88]], by decide, by decide,
    (hnames _).mpr ⟨[120], List.mem_cons_self, rfl⟩⟩

end Degoonification
