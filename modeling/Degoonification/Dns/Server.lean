import Degoonification.Dns.WireName
import Degoonification.Domains.BloomFilter
import Degoonification.Domains.RadixRules

/-! `DnsServer`: what `run_loop` does with one datagram. A well-formed query is
decided on its first 64 labels: the blocked queries are exactly those in which
these end with a rule. -/

namespace Degoonification

open DnsPacket DomainRadixTree

structure DnsServer where
  radixTree : DomainRadixTree
  bloomFilter : BloomFilter
  /-- `upstream_fd_ >= 0`. -/
  upstreamOpen : Bool
  totalQueries : UInt64
  blockedQueries : UInt64
  forwardedQueries : UInt64

namespace DnsServer

/-- The server after `init`; `m` and `k` are the rounded formulas of its filter. -/
def init (m k : UInt64) (blocklist : Option Bytes) (upstreamOpen : Bool) : DnsServer :=
  ⟨(DomainRadixTree.empty.loadFromFile blocklist).1, .sized m k, upstreamOpen, 0, 0, 0⟩

def isBlocked (s : DnsServer) (qname : Bytes) : Bool :=
  s.radixTree.matchesDomain qname || s.bloomFilter.contains qname

/-- What the loop sends: nothing, a response to the client, or the datagram to
the upstream server. -/
inductive Action where
  | drop
  | sinkhole (response : Bytes)
  | forward (query : Bytes)
  deriving DecidableEq

/-- The branches of the loop body on a parsed packet; `buffer` is its datagram. -/
def answer (s : DnsServer) (packet : DnsPacket) (buffer : Bytes) : DnsServer × Action :=
  match packet.questions with
  | [] => (s, .drop)
  | q :: _ =>
    if s.isBlocked q.qname then
      ({ s with blockedQueries := s.blockedQueries + 1 }, .sinkhole packet.buildSinkholeResponse)
    else
      ({ s with forwardedQueries := s.forwardedQueries + 1 },
        if s.upstreamOpen then .forward buffer else .drop)

/-- The loop body up to the wait for upstream, on a datagram read into the buffer
of 2048 bytes. -/
def receive (s : DnsServer) (datagram : Bytes) : DnsServer × Action :=
  let buffer := datagram.take 2048
  if buffer = [] then (s, .drop)
  else
    match parse buffer with
    | none => ({ s with totalQueries := s.totalQueries + 1 }, .drop)
    | some packet => { s with totalQueries := s.totalQueries + 1 }.answer packet buffer

/-- The datagram is accepted, its first question is blocked, and the loop answers
it itself. -/
def Sinkholes (s : DnsServer) (datagram : Bytes) : Prop :=
  ∃ packet q, parse (datagram.take 2048) = some packet ∧ packet.questions.head? = some q ∧
    s.isBlocked q.qname = true ∧ (s.receive datagram).2 = .sinkhole packet.buildSinkholeResponse

/-- The tree holds the rules of a run, and the filter is as it was constructed. -/
structure Loaded (s : DnsServer) (ops : List Op) : Prop where
  tree : s.radixTree = run ops
  filter : ∃ m k, s.bloomFilter = .sized m k

theorem loaded_init (m k : UInt64) (blocklist : Option Bytes) (upstreamOpen : Bool) :
    (init m k blocklist upstreamOpen).Loaded [.loadFromFile blocklist] :=
  ⟨rfl, m, k, rfl⟩

/-- Only the counters change. -/
theorem receive_frame (s : DnsServer) (datagram : Bytes) :
    (s.receive datagram).1.radixTree = s.radixTree ∧
      (s.receive datagram).1.bloomFilter = s.bloomFilter ∧
      (s.receive datagram).1.upstreamOpen = s.upstreamOpen := by
  rw [receive]
  split
  · exact ⟨rfl, rfl, rfl⟩
  split
  · exact ⟨rfl, rfl, rfl⟩
  rw [answer]
  split
  · exact ⟨rfl, rfl, rfl⟩
  split <;> exact ⟨rfl, rfl, rfl⟩

theorem Loaded.receive {s : DnsServer} {ops : List Op} (h : s.Loaded ops) (datagram : Bytes) :
    (s.receive datagram).1.Loaded ops := by
  obtain ⟨htree, hfilter, -⟩ := s.receive_frame datagram
  exact ⟨htree.trans h.tree, hfilter ▸ h.filter⟩

/-- The filter blocks nothing, so the rules decide. -/
theorem Loaded.isBlocked_iff {s : DnsServer} {ops : List Op} (h : s.Loaded ops) (qname : Bytes) :
    s.isBlocked qname = true ↔
      ∃ r, IsRule (liveDomains ops) r ∧ r <:+ splitDomainLabels qname := by
  obtain ⟨m, k, hfilter⟩ := h.filter
  rw [isBlocked, hfilter, BloomFilter.contains_sized, Bool.or_false, h.tree,
    (represents_run ops).matchesDomain_iff]
  constructor
  · rintro ⟨d, hd, hne, hsuf⟩
    exact ⟨_, ⟨hne, d, hd, rfl⟩, hsuf⟩
  · rintro ⟨_, ⟨hne, d, hd, rfl⟩, hsuf⟩
    exact ⟨d, hd, hne, hsuf⟩

/-- The decision on an accepted datagram with one question. -/
theorem sinkholes_iff_isBlocked {s : DnsServer} {datagram : Bytes} {id flags : UInt16}
    {q : DnsQuestion} (h : parse (datagram.take 2048) = some ⟨id, flags, [q]⟩) :
    s.Sinkholes datagram ↔ s.isBlocked q.qname = true := by
  have hne : datagram.take 2048 ≠ [] := by
    intro hnil
    rw [hnil] at h
    cases h
  constructor
  · rintro ⟨packet, q', hparse, hq, hblocked, -⟩
    obtain rfl := Option.some.inj (h.symm.trans hparse)
    obtain rfl := Option.some.inj hq
    exact hblocked
  · intro hblocked
    refine ⟨_, q, h, rfl, hblocked, ?_⟩
    simp only [receive, if_neg hne, h, answer]
    exact congrArg Prod.snd (if_pos hblocked)

/-! ### Well-formed queries -/

/-- A query with one uncompressed name within the limits of the wire format; the
tail starts with QTYPE and QCLASS. -/
structure Query where
  hdr : Bytes
  labels : List Bytes
  tail : Bytes
  hdr_length : hdr.length = 12
  one : u16At hdr 4 = 1
  isLabel : ∀ l ∈ labels, IsLabel l
  noDot : ∀ l ∈ labels, dot ∉ l
  noSpace : ∀ l ∈ labels, ∀ c ∈ l, ¬ isspace c
  name_length : (wireName labels).length ≤ 255
  tail_length : 4 ≤ tail.length

def Query.bytes (q : Query) : Bytes := q.hdr ++ wireName q.labels ++ q.tail

/-- The name of a query fits into the buffer. -/
theorem Query.take_bytes (q : Query) : ∃ tail', 4 ≤ tail'.length ∧
    q.bytes.take 2048 = q.hdr ++ wireName q.labels ++ tail' := by
  have hhdr := q.hdr_length
  have hname := q.name_length
  have htail := q.tail_length
  have hlen : (q.hdr ++ wireName q.labels).length ≤ 2044 := by
    rw [List.length_append]
    omega
  refine ⟨q.tail.take (2048 - (q.hdr ++ wireName q.labels).length), ?_, ?_⟩
  · rw [List.length_take]
    omega
  · rw [Query.bytes, List.take_append, List.take_of_length_le (by omega)]

theorem Query.exists_parse (q : Query) : ∃ question, parse (q.bytes.take 2048) =
    some ⟨u16At q.hdr 0, u16At q.hdr 2, [question]⟩ ∧
      splitDomainLabels question.qname = (q.labels.take 64).map lower := by
  obtain ⟨tail', htail', htake⟩ := q.take_bytes
  obtain ⟨question, hparse, hqname⟩ := parse_single q.hdr_length q.one q.isLabel htail'
  refine ⟨question, htake ▸ hparse, ?_⟩
  have hmem : ∀ l ∈ (q.labels.take 64).map lower, ∃ l' ∈ q.labels, lower l' = l := by
    intro l hl
    obtain ⟨l', hl', rfl⟩ := List.mem_map.mp hl
    exact ⟨l', List.mem_of_mem_take hl', rfl⟩
  rw [hqname, splitDomainLabels_dotted]
  · simp [lower_lower, Function.comp_def]
  · intro l hl
    obtain ⟨l', hl', rfl⟩ := hmem l hl
    exact (q.isLabel l' hl').lower.ne_nil
  · intro l hl
    obtain ⟨l', hl', rfl⟩ := hmem l hl
    exact mt dot_mem_lower.mp (q.noDot l' hl')
  · intro l hl c hc
    obtain ⟨l', hl', rfl⟩ := hmem l hl
    obtain ⟨c', hc', rfl⟩ := List.mem_map.mp hc
    rw [isspace_tolower]
    exact q.noSpace l' hl' c' hc'

/-- A query is blocked when a rule matches its first 64 labels. -/
theorem Loaded.sinkholes_iff {s : DnsServer} {ops : List Op} (h : s.Loaded ops) (q : Query) :
    s.Sinkholes q.bytes ↔
      ∃ r, IsRule (liveDomains ops) r ∧ r <:+ (q.labels.take 64).map lower := by
  obtain ⟨question, hparse, hsplit⟩ := q.exists_parse
  rw [sinkholes_iff_isBlocked hparse, h.isBlocked_iff, hsplit]

/-- Every rule that matches a query blocks it exactly when some rule matches the
first 64 labels of it too. -/
theorem no_bypass_iff (s : DnsServer) (ops : List Op) (h : s.Loaded ops) (q : Query) :
    (∀ r, IsRule (liveDomains ops) r → r <:+ q.labels.map lower → s.Sinkholes q.bytes) ↔
      ((∃ r, IsRule (liveDomains ops) r ∧ r <:+ q.labels.map lower) →
        ∃ r, IsRule (liveDomains ops) r ∧ r <:+ (q.labels.take 64).map lower) := by
  rw [h.sinkholes_iff q]
  constructor
  · rintro hall ⟨r, hr, hsuf⟩
    exact hall r hr hsuf
  · intro hcond r hr hsuf
    exact hcond ⟨r, hr, hsuf⟩

/-- The blocklist `x`. -/
abbrev listX : Option Bytes := some [120, 10]

theorem isRule_listX : IsRule (liveDomains [.loadFromFile listX]) [[120]] :=
  ⟨by decide, [120], by decide, by decide⟩

/-- The question for `A` at `A.X`. -/
def subdomainQuery : Query where
  hdr := [0x12, 0x34, 1, 0, 0, 1, 0, 0, 0, 0, 0, 0]
  labels := [[65], [88]]
  tail := [0, 1, 0, 1]
  hdr_length := rfl
  one := by decide
  isLabel := by decide
  noDot := by decide
  noSpace := by simp [isspace]
  name_length := by decide
  tail_length := le_rfl

theorem no_bypass_subdomain : (init 718880 10 listX true).Sinkholes subdomainQuery.bytes :=
  (no_bypass_iff _ _ (loaded_init 718880 10 listX true) subdomainQuery).mpr
    (fun _ => ⟨[[120]], isRule_listX, by decide⟩) [[120]] isRule_listX (by decide)

/-- The question for `A` at 64 labels `a` and the label `x` behind them. -/
def longQuery : Query where
  hdr := [0x12, 0x34, 1, 0, 0, 1, 0, 0, 0, 0, 0, 0]
  labels := List.replicate 64 [97] ++ [[120]]
  tail := [0, 1, 0, 1]
  hdr_length := rfl
  one := by decide
  isLabel := by decide +kernel
  noDot := by decide +kernel
  noSpace := by simp [isspace, or_imp, forall_and]
  name_length := by decide +kernel
  tail_length := le_rfl

/-- A subdomain of `x` that is forwarded: its last label is the 65th. -/
theorem longQuery_forwarded : IsRule (liveDomains [.loadFromFile listX]) [[120]] ∧
    [[120]] <:+ longQuery.labels.map lower ∧
      ((init 718880 10 listX true).receive longQuery.bytes).2 = .forward longQuery.bytes :=
  ⟨isRule_listX, by decide +kernel, by decide +kernel⟩

end DnsServer

end Degoonification
