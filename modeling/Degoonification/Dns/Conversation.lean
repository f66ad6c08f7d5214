import Degoonification.Dns.Relay

/-! What the DNS server says over a whole run. The datagrams read so far, in the order
in which they arrived, determine what is sent: a blocked query is answered at once with
its sinkhole response, a forwarded one is sent upstream and answered with what its wait
ended with, and nothing else is said to anybody. Only which replies came in time is left
to the network; the three counters are the numbers of datagrams of each kind. -/

namespace Degoonification

open DnsPacket

namespace DnsServer

/-- What a datagram is to the server. -/
inductive Verdict where
  | empty | refused
  | blocked (response : Bytes)
  | allowed
  deriving DecidableEq

def verdict (s : DnsServer) (datagram : Bytes) : Verdict :=
  let buffer := datagram.take 2048
  if buffer = [] then .empty
  else
    match parse buffer with
    | none => .refused
    | some packet =>
      match packet.questions with
      | [] => .refused
      | q :: _ => if s.isBlocked q.qname then .blocked packet.buildSinkholeResponse else .allowed

namespace Verdict

def isQuery : Verdict → Bool
  | empty => false
  | _ => true

def isBlocked : Verdict → Bool
  | blocked _ => true
  | _ => false

def isAllowed : Verdict → Bool
  | allowed => true
  | _ => false

end Verdict

/-- The counters raised by one. -/
def counted (s : DnsServer) (v : Verdict) : DnsServer :=
  { s with
    totalQueries := s.totalQueries + if v.isQuery then 1 else 0
    blockedQueries := s.blockedQueries + if v.isBlocked then 1 else 0
    forwardedQueries := s.forwardedQueries + if v.isAllowed then 1 else 0 }

/-- What the loop sends for a verdict on a datagram. -/
def action (s : DnsServer) (datagram : Bytes) : Verdict → Action
  | .blocked response => .sinkhole response
  | .allowed => if s.upstreamOpen then .forward (datagram.take 2048) else .drop
  | .empty | .refused => .drop

theorem receive_eq (s : DnsServer) (datagram : Bytes) :
    s.receive datagram =
      (s.counted (s.verdict datagram), s.action datagram (s.verdict datagram)) := by
  simp only [receive, verdict]
  split_ifs with hempty
  · simp [counted, action, Verdict.isQuery, Verdict.isBlocked, Verdict.isAllowed]
  cases parse (datagram.take 2048) with
  | none => simp [counted, action, Verdict.isQuery, Verdict.isBlocked, Verdict.isAllowed]
  | some packet =>
    simp only [answer]
    cases packet.questions with
    | nil => simp [counted, action, Verdict.isQuery, Verdict.isBlocked, Verdict.isAllowed]
    | cons q qs =>
      have hsame : isBlocked { s with totalQueries := s.totalQueries + 1 } q.qname =
          s.isBlocked q.qname := rfl
      dsimp only
      rw [hsame]
      split_ifs <;>
        simp [counted, action, Verdict.isQuery, Verdict.isBlocked, Verdict.isAllowed, *]

/-- The rules and the sockets of a server, its counters apart. -/
structure SameRules (s t : DnsServer) : Prop where
  radixTree : t.radixTree = s.radixTree
  bloomFilter : t.bloomFilter = s.bloomFilter
  upstreamOpen : t.upstreamOpen = s.upstreamOpen

theorem SameRules.verdict {s t : DnsServer} (h : SameRules s t) : t.verdict = s.verdict := by
  have hblocked : t.isBlocked = s.isBlocked := by
    funext qname
    rw [isBlocked, isBlocked, h.radixTree, h.bloomFilter]
  funext datagram
  rw [DnsServer.verdict, DnsServer.verdict, hblocked]

end DnsServer

namespace Relay

variable {Client : Type}

/-- The datagrams of a run, in the order in which they arrive. -/
def arrivals (es : List (Event Client)) : List (Client × Bytes) :=
  es.filterMap fun e => match e with
    | .arrive client datagram => some (client, datagram)
    | _ => none

/-- The replies of a run, in the order in which they arrive. -/
def replied (es : List (Event Client)) : List Reply :=
  es.filterMap fun e => match e with
    | .reply query payload => some ⟨query, payload⟩
    | _ => none

/-- A reply as it is read into the buffer of 2048 bytes; without bytes it is not passed on. -/
def passedOn (r : Reply) : Option Reply :=
  if r.payload.take 2048 = [] then none else some { r with payload := r.payload.take 2048 }

/-- What the waits of a run end with, in order: nothing, or the next reply to have
arrived. -/
def waitEnds : List (Event Client) → List Reply → List (Option Reply)
  | [], _ => []
  | .timeout :: es, replies => none :: waitEnds es replies
  | .take :: es, replies => replies.head?.bind passedOn :: waitEnds es replies.tail
  | .arrive .. :: es, replies | .receive :: es, replies | .reply .. :: es, replies =>
    waitEnds es replies

/-- The datagram goes upstream. -/
def goesUp (server : DnsServer) (datagram : Bytes) : Bool :=
  server.upstreamOpen && (server.verdict datagram).isAllowed

/-- What the server says to datagrams read in this order, when `replies` are what its
waits for those that went upstream ended with, from query `n` on. -/
def answers (server : DnsServer) : ℕ → List (Client × Bytes) → List (Option Reply) →
    List (Sent Client)
  | _, [], _ => []
  | n, (client, datagram) :: rest, replies =>
    if goesUp server datagram then
      ((replies.head?.join).elim [] fun r => [.relay client n r]) ++
        answers server (n + 1) rest replies.tail
    else
      match server.verdict datagram with
      | .blocked response => .sinkhole client response :: answers server n rest replies
      | _ => answers server n rest replies

/-- What is sent upstream of datagrams read in this order. -/
def upstreamOf (server : DnsServer) (datagrams : List (Client × Bytes)) : List Bytes :=
  (datagrams.filter fun p => goesUp server p.2).map fun p => p.2.take 2048

/-- The queries that went upstream. -/
def wentUp (server : DnsServer) (datagrams : List (Client × Bytes)) : ℕ :=
  datagrams.countP fun p => goesUp server p.2

theorem answers_append (server : DnsServer) (before : List (Client × Bytes)) :
    ∀ (n : ℕ) (after : List (Client × Bytes)) (replies : List (Option Reply)),
      answers server n (before ++ after) replies =
        answers server n before (replies.take (wentUp server before)) ++
          answers server (n + wentUp server before) after
            (replies.drop (wentUp server before)) := by
  induction before with
  | nil =>
    intro n after replies
    simp [answers, wentUp]
  | cons p before ih =>
    intro n after replies
    obtain ⟨client, datagram⟩ := p
    rw [List.cons_append, answers, answers]
    by_cases hup : goesUp server datagram = true
    · have hcount : wentUp server ((client, datagram) :: before) = wentUp server before + 1 :=
        List.countP_cons_of_pos hup
      rw [if_pos hup, if_pos hup, ih, hcount, List.append_assoc, Nat.add_assoc, Nat.add_comm 1]
      cases replies <;> simp
    · have hcount : wentUp server ((client, datagram) :: before) = wentUp server before :=
        List.countP_cons_of_neg hup
      rw [if_neg hup, if_neg hup, hcount]
      split <;> simp [ih]

/-- The state when `done` has been read and its waits so far ended with `replies`. -/
structure Conversing (server : DnsServer) (done : List (Client × Bytes))
    (replies : List (Option Reply)) (s : Relay Client) : Prop where
  rules : server.SameRules s.server
  sent : s.sent = answers server 0 done replies
  sentUpstream : s.sentUpstream = upstreamOf server done
  numbered : s.nextQuery = wentUp server done
  idle : s.waiting = none → replies.length = wentUp server done
  waiting : ∀ client query, s.waiting = some (client, query) → ∃ before datagram,
    done = before ++ [(client, datagram)] ∧ goesUp server datagram = true ∧
      query = wentUp server before ∧ replies.length = wentUp server before
  total : s.server.totalQueries =
    server.totalQueries + .ofNat (done.countP fun p => (server.verdict p.2).isQuery)
  blocked : s.server.blockedQueries =
    server.blockedQueries + .ofNat (done.countP fun p => (server.verdict p.2).isBlocked)
  forwarded : s.server.forwardedQueries =
    server.forwardedQueries + .ofNat (done.countP fun p => (server.verdict p.2).isAllowed)

section Step

variable {server : DnsServer} {done : List (Client × Bytes)} {replies : List (Option Reply)}
  {s s' : Relay Client} {client : Client} {datagram : Bytes}

/-- A counter after one more datagram. -/
theorem add_countP_snoc (n : UInt64) (P : Client × Bytes → Bool) (p : Client × Bytes) :
    n + .ofNat ((done ++ [p]).countP P) = n + .ofNat (done.countP P) + if P p then 1 else 0 := by
  rw [List.countP_append, List.countP_singleton, UInt64.ofNat_add, UInt64.add_assoc]
  split_ifs <;> rfl

theorem wentUp_snoc : wentUp server (done ++ [(client, datagram)]) =
    wentUp server done + if goesUp server datagram then 1 else 0 := by
  rw [wentUp, wentUp, List.countP_append, List.countP_singleton]

theorem upstreamOf_snoc : upstreamOf server (done ++ [(client, datagram)]) =
    upstreamOf server done ++ if goesUp server datagram then [datagram.take 2048] else [] := by
  rw [upstreamOf, upstreamOf, List.filter_append, List.map_append]
  cases hup : goesUp server datagram <;> simp [hup]

/-- The replies so far are all that is said to what was read before. -/
theorem answers_snoc (client : Client) (datagram : Bytes)
    (hlen : replies.length = wentUp server done) (last : List (Option Reply)) :
    answers server 0 (done ++ [(client, datagram)]) (replies ++ last) =
      answers server 0 done replies ++
        answers server (wentUp server done) [(client, datagram)] last := by
  rw [answers_append, ← hlen, List.take_left, List.drop_left, Nat.zero_add]

/-- The server after reading one more datagram. -/
theorem Conversing.counters (h : Conversing server done replies s) (client : Client)
    (datagram : Bytes) :
    let t := (s.server.receive datagram).1
    let done' := done ++ [(client, datagram)]
    server.SameRules t ∧
      t.totalQueries =
        server.totalQueries + .ofNat (done'.countP fun p => (server.verdict p.2).isQuery) ∧
      t.blockedQueries =
        server.blockedQueries + .ofNat (done'.countP fun p => (server.verdict p.2).isBlocked) ∧
      t.forwardedQueries =
        server.forwardedQueries +
          .ofNat (done'.countP fun p => (server.verdict p.2).isAllowed) := by
  dsimp only
  rw [DnsServer.receive_eq, h.rules.verdict]
  simp only [add_countP_snoc, ← h.total, ← h.blocked, ← h.forwarded]
  exact ⟨⟨h.rules.radixTree, h.rules.bloomFilter, h.rules.upstreamOpen⟩, rfl, rfl, rfl⟩

/-- What the loop does with a datagram, by the rules of the server it started with. -/
theorem Conversing.action (h : Conversing server done replies s) (datagram : Bytes) :
    (s.server.receive datagram).2 = server.action datagram (server.verdict datagram) := by
  rw [DnsServer.receive_eq, h.rules.verdict]
  cases server.verdict datagram <;> simp [DnsServer.action, h.rules.upstreamOpen]

/-- What is said at once to a datagram, and whether it goes up, for each action. -/
theorem answers_action (server : DnsServer) (client : Client) (datagram : Bytes) :
    match server.action datagram (server.verdict datagram) with
    | .drop => goesUp server datagram = false ∧ answers server 0 [(client, datagram)] [] = []
    | .sinkhole response => goesUp server datagram = false ∧
        answers server 0 [(client, datagram)] [] = [.sinkhole client response]
    | .forward query => goesUp server datagram = true ∧ query = datagram.take 2048 := by
  cases hv : server.verdict datagram with
  | allowed =>
    cases hup : server.upstreamOpen <;>
      simp [DnsServer.action, answers, goesUp, hv, hup, DnsServer.Verdict.isAllowed]
  | empty | refused | blocked =>
    simp [DnsServer.action, answers, goesUp, hv, DnsServer.Verdict.isAllowed]

/-- A datagram that goes up is answered by the reply there is to it. -/
theorem answers_up (client : Client) (hup : goesUp server datagram = true) (n : ℕ)
    (o : Option Reply) :
    answers server n [(client, datagram)] [] = [] ∧
      answers server n [(client, datagram)] [o] = o.elim [] fun r => [.relay client n r] := by
  constructor
  · simp [answers, hup]
  · cases o <;> simp [answers, hup]

/-- A reply is cut, and an empty one is not passed on. -/
theorem sent_passedOn (sent : List (Sent Client)) (client : Client) (query : ℕ) (r : Reply) :
    (sent ++ (passedOn r).elim [] fun r => [.relay client query r]) =
      if r.payload.take 2048 = [] then sent
      else sent ++ [.relay client query { r with payload := r.payload.take 2048 }] := by
  unfold passedOn
  split_ifs <;> simp

/-- The end of a wait, with a reply to pass on or without. -/
theorem Conversing.endWait {query : ℕ} (h : Conversing server done replies s)
    (hw : s.waiting = some (client, query)) (o : Option Reply) (queue : List Reply) :
    Conversing server done (replies ++ [o])
      { s with
        waiting := none
        upstreamQueue := queue
        sent := s.sent ++ o.elim [] fun r => [.relay client query r] } := by
  obtain ⟨before, datagram, hdone, hup, hquery, hlen⟩ := h.waiting client query hw
  have hone := answers_up client hup (wentUp server before)
  have hsent : s.sent = answers server 0 before replies := by
    have hsnoc := answers_snoc client datagram hlen []
    rw [List.append_nil, ← hdone, (hone none).1, List.append_nil] at hsnoc
    exact h.sent.trans hsnoc
  refine ⟨h.rules, ?_, h.sentUpstream, h.numbered, fun _ => ?_, (fun _ _ hn => nomatch hn),
    h.total, h.blocked, h.forwarded⟩
  · rw [hdone, answers_snoc client datagram hlen, (hone o).2, hquery, hsent]
  · rw [List.length_append, hlen, hdone, wentUp_snoc, if_pos hup]
    rfl

/-- A datagram that is read without a wait. -/
theorem Conversing.read (h : Conversing server done replies s) (hw : s.waiting = none)
    (client : Client) (hup : goesUp server datagram = false) (queue : List (Client × Bytes)) :
    Conversing server (done ++ [(client, datagram)]) replies
      { s with
        server := (s.server.receive datagram).1
        clientQueue := queue
        sent := s.sent ++ answers server 0 [(client, datagram)] [] } := by
  obtain ⟨hrules, htotal, hblocked, hforwarded⟩ := h.counters client datagram
  have hcount : wentUp server (done ++ [(client, datagram)]) = wentUp server done := by
    rw [wentUp_snoc, hup, if_neg Bool.false_ne_true, Nat.add_zero]
  have hnumber : answers server (wentUp server done) [(client, datagram)] [] =
      answers server 0 [(client, datagram)] [] := by
    simp only [answers, hup, Bool.false_eq_true, if_false]
  have hsnoc := answers_snoc client datagram (h.idle hw) []
  rw [List.append_nil, hnumber] at hsnoc
  refine ⟨hrules, ?_, ?_, h.numbered.trans hcount.symm, fun _ => (h.idle hw).trans hcount.symm,
    fun _ _ hn => ?_, htotal, hblocked, hforwarded⟩
  · rw [hsnoc, h.sent]
  · rw [upstreamOf_snoc, hup, if_neg Bool.false_ne_true, List.append_nil, h.sentUpstream]
  · exact nomatch hw.symm.trans hn

/-- A datagram that is passed on, for which the loop then waits. -/
theorem Conversing.forward (h : Conversing server done replies s) (hw : s.waiting = none)
    (client : Client) (hup : goesUp server datagram = true) (queue : List (Client × Bytes)) :
    Conversing server (done ++ [(client, datagram)]) replies
      { s with
        server := (s.server.receive datagram).1
        clientQueue := queue
        waiting := some (client, s.nextQuery)
        nextQuery := s.nextQuery + 1
        inFlight := s.inFlight ++ [s.nextQuery]
        sentUpstream := s.sentUpstream ++ [datagram.take 2048] } := by
  obtain ⟨hrules, htotal, hblocked, hforwarded⟩ := h.counters client datagram
  have hsnoc := answers_snoc client datagram (h.idle hw) []
  rw [List.append_nil, (answers_up client hup _ none).1, List.append_nil] at hsnoc
  refine ⟨hrules, ?_, ?_, ?_, (fun hn => nomatch hn), fun client' query' hwait => ?_, htotal,
    hblocked, hforwarded⟩
  · rw [hsnoc, h.sent]
  · rw [upstreamOf_snoc, if_pos hup, h.sentUpstream]
  · rw [wentUp_snoc, if_pos hup, h.numbered]
  · obtain ⟨rfl, rfl⟩ := Prod.mk.inj (Option.some.inj hwait)
    exact ⟨done, datagram, rfl, hup, h.numbered, h.idle hw⟩

/-- What waits to be read has no part in what was said. -/
theorem Conversing.queues (h : Conversing server done replies s)
    (clientQueue : List (Client × Bytes)) (inFlight : List ℕ) (upstreamQueue : List Reply) :
    Conversing server done replies { s with clientQueue, inFlight, upstreamQueue } :=
  ⟨h.rules, h.sent, h.sentUpstream, h.numbered, h.idle, h.waiting, h.total, h.blocked,
    h.forwarded⟩

/-- One step: what it reads, and what it ends a wait with. -/
theorem Conversing.step {e : Event Client} (hstep : Relay.step s e = some s')
    (h : Conversing server done replies s) :
    ∃ read ends, s.clientQueue ++ arrivals [e] = read ++ s'.clientQueue ∧
      (∀ es, waitEnds (e :: es) (s.upstreamQueue ++ replied (e :: es)) =
        ends ++ waitEnds es (s'.upstreamQueue ++ replied es)) ∧
      Conversing server (done ++ read) (replies ++ ends) s' := by
  cases step_cases hstep with
  | arrive client datagram =>
    refine ⟨[], [], rfl, fun _ => rfl, ?_⟩
    rw [List.append_nil, List.append_nil]
    exact h.queues _ _ _
  | @drop client datagram rest hw hq ha =>
    have haction := answers_action server client datagram
    rw [← h.action, ha] at haction
    obtain ⟨hup, hnone⟩ := haction
    refine ⟨[(client, datagram)], [], by simp [arrivals, hq], fun _ => rfl, ?_⟩
    have hread := h.read hw client hup rest
    rw [hnone, List.append_nil] at hread
    rw [List.append_nil]
    exact hread
  | @sinkhole client datagram response rest hw hq ha =>
    have haction := answers_action server client datagram
    rw [← h.action, ha] at haction
    obtain ⟨hup, hone⟩ := haction
    refine ⟨[(client, datagram)], [], by simp [arrivals, hq], fun _ => rfl, ?_⟩
    have hread := h.read hw client hup rest
    rw [hone] at hread
    rw [List.append_nil]
    exact hread
  | @forward client datagram query rest hw hq ha =>
    have haction := answers_action server client datagram
    rw [← h.action, ha] at haction
    obtain ⟨hup, rfl⟩ := haction
    refine ⟨[(client, datagram)], [], by simp [arrivals, hq], fun _ => rfl, ?_⟩
    rw [List.append_nil]
    exact h.forward hw client hup rest
  | @reply query payload hin =>
    refine ⟨[], [], by simp [arrivals], fun es => ?_, ?_⟩
    · simp [waitEnds, replied]
    · rw [List.append_nil, List.append_nil]
      exact h.queues _ _ _
  | @timeout w hw hq =>
    refine ⟨[], [none], by simp [arrivals], fun _ => rfl, ?_⟩
    have hend := h.endWait hw none s.upstreamQueue
    rw [Option.elim_none, List.append_nil] at hend
    rw [List.append_nil]
    exact hend
  | @take client query r rest hw hq =>
    refine ⟨[], [passedOn r], by simp [arrivals], fun es => ?_, ?_⟩
    · simp [waitEnds, replied, hq]
    · have hend := h.endWait hw (passedOn r) rest
      rw [sent_passedOn] at hend
      rw [List.append_nil]
      exact hend

end Step

/-! ### Runs -/

theorem arrivals_cons (e : Event Client) (es : List (Event Client)) :
    arrivals (e :: es) = arrivals [e] ++ arrivals es := by
  rw [arrivals, arrivals, arrivals, ← List.filterMap_append, List.singleton_append]

theorem Conversing.exec {server : DnsServer} {es : List (Event Client)} :
    ∀ {done : List (Client × Bytes)} {replies : List (Option Reply)} {s s' : Relay Client},
      Conversing server done replies s → Runs.exec Relay.step s es = some s' →
      ∃ read, s.clientQueue ++ arrivals es = read ++ s'.clientQueue ∧
        Conversing server (done ++ read)
          (replies ++ waitEnds es (s.upstreamQueue ++ replied es)) s' := by
  induction es with
  | nil =>
    intro done replies s s' h hrun
    obtain rfl := Option.some.inj hrun
    refine ⟨[], List.append_nil _, ?_⟩
    rw [waitEnds, List.append_nil, List.append_nil]
    exact h
  | cons e es ih =>
    intro done replies s s' h hrun
    obtain ⟨t, ht, hrest⟩ := Runs.exec_cons.mp hrun
    obtain ⟨read, ends, hread, hends, hconv⟩ := h.step ht
    obtain ⟨read', hread', hconv'⟩ := ih hconv hrest
    refine ⟨read ++ read', ?_, ?_⟩
    · rw [arrivals_cons, ← List.append_assoc, hread, List.append_assoc, hread', List.append_assoc]
    · rw [hends, ← List.append_assoc, ← List.append_assoc]
      exact hconv'

end Relay

end Degoonification
