import Degoonification.Dns.Server
import Degoonification.Library.Runs

/-! `DnsServer::run_loop` as a step system with its two sockets. The loop is at
the top, or it waits for upstream on behalf of the client whose query it has just
forwarded; the wait takes whatever reply is first in the queue of `upstream_fd_`
and ends without one only when that queue is empty. Forwarded queries are numbered
so that a reply can name the query it answers; the code has no such number.

The waits of a run are sound exactly when each begins with an empty queue and the
first reply to arrive in it answers its query; then every relayed reply is the
answer to the query of its iteration. -/

namespace Degoonification

/-- A datagram on `upstream_fd_` and the forwarded query it answers. -/
structure Reply where
  answers : ℕ
  payload : Bytes
  deriving DecidableEq

/-- A datagram the loop sends to a client: a response of its own, or the reply it
takes in the wait for `query`. -/
inductive Sent (Client : Type) where
  | sinkhole (client : Client) (response : Bytes)
  | relay (client : Client) (query : ℕ) (reply : Reply)
  deriving DecidableEq

/-- A relayed reply answers the query of its iteration. -/
def Sent.Right {Client : Type} : Sent Client → Prop
  | .sinkhole _ _ => True
  | .relay _ query reply => reply.answers = query

structure Relay (Client : Type) where
  server : DnsServer
  /-- The datagrams on `server_fd_`, oldest first. -/
  clientQueue : List (Client × Bytes)
  /-- The client and query of the iteration that waits for upstream. -/
  waiting : Option (Client × ℕ)
  /-- The number of the next forwarded query. -/
  nextQuery : ℕ
  /-- The forwarded queries without a reply so far. -/
  inFlight : List ℕ
  /-- The datagrams on `upstream_fd_`, oldest first. -/
  upstreamQueue : List Reply
  sent : List (Sent Client)
  /-- What the loop has sent to the upstream server. -/
  sentUpstream : List Bytes

namespace Relay

variable {Client : Type}

def start (server : DnsServer) : Relay Client := ⟨server, [], none, 0, [], [], [], []⟩

inductive Event (Client : Type) where
  /-- A client's datagram reaches `server_fd_`. -/
  | arrive (client : Client) (datagram : Bytes)
  /-- The loop reads a datagram from `server_fd_`. -/
  | receive
  /-- The reply to a forwarded query reaches `upstream_fd_`. -/
  | reply (query : ℕ) (payload : Bytes)
  /-- The wait for upstream ends without a reply. -/
  | timeout
  /-- The wait for upstream ends with the oldest reply. -/
  | take

/-- One event, `none` when it is not possible. -/
def step (s : Relay Client) : Event Client → Option (Relay Client)
  | .arrive client datagram =>
    some { s with clientQueue := s.clientQueue ++ [(client, datagram)] }
  | .receive =>
    match s.waiting, s.clientQueue with
    | none, (client, datagram) :: rest =>
      let s' := { s with server := (s.server.receive datagram).1, clientQueue := rest }
      match (s.server.receive datagram).2 with
      | .drop => some s'
      | .sinkhole response => some { s' with sent := s.sent ++ [.sinkhole client response] }
      | .forward query =>
        some { s' with
          waiting := some (client, s.nextQuery)
          nextQuery := s.nextQuery + 1
          inFlight := s.inFlight ++ [s.nextQuery]
          sentUpstream := s.sentUpstream ++ [query] }
    | _, _ => none
  | .reply query payload =>
    if query ∈ s.inFlight then
      some { s with
        inFlight := s.inFlight.erase query
        upstreamQueue := s.upstreamQueue ++ [⟨query, payload⟩] }
    else none
  | .timeout =>
    match s.waiting, s.upstreamQueue with
    | some _, [] => some { s with waiting := none }
    | _, _ => none
  | .take =>
    match s.waiting, s.upstreamQueue with
    | some (client, query), reply :: rest =>
      let payload := reply.payload.take 2048
      some { s with
        waiting := none
        upstreamQueue := rest
        sent := if payload = [] then s.sent
          else s.sent ++ [.relay client query { reply with payload := payload }] }
    | _, _ => none

/-! ### What a step can do -/

/-- The steps, one case for each outcome. -/
inductive Step (s : Relay Client) : Event Client → Relay Client → Prop where
  | arrive (client : Client) (datagram : Bytes) :
      Step s (.arrive client datagram)
        { s with clientQueue := s.clientQueue ++ [(client, datagram)] }
  | drop {client : Client} {datagram : Bytes} {rest : List (Client × Bytes)}
      (hw : s.waiting = none) (hq : s.clientQueue = (client, datagram) :: rest)
      (ha : (s.server.receive datagram).2 = .drop) :
      Step s .receive { s with server := (s.server.receive datagram).1, clientQueue := rest }
  | sinkhole {client : Client} {datagram response : Bytes} {rest : List (Client × Bytes)}
      (hw : s.waiting = none) (hq : s.clientQueue = (client, datagram) :: rest)
      (ha : (s.server.receive datagram).2 = .sinkhole response) :
      Step s .receive { s with
        server := (s.server.receive datagram).1
        clientQueue := rest
        sent := s.sent ++ [.sinkhole client response] }
  | forward {client : Client} {datagram query : Bytes} {rest : List (Client × Bytes)}
      (hw : s.waiting = none) (hq : s.clientQueue = (client, datagram) :: rest)
      (ha : (s.server.receive datagram).2 = .forward query) :
      Step s .receive { s with
        server := (s.server.receive datagram).1
        clientQueue := rest
        waiting := some (client, s.nextQuery)
        nextQuery := s.nextQuery + 1
        inFlight := s.inFlight ++ [s.nextQuery]
        sentUpstream := s.sentUpstream ++ [query] }
  | reply {query : ℕ} (payload : Bytes) (hin : query ∈ s.inFlight) :
      Step s (.reply query payload) { s with
        inFlight := s.inFlight.erase query
        upstreamQueue := s.upstreamQueue ++ [⟨query, payload⟩] }
  | timeout {w : Client × ℕ} (hw : s.waiting = some w) (hq : s.upstreamQueue = []) :
      Step s .timeout { s with waiting := none }
  | take {client : Client} {query : ℕ} {r : Reply} {rest : List Reply}
      (hw : s.waiting = some (client, query)) (hq : s.upstreamQueue = r :: rest) :
      Step s .take { s with
        waiting := none
        upstreamQueue := rest
        sent := if r.payload.take 2048 = [] then s.sent
          else s.sent ++ [.relay client query { r with payload := r.payload.take 2048 }] }

theorem step_cases {s s' : Relay Client} {e : Event Client} (h : step s e = some s') :
    Step s e s' := by
  cases e with
  | arrive client datagram =>
    obtain rfl := Option.some.inj h
    exact .arrive client datagram
  | receive =>
    simp only [step] at h
    split at h
    · next hw hq =>
      split at h
      · next ha =>
        obtain rfl := Option.some.inj h
        exact .drop hw hq ha
      · next ha =>
        obtain rfl := Option.some.inj h
        exact .sinkhole hw hq ha
      · next ha =>
        obtain rfl := Option.some.inj h
        exact .forward hw hq ha
    · cases h
  | reply query payload =>
    simp only [step, Option.ite_none_right_eq_some] at h
    obtain ⟨hin, h⟩ := h
    obtain rfl := Option.some.inj h
    exact .reply payload hin
  | timeout =>
    simp only [step] at h
    split at h
    · next hw hq =>
      obtain rfl := Option.some.inj h
      exact .timeout hw hq
    · cases h
  | take =>
    simp only [step] at h
    split at h
    · next hw hq =>
      obtain rfl := Option.some.inj h
      exact .take hw hq
    · cases h

/-! ### Right and wrong replies -/

/-- The datagram the loop reads next is forwarded. -/
def forwards (s : Relay Client) : Bool :=
  match s.clientQueue with
  | [] => false
  | (_, datagram) :: _ =>
    match (s.server.receive datagram).2 with
    | .forward _ => true
    | _ => false

/-- A wait begins with an empty queue, and the first reply that arrives in it
answers its query. -/
def InOrder (s : Relay Client) : Event Client → Prop
  | .receive => s.forwards = true → s.upstreamQueue = []
  | .reply query _ => s.upstreamQueue = [] → ∀ w ∈ s.waiting, query = w.2
  | _ => True

instance (s : Relay Client) : (e : Event Client) → Decidable (s.InOrder e)
  | .receive => inferInstanceAs (Decidable (s.forwards = true → s.upstreamQueue = []))
  | .reply query _ =>
    inferInstanceAs (Decidable (s.upstreamQueue = [] → ∀ w ∈ s.waiting, query = w.2))
  | .arrive .. | .timeout | .take => .isTrue trivial

/-- While the loop waits, the first reply in the queue answers its query. -/
def HeadAnswers (s : Relay Client) : Prop :=
  ∀ w ∈ s.waiting, ∀ r ∈ s.upstreamQueue.head?, r.answers = w.2

/-- Replies and outstanding queries belong to queries forwarded before. -/
structure Numbered (s : Relay Client) : Prop where
  inFlight : ∀ query ∈ s.inFlight, query < s.nextQuery
  upstreamQueue : ∀ r ∈ s.upstreamQueue, r.answers < s.nextQuery

theorem numbered_step {s s' : Relay Client} {e : Event Client} (h : step s e = some s')
    (hs : s.Numbered) : s'.Numbered := by
  obtain ⟨hfl, huq⟩ := hs
  cases step_cases h with
  | arrive => exact ⟨hfl, huq⟩
  | drop => exact ⟨hfl, huq⟩
  | sinkhole => exact ⟨hfl, huq⟩
  | forward =>
    have hnew : s.nextQuery < s.nextQuery + 1 := Nat.lt_succ_self _
    exact ⟨List.forall_mem_append.mpr
      ⟨fun query hq => (hfl query hq).trans hnew, List.forall_mem_singleton.mpr hnew⟩,
      fun r hr => (huq r hr).trans hnew⟩
  | reply payload hin =>
    exact ⟨fun query hq => hfl query (List.mem_of_mem_erase hq),
      List.forall_mem_append.mpr ⟨huq, List.forall_mem_singleton.mpr (hfl _ hin)⟩⟩
  | timeout => exact ⟨hfl, huq⟩
  | take hw hq => exact ⟨hfl, fun r hr => huq r (hq ▸ List.mem_cons_of_mem _ hr)⟩

/-- A step from a state whose wait is sound meets the condition exactly if the
wait after it is sound. -/
theorem inOrder_iff_headAnswers {s s' : Relay Client} {e : Event Client}
    (h : step s e = some s') (hs : s.Numbered) (hhead : s.HeadAnswers) :
    s.InOrder e ↔ s'.HeadAnswers := by
  cases step_cases h with
  | arrive => exact iff_of_true trivial hhead
  | drop hw hq ha =>
    exact iff_of_true (by simp [InOrder, forwards, hq, ha]) (by simp [HeadAnswers, hw])
  | sinkhole hw hq ha =>
    exact iff_of_true (by simp [InOrder, forwards, hq, ha]) (by simp [HeadAnswers, hw])
  | forward hw hq ha =>
    have hf : s.forwards = true := by simp [forwards, hq, ha]
    simp only [InOrder, hf, forall_const, HeadAnswers, Option.mem_def, Option.some.injEq,
      forall_eq']
    constructor
    · intro hnil r hr
      simp [hnil] at hr
    · intro hans
      -- a reply left in the queue answers an older query
      cases huq : s.upstreamQueue with
      | nil => rfl
      | cons r rest =>
        have hlt := hs.upstreamQueue r (huq ▸ List.mem_cons_self)
        exact absurd (hans r (by rw [huq]; rfl)) hlt.ne
  | reply payload hin =>
    cases huq : s.upstreamQueue with
    | nil => simp [InOrder, HeadAnswers, huq]
    | cons r rest =>
      refine iff_of_true (by simp [InOrder, huq]) fun w hw r' hr' => hhead w hw r' ?_
      simpa [huq] using hr'
  | timeout => exact iff_of_true trivial (by simp [HeadAnswers])
  | take => exact iff_of_true trivial (by simp [HeadAnswers])

theorem right_step {s s' : Relay Client} {e : Event Client} (h : step s e = some s')
    (hhead : s.HeadAnswers) (hright : ∀ o ∈ s.sent, o.Right) : ∀ o ∈ s'.sent, o.Right := by
  cases step_cases h with
  | arrive => exact hright
  | drop => exact hright
  | sinkhole => exact List.forall_mem_append.mpr ⟨hright, List.forall_mem_singleton.mpr trivial⟩
  | forward => exact hright
  | reply => exact hright
  | timeout => exact hright
  | @take _ query r _ hw hq =>
    have hans : r.answers = query := hhead _ hw r (by rw [hq]; rfl)
    dsimp only
    split_ifs with hempty
    · exact hright
    · exact List.forall_mem_append.mpr ⟨hright, List.forall_mem_singleton.mpr hans⟩

/-! ### Runs -/

theorem numbered_start (server : DnsServer) : (start server : Relay Client).Numbered :=
  ⟨fun _ h => absurd h List.not_mem_nil, fun _ h => absurd h List.not_mem_nil⟩

theorem headAnswers_start (server : DnsServer) : (start server : Relay Client).HeadAnswers :=
  fun _ h => nomatch h

/-- The steps of a run meet the condition exactly if all its waits are sound. -/
theorem along_inOrder_iff (server : DnsServer) (es : List (Event Client)) :
    Runs.Along step InOrder (start server) es ↔ Runs.Always step HeadAnswers (start server) es :=
  Runs.along_iff_always (fun _ _ _ => numbered_step) (fun _ _ _ => inOrder_iff_headAnswers)
    (numbered_start server) (headAnswers_start server)

/-- An unsound wait can only end with a reply to another query. -/
theorem exists_take_wrong {s : Relay Client} {client : Client} {query : ℕ} {r : Reply}
    {rest : List Reply} (hw : s.waiting = some (client, query))
    (hq : s.upstreamQueue = r :: rest) (hne : r.answers ≠ query)
    (hpayload : r.payload ≠ []) :
    step s .timeout = none ∧ ∃ s', step s .take = some s' ∧ ∃ o ∈ s'.sent, ¬ o.Right := by
  refine ⟨by simp [step, hw, hq], _, by simp [step, hw, hq]; rfl, ?_⟩
  exact ⟨.relay client query { r with payload := r.payload.take 2048 },
    by simp [hpayload], hne⟩

/-- In a run whose steps all meet the condition every reply reaches the client
whose query it answers. -/
theorem right_of_inOrder (server : DnsServer) (es : List (Event Client)) (s : Relay Client)
    (hes : Runs.Along step InOrder (start server) es)
    (h : Runs.exec step (start server) es = some s) : ∀ o ∈ s.sent, o.Right := by
  have hinv : s.Numbered ∧ s.HeadAnswers ∧ ∀ o ∈ s.sent, o.Right := by
    refine hes.exec_invariant (I := fun s => s.Numbered ∧ s.HeadAnswers ∧ ∀ o ∈ s.sent, o.Right)
      ?_ ⟨numbered_start server, headAnswers_start server, fun _ ho => nomatch ho⟩ h
    rintro s e s' hstep hC ⟨hnum, hhead, hright⟩
    exact ⟨numbered_step hstep hnum, (inOrder_iff_headAnswers hstep hnum hhead).mp hC,
      right_step hstep hhead hright⟩
  exact hinv.2.2

/-- A server that blocks nothing. -/
def openServer : DnsServer := .init 718880 10 none true

/-- The question for `A` at `a`. -/
def question : Bytes := [0x12, 0x34, 1, 0, 0, 1, 0, 0, 0, 0, 0, 0, 1, 97, 0, 0, 1, 0, 1]

/-- One client asks twice and is answered in time both times. -/
theorem right_of_inOrder_two_queries :
    ∃ s : Relay ℕ, Runs.exec step (start openServer) [.arrive 7 question, .arrive 7 question,
        .receive, .reply 0 [1], .take, .receive, .reply 1 [2], .take] = some s ∧
      s.sent = [.relay 7 0 ⟨0, [1]⟩, .relay 7 1 ⟨1, [2]⟩] ∧ ∀ o ∈ s.sent, o.Right := by
  have hsent : (Runs.exec step (start openServer) [.arrive 7 question, .arrive 7 question,
      .receive, .reply 0 [1], .take, .receive, .reply 1 [2], .take]).map Relay.sent =
        some [.relay 7 0 ⟨0, [1]⟩, .relay 7 1 ⟨1, [2]⟩] := by decide +kernel
  obtain ⟨s, hs, hsent⟩ := Option.map_eq_some_iff.mp hsent
  exact ⟨s, hs, hsent, right_of_inOrder openServer _ s (by decide +kernel) hs⟩

/-- Client 7 asks and times out, its answer arrives late, and client 8, who asks
next, gets it. -/
theorem late_reply_to_other_client :
    ∃ s : Relay ℕ, Runs.exec step (start openServer) [.arrive 7 question, .receive, .timeout,
        .reply 0 [1], .arrive 8 question, .receive, .take] = some s ∧
      s.sent = [.relay 8 1 ⟨0, [1]⟩] ∧ ¬ ∀ o ∈ s.sent, o.Right := by
  have hsent : (Runs.exec step (start openServer) [.arrive 7 question, .receive, .timeout,
      .reply 0 [1], .arrive 8 question, .receive, .take]).map Relay.sent =
        some [.relay (8 : ℕ) 1 ⟨0, [1]⟩] := by decide +kernel
  obtain ⟨s, hs, hsent⟩ := Option.map_eq_some_iff.mp hsent
  refine ⟨s, hs, hsent, fun hright => ?_⟩
  have hwrong : (0 : ℕ) = 1 := hright (.relay 8 1 ⟨0, [1]⟩) (hsent ▸ List.mem_singleton_self _)
  cases hwrong

end Relay

end Degoonification
