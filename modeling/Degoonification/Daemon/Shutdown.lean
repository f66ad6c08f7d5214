import Degoonification.Boxes.BoundingBox
import Degoonification.Dns.Lifecycle

/-! `main` of the daemon from its start to its return, with the detector thread and the
thread of the DNS server beside it, in any interleaving and with a signal at any
point. A signal or a `STOP` request only lowers a flag; the threads have to come to
their tests of it, and `main` to their ends. A client whose connection `main` has
accepted is waited for, however long it takes to say something or to hang up. What the
loops do in between is left open. -/

namespace Degoonification

open DnsServer (Service)

/-- Where `main` stands: before the two servers and the thread are started, at the parts
of the main loop, with `serving` in the `read` from an accepted client, and before the
parts of the shutdown. -/
inductive MainStage where
  | ipcInit | dnsInit | dnsStart | launch
  | test | requests | serving | render
  | lower | join | dnsStop | dnsStopping | ipcStop | clear | returned
deriving DecidableEq

/-- Where the detector thread stands: before it is made, at the condition of its loop, at
the test of the pause flag, in `capture_frame`, in the analysis, and before the sleep. -/
inductive DetectorStage where
  | unborn | test | branch | capturing | analysing | resting | finished
deriving DecidableEq

/-- What a client asks for; `other` changes neither flag nor screen, and so does a
client that hangs up. -/
inductive Request where
  | pause | stop | other
deriving DecidableEq

/-- The steps of `main`, of the detector, and of the DNS server's two sides. A signal
comes from outside, and so does what the accepted client says. -/
inductive LifeEvent where
  | signal
  | heard (r : Request)
  | ipcInit (ok : Bool)
  | launch | test
  | pending (accepted : Bool)
  | serve
  | render (boxes : Option (List BoundingBox))
  | lower | join | ipcStop | clear
  | testWorker
  | branch (capture : Bool)
  | capture (ok : Bool)
  | publish | rest
  | dns (e : DnsServer.Event)

/-- The steps the thread takes at most once the flag is down. -/
def DetectorStage.remaining : DetectorStage → ℕ
  | .unborn | .finished => 0
  | .test => 1
  | .resting => 2
  | .analysing => 3
  | .capturing => 4
  | .branch => 5

/-- The same for `main`, with room for what it starts and for the DNS server's `stop`. -/
def MainStage.remaining : MainStage → ℕ
  | .returned => 0
  | .clear => 1
  | .ipcStop | .dnsStopping => 2
  | .dnsStop => 11
  | .join => 12
  | .lower => 13
  | .test => 14
  | .render => 15
  | .serving => 16
  | .requests => 17
  | .launch => 18
  | .dnsStart => 19
  | .dnsInit => 20
  | .ipcInit => 21

/-- A step of `main` or of the detector. -/
def LifeEvent.ours : LifeEvent → Bool
  | .signal | .heard _ => false
  | .dns e => e.isMain
  | _ => true

structure Lifetime where
  gRunning : Bool := true
  workerRunning : Bool := true
  main : MainStage := .ipcInit
  detector : DetectorStage := .unborn
  dns : Service := {}
  ipcOpen : Bool := false
  /-- What the client that `main` reads from has said. -/
  said : Option Request := none
  /-- The boxes of the last call of `render_boxes`. -/
  shown : List BoundingBox := []

namespace Lifetime

/-- Where a step of the DNS server that `main` makes leads it. -/
def afterDns (stage : MainStage) (e : DnsServer.Event) (dns : Service) : Option MainStage :=
  match stage, e with
  | .dnsInit, .init (.ready _) => some .dnsStart
  | .dnsInit, .init _ => some .launch
  | .dnsStart, .start => some .launch
  | .dnsStop, .stop | .dnsStopping, .join | .dnsStopping, .closeServer
  | .dnsStopping, .closeUpstream => some (if dns.main = .free then .ipcStop else .dnsStopping)
  | _, _ => none

def mainStep (s : Lifetime) : LifeEvent → Option Lifetime
  | .ipcInit ok =>
    if s.main = .ipcInit then some { s with ipcOpen := ok, main := .dnsInit } else none
  | .launch => if s.main = .launch then some { s with detector := .test, main := .test } else none
  | .test =>
    if s.main = .test then some { s with main := if s.gRunning then .requests else .lower }
    else none
  | .pending accepted =>
    if s.main = .requests then
      if s.ipcOpen ∧ accepted then some { s with said := none, main := .serving }
      else some { s with main := .render }
    else none
  | .serve =>
    if s.main = .serving then
      match s.said with
      | none => none
      | some .pause => some { s with shown := [], main := .render }
      | some .stop => some { s with gRunning := false, main := .render }
      | some .other => some { s with main := .render }
    else none
  | .render boxes =>
    if s.main = .render then some { s with shown := boxes.getD s.shown, main := .test } else none
  | .lower =>
    if s.main = .lower then some { s with workerRunning := false, main := .join } else none
  | .join =>
    if s.main = .join ∧ s.detector = .finished then some { s with main := .dnsStop } else none
  | .ipcStop => if s.main = .ipcStop then some { s with ipcOpen := false, main := .clear } else none
  | .clear => if s.main = .clear then some { s with shown := [], main := .returned } else none
  | .dns e => do
    let dns ← s.dns.mainStep e
    let main ← afterDns s.main e dns
    some { s with dns, main }
  | _ => none

def detectorStep (s : Lifetime) : LifeEvent → Option Lifetime
  | .testWorker =>
    if s.detector = .test then
      some { s with detector := if s.workerRunning ∧ s.gRunning then .branch else .finished }
    else none
  | .branch capture =>
    if s.detector = .branch then
      some { s with detector := if capture then .capturing else .resting }
    else none
  | .capture ok =>
    if s.detector = .capturing then
      some { s with detector := if ok then .analysing else .resting }
    else none
  | .publish => if s.detector = .analysing then some { s with detector := .resting } else none
  | .rest => if s.detector = .resting then some { s with detector := .test } else none
  | _ => none

/-- A signal, a word of the accepted client, or a step of one of the three threads. -/
def step (s : Lifetime) (e : LifeEvent) : Option Lifetime :=
  match e with
  | .signal => some { s with gRunning := false }
  | .heard r =>
    if s.main = .serving ∧ s.said = none then some { s with said := some r } else none
  | .dns d => (s.mainStep e).or ((s.dns.workerStep d).map fun dns => { s with dns })
  | _ => (s.mainStep e).or (s.detectorStep e)

/-! ### What a step can do -/

/-- The steps of `main`, one case for each outcome. -/
inductive Main (s : Lifetime) : LifeEvent → Lifetime → Prop where
  | ipcInit (hmain : s.main = .ipcInit) (ok : Bool) :
      Main s (.ipcInit ok) { s with ipcOpen := ok, main := .dnsInit }
  | launch (hmain : s.main = .launch) :
      Main s .launch { s with detector := .test, main := .test }
  | again (hmain : s.main = .test) (hrun : s.gRunning = true) :
      Main s .test { s with main := .requests }
  | leave (hmain : s.main = .test) (hrun : s.gRunning = false) :
      Main s .test { s with main := .lower }
  | accept (hmain : s.main = .requests) (accepted : Bool) (hopen : s.ipcOpen = true) :
      Main s (.pending accepted) { s with said := none, main := .serving }
  | pass (hmain : s.main = .requests) (accepted : Bool) :
      Main s (.pending accepted) { s with main := .render }
  | pause (hmain : s.main = .serving) (hsaid : s.said = some .pause) :
      Main s .serve { s with shown := [], main := .render }
  | stop (hmain : s.main = .serving) (hsaid : s.said = some .stop) :
      Main s .serve { s with gRunning := false, main := .render }
  | other (hmain : s.main = .serving) (hsaid : s.said = some .other) :
      Main s .serve { s with main := .render }
  | render (hmain : s.main = .render) (boxes : Option (List BoundingBox)) :
      Main s (.render boxes) { s with shown := boxes.getD s.shown, main := .test }
  | lower (hmain : s.main = .lower) : Main s .lower { s with workerRunning := false, main := .join }
  | join (hmain : s.main = .join) (hfinished : s.detector = .finished) :
      Main s .join { s with main := .dnsStop }
  | dns {e : DnsServer.Event} {dns : Service} {main : MainStage}
      (hdns : s.dns.mainStep e = some dns) (hmain : afterDns s.main e dns = some main) :
      Main s (.dns e) { s with dns, main }
  | ipcStop (hmain : s.main = .ipcStop) :
      Main s .ipcStop { s with ipcOpen := false, main := .clear }
  | clear (hmain : s.main = .clear) : Main s .clear { s with shown := [], main := .returned }

theorem mainStep_cases {s s' : Lifetime} {e : LifeEvent} (h : s.mainStep e = some s') :
    s.Main e s' := by
  unfold mainStep at h
  split at h
  case h_1 ok =>
    obtain ⟨hmain, h⟩ := Option.ite_none_right_eq_some.mp h
    exact Option.some.inj h ▸ .ipcInit hmain ok
  case h_2 =>
    obtain ⟨hmain, h⟩ := Option.ite_none_right_eq_some.mp h
    exact Option.some.inj h ▸ .launch hmain
  case h_3 =>
    obtain ⟨hmain, h⟩ := Option.ite_none_right_eq_some.mp h
    cases hrun : s.gRunning with
    | true =>
      rw [hrun, if_pos rfl] at h
      exact Option.some.inj h ▸ hrun ▸ .again hmain hrun
    | false =>
      rw [hrun, if_neg Bool.false_ne_true] at h
      exact Option.some.inj h ▸ hrun ▸ .leave hmain hrun
  case h_4 accepted =>
    obtain ⟨hmain, h⟩ := Option.ite_none_right_eq_some.mp h
    split_ifs at h with haccept
    · exact Option.some.inj h ▸ .accept hmain accepted haccept.1
    · exact Option.some.inj h ▸ .pass hmain accepted
  case h_5 =>
    obtain ⟨hmain, h⟩ := Option.ite_none_right_eq_some.mp h
    split at h
    · cases h
    · next hsaid => exact Option.some.inj h ▸ .pause hmain hsaid
    · next hsaid => exact Option.some.inj h ▸ .stop hmain hsaid
    · next hsaid => exact Option.some.inj h ▸ .other hmain hsaid
  case h_6 boxes =>
    obtain ⟨hmain, h⟩ := Option.ite_none_right_eq_some.mp h
    exact Option.some.inj h ▸ .render hmain boxes
  case h_7 =>
    obtain ⟨hmain, h⟩ := Option.ite_none_right_eq_some.mp h
    exact Option.some.inj h ▸ .lower hmain
  case h_8 =>
    obtain ⟨⟨hmain, hfinished⟩, h⟩ := Option.ite_none_right_eq_some.mp h
    exact Option.some.inj h ▸ .join hmain hfinished
  case h_9 =>
    obtain ⟨hmain, h⟩ := Option.ite_none_right_eq_some.mp h
    exact Option.some.inj h ▸ .ipcStop hmain
  case h_10 =>
    obtain ⟨hmain, h⟩ := Option.ite_none_right_eq_some.mp h
    exact Option.some.inj h ▸ .clear hmain
  case h_11 =>
    obtain ⟨dns, hdns, h⟩ := Option.bind_eq_some_iff.mp h
    obtain ⟨main, hmain, h⟩ := Option.bind_eq_some_iff.mp h
    exact Option.some.inj h ▸ .dns hdns hmain
  case h_12 => cases h

/-- The ways from a stage of the detector to the next one. -/
inductive Detect (s : Lifetime) : DetectorStage → DetectorStage → Prop where
  | again (hrun : s.gRunning = true) : Detect s .test .branch
  | leaves : Detect s .test .finished
  | chooses : Detect s .branch .capturing
  | skips : Detect s .branch .resting
  | captures : Detect s .capturing .analysing
  | misses : Detect s .capturing .resting
  | publishes : Detect s .analysing .resting
  | rests : Detect s .resting .test

theorem detectorStep_cases {s s' : Lifetime} {e : LifeEvent} (h : s.detectorStep e = some s') :
    ∃ d, s.Detect s.detector d ∧ s' = { s with detector := d } := by
  unfold detectorStep at h
  split at h
  case h_1 =>
    obtain ⟨hstage, h⟩ := Option.ite_none_right_eq_some.mp h
    refine ⟨_, ?_, (Option.some.inj h).symm⟩
    rw [hstage]
    split_ifs with hrun
    · exact .again hrun.2
    · exact .leaves
  case h_2 =>
    obtain ⟨hstage, h⟩ := Option.ite_none_right_eq_some.mp h
    refine ⟨_, ?_, (Option.some.inj h).symm⟩
    rw [hstage]
    split_ifs
    · exact .chooses
    · exact .skips
  case h_3 =>
    obtain ⟨hstage, h⟩ := Option.ite_none_right_eq_some.mp h
    refine ⟨_, ?_, (Option.some.inj h).symm⟩
    rw [hstage]
    split_ifs
    · exact .captures
    · exact .misses
  case h_4 =>
    obtain ⟨hstage, h⟩ := Option.ite_none_right_eq_some.mp h
    exact ⟨_, hstage ▸ .publishes, (Option.some.inj h).symm⟩
  case h_5 =>
    obtain ⟨hstage, h⟩ := Option.ite_none_right_eq_some.mp h
    exact ⟨_, hstage ▸ .rests, (Option.some.inj h).symm⟩
  case h_6 => cases h

/-- Whose step it is. -/
theorem step_cases {s s' : Lifetime} {e : LifeEvent} (h : s.step e = some s') :
    (e = .signal ∧ s' = { s with gRunning := false }) ∨
      (∃ r, e = .heard r ∧ s' = { s with said := some r }) ∨ s.Main e s' ∨
      (∃ d, s.Detect s.detector d ∧ s' = { s with detector := d }) ∨
      ∃ d dns, e = .dns d ∧ s.dns.workerStep d = some dns ∧ s' = { s with dns } := by
  unfold step at h
  split at h
  · exact .inl ⟨rfl, (Option.some.inj h).symm⟩
  · obtain ⟨-, h⟩ := Option.ite_none_right_eq_some.mp h
    exact .inr (.inl ⟨_, rfl, (Option.some.inj h).symm⟩)
  · next d =>
    rcases Option.or_eq_some_iff.mp h with h | ⟨-, h⟩
    · exact .inr (.inr (.inl (mainStep_cases h)))
    · obtain ⟨dns, hdns, rfl⟩ := Option.map_eq_some_iff.mp h
      exact .inr (.inr (.inr (.inr ⟨d, dns, rfl, hdns, rfl⟩)))
  · rcases Option.or_eq_some_iff.mp h with h | ⟨-, h⟩
    · exact .inr (.inr (.inl (mainStep_cases h)))
    · exact .inr (.inr (.inr (.inl (detectorStep_cases h))))

/-! ### What holds in every run -/

/-- What `main` knows of the DNS server at each stage. -/
def DnsFits (dns : Service) : MainStage → Prop
  | .ipcInit | .dnsInit => dns.main = .free ∧ dns.fds.held .server = none
  | .dnsStart => dns.main = .free
  | .launch | .test | .requests | .serving | .render | .lower | .join | .dnsStop =>
    dns.main = .free ∧ (dns.fds.held .server ≠ none → dns.isRunning = true)
  | .dnsStopping =>
    dns.main ≠ .free ∧ (dns.main = .closingUpstream → dns.fds.held .server = none)
  | .ipcStop | .clear | .returned => dns.main = .free ∧ dns.fds.held .server = none

/-- What it knows of the rest. -/
def RestFits (s : Lifetime) : MainStage → Prop
  | .ipcInit | .dnsInit | .dnsStart | .launch => True
  | .test | .requests | .serving | .render => s.detector ≠ .unborn
  | .lower | .join => s.gRunning = false ∧ s.detector ≠ .unborn
  | .dnsStop | .dnsStopping | .ipcStop => s.gRunning = false ∧ s.detector = .finished
  | .clear => s.gRunning = false ∧ s.detector = .finished ∧ s.ipcOpen = false
  | .returned =>
    s.gRunning = false ∧ s.detector = .finished ∧ s.ipcOpen = false ∧ s.shown = []

structure Fits (s : Lifetime) : Prop where
  shape : s.dns.Shape
  tended : s.dns.Tended
  dns : DnsFits s.dns s.main
  rest : s.RestFits s.main

theorem fits_start : Fits {} :=
  ⟨Service.shape_start, Service.tended_start, ⟨rfl, rfl⟩, trivial⟩

/-- A signal changes nothing that `main` relies on. -/
theorem Fits.signal {s : Lifetime} (h : s.Fits) : Fits { s with gRunning := false } := by
  refine ⟨h.shape, h.tended, h.dns, ?_⟩
  have hrest := h.rest
  show RestFits _ s.main
  cases hmain : s.main with
  | ipcInit | dnsInit | dnsStart | launch => trivial
  | test | requests | serving | render =>
    rw [hmain] at hrest
    exact hrest
  | lower | join | dnsStop | dnsStopping | ipcStop | clear | returned =>
    rw [hmain] at hrest
    exact ⟨rfl, hrest.2⟩

/-- A detector that goes on was made, and has not come to its end. -/
theorem Fits.detect {s : Lifetime} (h : s.Fits) {d : DetectorStage} (hd : s.Detect s.detector d) :
    Fits { s with detector := d } := by
  refine ⟨h.shape, h.tended, h.dns, ?_⟩
  have hrest := h.rest
  have hborn : ∀ {a}, s.Detect a d → d ≠ .unborn := fun hd => by cases hd <;> nofun
  have hgoes : s.detector ≠ .finished := by
    intro hfinished
    rw [hfinished] at hd
    cases hd
  show RestFits _ s.main
  cases hmain : s.main with
  | ipcInit | dnsInit | dnsStart | launch => trivial
  | test | requests | serving | render => exact hborn hd
  | lower | join =>
    rw [hmain] at hrest
    exact ⟨hrest.1, hborn hd⟩
  | dnsStop | dnsStopping | ipcStop =>
    rw [hmain] at hrest
    exact absurd hrest.2 hgoes
  | clear | returned =>
    rw [hmain] at hrest
    exact absurd hrest.2.1 hgoes

/-- The worker of the DNS server leaves alone what `main` relies on. -/
theorem Fits.worker {s : Lifetime} (h : s.Fits) {e : DnsServer.Event} {dns : Service}
    (hdns : s.dns.workerStep e = some dns) : Fits { s with dns } := by
  refine ⟨h.shape.workerStep hdns, h.tended.workerStep hdns, ?_, h.rest⟩
  have hdnsFits := h.dns
  rcases Service.workerStep_cases hdns with ⟨-, -, rfl⟩ | ⟨-, -, -, -, -, rfl⟩ <;>
  · show DnsFits _ s.main
    cases hmain : s.main <;>
    · rw [hmain] at hdnsFits
      exact hdnsFits

/-- The stages between which a step of the DNS server leads `main`. -/
inductive AfterDns (dns : Service) : MainStage → DnsServer.Event → MainStage → Prop where
  | ready (upstream : Bool) : AfterDns dns .dnsInit (.init (.ready upstream)) .dnsStart
  | noSocket : AfterDns dns .dnsInit (.init .noSocket) .launch
  | notBound : AfterDns dns .dnsInit (.init .notBound) .launch
  | started : AfterDns dns .dnsStart .start .launch
  | stop : AfterDns dns .dnsStop .stop (if dns.main = .free then .ipcStop else .dnsStopping)
  | stopping {e : DnsServer.Event} (he : e = .join ∨ e = .closeServer ∨ e = .closeUpstream) :
      AfterDns dns .dnsStopping e (if dns.main = .free then .ipcStop else .dnsStopping)

theorem afterDns_cases {stage next : MainStage} {e : DnsServer.Event} {dns : Service}
    (h : afterDns stage e dns = some next) : AfterDns dns stage e next := by
  unfold afterDns at h
  split at h
  case h_1 => exact Option.some.inj h ▸ .ready _
  case h_2 =>
    next r hr =>
    cases r with
    | noSocket => exact Option.some.inj h ▸ .noSocket
    | notBound => exact Option.some.inj h ▸ .notBound
    | ready upstream => exact absurd rfl (hr upstream)
  case h_3 => exact Option.some.inj h ▸ .started
  case h_4 => exact Option.some.inj h ▸ .stop
  case h_5 => exact Option.some.inj h ▸ .stopping (.inl rfl)
  case h_6 => exact Option.some.inj h ▸ .stopping (.inr (.inl rfl))
  case h_7 => exact Option.some.inj h ▸ .stopping (.inr (.inr rfl))
  case h_8 => cases h

/-- `main` initialises the DNS server once, so the server is tended. -/
theorem tended_of_afterDns {dns dns' : Service} {stage next : MainStage} {e : DnsServer.Event}
    (hstep : dns.mainStep e = some dns') (hafter : AfterDns dns' stage e next)
    (hshape : dns.Shape) (htended : dns.Tended) (hfits : DnsFits dns stage) : dns'.Tended := by
  have hvacant : dns.Vacant e := by
    cases hafter with
    | ready | noSocket | notBound => exact hfits.2
    | started | stop => trivial
    | stopping he => rcases he with rfl | rfl | rfl <;> trivial
  have hall : dns.step e = some dns' := by rw [Service.step, hstep, Option.some_or]
  exact (Service.vacant_iff_tended hall hshape htended).mp hvacant

theorem dnsFits_of_afterDns {dns dns' : Service} {stage next : MainStage} {e : DnsServer.Event}
    (hstep : dns.mainStep e = some dns') (hafter : AfterDns dns' stage e next)
    (hfits : DnsFits dns stage) : DnsFits dns' next := by
  cases hafter with
  | ready =>
    cases Service.mainStep_cases hstep
    assumption
  | noSocket =>
    cases Service.mainStep_cases hstep with
    | init hfree => exact ⟨hfree, fun hne => absurd (Slots.held_forget_self ..) hne⟩
  | notBound =>
    cases Service.mainStep_cases hstep with
    | init hfree =>
      have hnone := Slots.held_release_self (dns.fds.acquire .server) .server
      exact ⟨hfree, fun hne => absurd hnone hne⟩
  | started =>
    cases Service.mainStep_cases hstep with
    | start hfree => exact ⟨hfree, fun _ => rfl⟩
    | notStarted hfree hguard => exact ⟨hfree, fun hne => hguard.resolve_left hne⟩
  | stop =>
    cases Service.mainStep_cases hstep with
    | stop => exact ⟨nofun, nofun⟩
    | notStopped hfree hrun =>
      rw [if_pos hfree]
      refine ⟨hfree, ?_⟩
      by_contra hne
      exact absurd (hrun.symm.trans (hfits.2 hne)) nofun
  | stopping he =>
    rcases he with rfl | rfl | rfl
    · cases Service.mainStep_cases hstep
      exact ⟨nofun, nofun⟩
    · cases Service.mainStep_cases hstep
      exact ⟨nofun, fun _ => Slots.held_release_self ..⟩
    · cases Service.mainStep_cases hstep with
      | closeUpstream hclose =>
        refine ⟨rfl, ?_⟩
        have hne : DnsServer.Descriptor.server ≠ .upstream := nofun
        exact (Slots.held_release_of_ne dns.fds hne).trans (hfits.2 hclose)

theorem restFits_of_afterDns {s : Lifetime} {dns : Service} {next : MainStage}
    {e : DnsServer.Event} (hafter : AfterDns dns s.main e next) (hrest : s.RestFits s.main) :
    s.RestFits next := by
  generalize s.main = stage at hafter hrest
  cases hafter with
  | ready | noSocket | notBound | started => trivial
  | stop | stopping => split_ifs <;> exact hrest

theorem fits_step {s s' : Lifetime} {e : LifeEvent} (hstep : s.step e = some s') (h : s.Fits) :
    s'.Fits := by
  rcases step_cases hstep with ⟨-, rfl⟩ | ⟨r, -, rfl⟩ | hmain | ⟨d, hd, rfl⟩ |
    ⟨d, dns, -, hdns, rfl⟩
  · exact h.signal
  · exact ⟨h.shape, h.tended, h.dns, h.rest⟩
  · obtain ⟨hshape, htended, hdns, hrest⟩ := h
    cases hmain with
    | dns hserver hnext =>
      have hafter := afterDns_cases hnext
      have hrest' := restFits_of_afterDns hafter hrest
      exact ⟨hshape.mainStep hserver, tended_of_afterDns hserver hafter hshape htended hdns,
        dnsFits_of_afterDns hserver hafter hdns, hrest'⟩
    | ipcInit hmain | again hmain | accept hmain | pass hmain | pause hmain | stop hmain
    | other hmain | render hmain =>
      rw [hmain] at hdns hrest
      exact ⟨hshape, htended, hdns, hrest⟩
    | launch hmain =>
      rw [hmain] at hdns
      exact ⟨hshape, htended, hdns, nofun⟩
    | leave hmain hrun =>
      rw [hmain] at hdns hrest
      exact ⟨hshape, htended, hdns, hrun, hrest⟩
    | lower hmain =>
      rw [hmain] at hdns hrest
      exact ⟨hshape, htended, hdns, hrest⟩
    | join hmain hfinished =>
      rw [hmain] at hdns hrest
      exact ⟨hshape, htended, hdns, hrest.1, hfinished⟩
    | ipcStop hmain =>
      rw [hmain] at hdns hrest
      exact ⟨hshape, htended, hdns, hrest.1, hrest.2, rfl⟩
    | clear hmain =>
      rw [hmain] at hdns hrest
      exact ⟨hshape, htended, hdns, hrest.1, hrest.2.1, hrest.2.2, rfl⟩
  · exact h.detect hd
  · exact h.worker hdns

/-! ### The way to the end -/

/-- The steps before `main` returns, once the flag is down. -/
def remaining (s : Lifetime) : ℕ :=
  s.main.remaining + s.dns.remaining + s.detector.remaining

theorem Fits.dns_free {s : Lifetime} (h : s.Fits) (hmain : s.main ≠ .dnsStopping) :
    s.dns.main = .free := by
  have hdns := h.dns
  cases hm : s.main with
  | dnsStopping => exact absurd hm hmain
  | dnsStart =>
    rw [hm] at hdns
    exact hdns
  | _ =>
    rw [hm] at hdns
    exact hdns.1

theorem dns_remaining_of_free {dns : Service} (h : dns.main = .free) : dns.remaining = 0 := by
  simp [Service.remaining, h]

/-- The steps of `main` that concern the DNS server. -/
theorem afterDns_remaining {dns dns' : Service} {stage next : MainStage} {e : DnsServer.Event}
    (hstep : dns.mainStep e = some dns') (hafter : AfterDns dns' stage e next)
    (hfits : DnsFits dns stage) :
    next.remaining + dns'.remaining < stage.remaining + dns.remaining := by
  have hfits' := dnsFits_of_afterDns hstep hafter hfits
  cases hafter with
  | ready =>
    rw [dns_remaining_of_free hfits', dns_remaining_of_free hfits.1]
    decide
  | noSocket | notBound =>
    rw [dns_remaining_of_free hfits'.1, dns_remaining_of_free hfits.1]
    decide
  | started =>
    rw [dns_remaining_of_free hfits'.1, dns_remaining_of_free hfits]
    decide
  | stop =>
    rw [dns_remaining_of_free hfits.1]
    have hmost := dns'.remaining_le
    split_ifs with hfree
    · rw [dns_remaining_of_free hfree]
      decide
    · simp only [MainStage.remaining]
      omega
  | stopping he =>
    have hlt := Service.mainStep_remaining hstep hfits.1
    split_ifs with hfree <;> simp only [MainStage.remaining] <;> omega

theorem detect_remaining {s : Lifetime} {a b : DetectorStage} (h : s.Detect a b)
    (hdown : s.gRunning = false) : b.remaining < a.remaining := by
  cases h with
  | again hrun => exact absurd (hdown.symm.trans hrun) nofun
  | _ => decide

/-- Once the flag is down it stays down, and no step leads away from the end: those of
`main` and of the detector lead to it. -/
theorem step_remaining {s s' : Lifetime} {e : LifeEvent} (hstep : s.step e = some s')
    (h : s.Fits) (hdown : s.gRunning = false) :
    s'.gRunning = false ∧ s'.remaining ≤ s.remaining ∧
      (e.ours = true → s'.remaining < s.remaining) := by
  have hours : ∀ {s' : Lifetime}, s'.gRunning = false → s'.remaining < s.remaining →
      s'.gRunning = false ∧ s'.remaining ≤ s.remaining ∧
        (e.ours = true → s'.remaining < s.remaining) :=
    fun hdown' hlt => ⟨hdown', hlt.le, fun _ => hlt⟩
  rcases step_cases hstep with ⟨rfl, rfl⟩ | ⟨r, rfl, rfl⟩ | hmain | ⟨d, hd, rfl⟩ |
    ⟨d, dns, rfl, hdns, rfl⟩
  · exact ⟨rfl, le_rfl, nofun⟩
  · exact ⟨hdown, le_rfl, nofun⟩
  · cases hmain with
    | again hmain hrun => exact absurd (hdown.symm.trans hrun) nofun
    | dns hserver hnext =>
      refine hours hdown (Nat.add_lt_add_right ?_ _)
      exact afterDns_remaining hserver (afterDns_cases hnext) h.dns
    | stop hmain =>
      refine hours rfl ?_
      simp [remaining, hmain, MainStage.remaining]
    | launch hmain =>
      refine hours hdown ?_
      simp only [remaining, hmain, MainStage.remaining, DetectorStage.remaining]
      omega
    | ipcInit hmain | leave hmain | accept hmain | pass hmain | pause hmain | other hmain
    | render hmain | lower hmain | join hmain | ipcStop hmain | clear hmain =>
      refine hours hdown ?_
      simp [remaining, hmain, MainStage.remaining]
  · refine hours hdown (Nat.add_lt_add_left ?_ _)
    exact detect_remaining hd hdown
  · have hmain := Service.not_isMain_of_workerStep hdns
    refine ⟨hdown, ?_, fun hd => absurd (hmain.symm.trans hd) nofun⟩
    have hle : dns.remaining ≤ s.dns.remaining := by
      by_cases hfree : s.dns.main = .free
      · rw [dns_remaining_of_free ((Service.workerStep_main hdns).trans hfree)]
        exact Nat.zero_le _
      · exact (Service.workerStep_remaining_of_inside hdns h.shape hfree).le
    simpa [remaining] using hle

theorem exists_detectorStep {s : Lifetime} (hborn : s.detector ≠ .unborn)
    (hgoes : s.detector ≠ .finished) : ∃ e, e.ours = true ∧ (s.step e).isSome := by
  cases hd : s.detector with
  | unborn => exact absurd hd hborn
  | finished => exact absurd hd hgoes
  | test => exact ⟨.testWorker, rfl, by simp [step, mainStep, detectorStep, hd]⟩
  | branch => exact ⟨.branch false, rfl, by simp [step, mainStep, detectorStep, hd]⟩
  | capturing => exact ⟨.capture false, rfl, by simp [step, mainStep, detectorStep, hd]⟩
  | analysing => exact ⟨.publish, rfl, by simp [step, mainStep, detectorStep, hd]⟩
  | resting => exact ⟨.rest, rfl, by simp [step, mainStep, detectorStep, hd]⟩

/-- While `main` waits in the DNS server's `stop`, one of its two threads can go on. -/
theorem exists_dnsStep {s : Lifetime} (h : s.Fits) (hm : s.main = .dnsStopping) :
    ∃ e s', s.step e = some s' ∧ s'.remaining < s.remaining := by
  have hdns := h.dns
  rw [hm] at hdns
  have hinside : s.dns.main ≠ .free := hdns.1
  obtain ⟨e, he⟩ := Service.exists_step h.shape hinside
  obtain ⟨dns, hstep⟩ := Option.isSome_iff_exists.mp he
  rcases Service.step_cases hstep with hmain | hworker
  · have hafter : ∃ next, afterDns s.main e dns = some next := by
      rw [hm]
      cases Service.mainStep_cases hmain with
      | init hfree | start hfree | stop hfree | notStarted hfree | notStopped hfree
      | destroyed hfree => exact absurd hfree hinside
      | join | closeServer | closeUpstream => exact ⟨_, rfl⟩
    obtain ⟨next, hnext⟩ := hafter
    refine ⟨.dns e, { s with dns, main := next }, ?_, Nat.add_lt_add_right ?_ _⟩
    · simp [step, mainStep, hmain, hnext]
    · exact afterDns_remaining hmain (afterDns_cases hnext) h.dns
  · have hnone := s.dns.mainStep_of_not_isMain (Service.not_isMain_of_workerStep hworker)
    refine ⟨.dns e, { s with dns }, by simp [step, mainStep, hnone, hworker], ?_⟩
    have hlt := Service.workerStep_remaining_of_inside hworker h.shape hinside
    simpa [remaining] using hlt

/-- `main` has accepted a client that has neither said anything nor hung up. -/
def Silent (s : Lifetime) : Prop := s.main = .serving ∧ s.said = none

/-- Before `main` returns, and unless it waits for a client, some thread can always take
a step towards the end. -/
theorem exists_step {s : Lifetime} (h : s.Fits) (hdown : s.gRunning = false)
    (hmain : s.main ≠ .returned) (hsilent : ¬ s.Silent) :
    ∃ e s', s.step e = some s' ∧ s'.remaining < s.remaining := by
  have hgo : ∀ e, e.ours = true → (s.step e).isSome →
      ∃ e s', s.step e = some s' ∧ s'.remaining < s.remaining := by
    intro e hours hsome
    obtain ⟨s', hs'⟩ := Option.isSome_iff_exists.mp hsome
    exact ⟨e, s', hs', (step_remaining hs' h hdown).2.2 hours⟩
  have hfree : ∀ {stage}, s.main = stage → stage ≠ .dnsStopping → s.dns.main = .free :=
    fun hstage hne => h.dns_free (hstage ▸ hne)
  have hrest := h.rest
  cases hm : s.main with
  | returned => exact absurd hm hmain
  | ipcInit => exact hgo (.ipcInit true) rfl (by simp [step, mainStep, hm])
  | dnsInit =>
    have hfree := hfree hm (by decide)
    exact hgo (.dns (.init .noSocket)) rfl
      (by simp [step, mainStep, Service.mainStep, hfree, hm, afterDns])
  | dnsStart =>
    have hfree := hfree hm (by decide)
    refine hgo (.dns .start) rfl ?_
    simp only [step, mainStep, Service.mainStep, hfree, hm]
    split_ifs <;> rfl
  | launch => exact hgo .launch rfl (by simp [step, mainStep, hm])
  | test => exact hgo .test rfl (by simp [step, mainStep, hm])
  | requests => exact hgo (.pending false) rfl (by simp [step, mainStep, hm])
  | serving =>
    obtain ⟨r, hr⟩ := Option.ne_none_iff_exists'.mp fun hsaid => hsilent ⟨hm, hsaid⟩
    refine hgo .serve rfl ?_
    cases r <;> simp [step, mainStep, hm, hr]
  | render => exact hgo (.render none) rfl (by simp [step, mainStep, hm])
  | lower => exact hgo .lower rfl (by simp [step, mainStep, hm])
  | join =>
    rw [hm] at hrest
    by_cases hfinished : s.detector = .finished
    · exact hgo .join rfl (by simp [step, mainStep, hm, hfinished])
    · obtain ⟨e, hours, hsome⟩ := exists_detectorStep hrest.2 hfinished
      exact hgo e hours hsome
  | dnsStop =>
    have hfree := hfree hm (by decide)
    refine hgo (.dns .stop) rfl ?_
    simp only [step, mainStep, Service.mainStep, hfree, hm]
    split_ifs <;> rfl
  | dnsStopping => exact exists_dnsStep h hm
  | ipcStop => exact hgo .ipcStop rfl (by simp [step, mainStep, hm])
  | clear => exact hgo .clear rfl (by simp [step, mainStep, hm])

theorem remaining_le (s : Lifetime) : s.remaining ≤ 34 := by
  have hmain : s.main.remaining ≤ 21 := by cases s.main <;> decide
  have hdetector : s.detector.remaining ≤ 5 := by cases s.detector <;> decide
  have hdns := s.dns.remaining_le
  unfold remaining
  omega

/-- What is left when `main` has returned: a dark screen, no thread, and no descriptor
of either server. -/
structure Ended (s : Lifetime) : Prop where
  dark : s.shown = []
  detector : s.detector = .finished
  ipc : s.ipcOpen = false
  worker : s.dns.worker = .none
  fds : ∀ fd, s.dns.fds.live fd = false

theorem Fits.ended {s : Lifetime} (h : s.Fits) (hmain : s.main = .returned) : s.Ended := by
  have hrest := h.rest
  have hdns := h.dns
  rw [hmain] at hrest hdns
  obtain ⟨hfree, hserver⟩ := hdns
  obtain ⟨-, hdetector, hipc, hdark⟩ := hrest
  refine ⟨hdark, hdetector, hipc, ?_, ?_⟩
  · obtain ⟨hstart, hrun⟩ := h.tended.no_thread hserver
    cases hw : s.dns.worker with
    | none => rfl
    | starting => exact absurd hw hstart
    | running pfd phase => exact absurd hw (hrun pfd phase)
    | finished => exact absurd hw (h.shape.free hfree).2.1
  · exact (Service.safe_of_tended h.shape h.tended).vacant hfree hserver

/-- While a client that `main` has accepted is silent, `main` stays where it is, and
a word of that client, or its end, is all that it waits for. -/
structure Held (s : Lifetime) : Prop where
  stays : ∀ e s', s.step e = some s' → s'.main = .serving
  freed : ∀ r, ∃ s', s.step (.heard r) = some s' ∧ ¬ s'.Silent

theorem Silent.held {s : Lifetime} (h : s.Silent) : s.Held where
  stays e s' hstep := by
    obtain ⟨hmain, hsaid⟩ := h
    have hother : ∀ {stage}, s.main = stage → stage ≠ .serving → s'.main = .serving :=
      fun hstage hne => absurd (hstage.symm.trans hmain) hne
    rcases step_cases hstep with ⟨-, rfl⟩ | ⟨r, -, rfl⟩ | hmainStep | ⟨d, -, rfl⟩ |
      ⟨d, dns, -, -, rfl⟩
    · exact hmain
    · exact hmain
    · cases hmainStep with
      | pause _ hr | stop _ hr | other _ hr => exact absurd (hsaid.symm.trans hr) nofun
      | dns _ hnext =>
        rw [hmain] at hnext
        cases hnext
      | ipcInit hstage | launch hstage | again hstage | leave hstage | accept hstage
      | pass hstage | render hstage | lower hstage | join hstage | ipcStop hstage
      | clear hstage => exact hother hstage (by decide)
    · exact hmain
    · exact hmain
  freed r := ⟨{ s with said := some r }, if_pos h, fun hs => nomatch hs.2⟩

/-- From any moment at which the flag is down, after a signal or a `STOP` request,
`main` and the detector make at most 34 more steps, whatever the DNS worker does in
between. Until `main` has returned some thread can take a step towards the end, but for
a client that `main` has accepted and that keeps silent: it holds `main` until it says
something or hangs up. And when `main` has returned nothing of the daemon is left. -/
theorem daemon_ends {before during : List LifeEvent} {s t : Lifetime}
    (hbefore : Runs.exec step {} before = some s) (hdown : s.gRunning = false)
    (hduring : Runs.exec step s during = some t) :
    (during.filter LifeEvent.ours).length ≤ 34 ∧
      (t.main ≠ .returned → ¬ t.Silent → ∃ e t', t.step e = some t' ∧
        t'.remaining < t.remaining) ∧
      (t.Silent → t.Held) ∧ (t.main = .returned → t.Ended) := by
  have hs : s.Fits := Runs.exec_invariant (I := Fits) (fun _ _ _ => fits_step) fits_start hbefore
  obtain ⟨⟨ht, htdown⟩, -, hcount⟩ := Runs.filter_length_add_le
    (I := fun s : Lifetime => s.Fits ∧ s.gRunning = false) remaining LifeEvent.ours
    (fun s e s' hstep hs _ =>
      have hle := step_remaining hstep hs.1 hs.2
      ⟨⟨fits_step hstep hs.1, hle.1⟩, hle.2⟩)
    (Runs.always_of_forall (fun _ => trivial) s) ⟨hs, hdown⟩ hduring
  refine ⟨?_, exists_step ht htdown, Silent.held, ht.ended⟩
  have hmost := s.remaining_le
  omega

/-- A run up to a signal in the main loop, with the DNS server up and a client accepted. -/
def upToSignal : List LifeEvent :=
  [.ipcInit true, .dns (.init (.ready true)), .dns .start, .launch, .dns .setUp, .test,
    .pending true, .signal]

/-- What is left to do then. -/
def afterSignal : List LifeEvent :=
  [.dns .test, .heard .pause, .serve, .render none, .testWorker, .test, .lower, .join, .dns .stop,
    .dns (.poll false), .dns .test, .dns .join, .dns .closeServer, .dns .closeUpstream,
    .ipcStop, .clear]

theorem daemon_ends_served :
    ∃ s t, Runs.exec step {} upToSignal = some s ∧ Runs.exec step s afterSignal = some t ∧
      t.Ended :=
  ⟨_, _, rfl, rfl, (@daemon_ends upToSignal afterSignal _ _ rfl rfl rfl).2.2.2 rfl⟩

end Lifetime

end Degoonification
