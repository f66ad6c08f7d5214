import Degoonification.Library.Runs
import Degoonification.Library.Slots

/-! `DnsServer` from its constructor to its destructor: the two descriptors, the flag
`is_running_` and the worker thread, with `init`, `start` and the parts of `stop` on
one side and the loop between two system calls on the other, in any interleaving.
What the loop does with a datagram is left open here. -/

namespace Degoonification.DnsServer

/-- `server_fd_` and `upstream_fd_`. -/
inductive Descriptor where
  | server | upstream
deriving DecidableEq

/-- Where `run_loop` stands: before the condition, in the first `poll`, before
`recvfrom`, with a datagram, and in the `poll` for upstream. -/
inductive LoopPhase where
  | check | polling | reading | handling | awaiting
deriving DecidableEq

/-- The thread, which has not taken `pfd.fd` yet when it starts. -/
inductive Worker where
  | none | starting
  | running (pfd : Option ℕ) (phase : LoopPhase)
  | finished
deriving DecidableEq

/-- The steps a thread takes at most before it returns, once the flag is down. -/
def Worker.remaining : Worker → ℕ
  | .none | .finished => 0
  | .running _ .check => 1
  | .starting | .running _ .awaiting => 2
  | .running _ .handling => 3
  | .running _ .reading => 4
  | .running _ .polling => 5

/-- The main thread is outside of `stop`, or before the `join` and the two `close`s. -/
inductive MainPhase where
  | free | joining | closing | closingUpstream
deriving DecidableEq

structure Service where
  fds : Slots Descriptor := {}
  isRunning : Bool := false
  worker : Worker := .none
  main : MainPhase := .free

/-- How `init` ends: no socket, no address, or a listening socket with an upstream
socket or none. -/
inductive InitResult where
  | noSocket | notBound
  | ready (upstream : Bool)

/-- The steps of the main thread and those of the worker; `settled` is a datagram that is
dropped. -/
inductive Event where
  | init (result : InitResult)
  | start | stop | join | closeServer | closeUpstream | destroyed
  | setUp | test
  | poll (ready : Bool)
  | read (bytes : Bool)
  | settled | sinkhole | forward
  | reply (arrived : Bool)

/-- The main thread's events, the others being the worker's. -/
def Event.isMain : Event → Bool
  | .init _ | .start | .stop | .join | .closeServer | .closeUpstream | .destroyed => true
  | _ => false

namespace Service

/-- The descriptors after `init`. -/
def initFds (fds : Slots Descriptor) : InitResult → Slots Descriptor
  | .noSocket => fds.forget .server
  | .notBound => (fds.acquire .server).release .server
  | .ready upstream =>
    if upstream then (fds.acquire .server).acquire .upstream
    else (fds.acquire .server).forget .upstream

/-- The main thread's steps. `start` and `stop` return at once where their guards
say so. -/
def mainStep (s : Service) : Event → Option Service
  | .init result => if s.main = .free then some { s with fds := initFds s.fds result } else none
  | .start =>
    if s.main = .free then
      if s.fds.held .server = none ∨ s.isRunning then some s
      else some { s with isRunning := true, worker := .starting }
    else none
  | .stop =>
    if s.main = .free then
      if s.isRunning then some { s with isRunning := false, main := .joining } else some s
    else none
  | .join =>
    if s.main = .joining ∧ s.worker = .finished then
      some { s with worker := .none, main := .closing }
    else none
  | .closeServer =>
    if s.main = .closing then
      some { s with fds := s.fds.release .server, main := .closingUpstream }
    else none
  | .closeUpstream =>
    if s.main = .closingUpstream then
      some { s with fds := s.fds.release .upstream, main := .free }
    else none
  | .destroyed =>
    if s.main = .free ∧ s.isRunning = false then
      some { s with fds := (s.fds.forget .server).forget .upstream }
    else none
  | _ => none

/-- The next phase of the loop, or its end. -/
def loopStep (s : Service) (phase : LoopPhase) : Event → Option (Option LoopPhase)
  | .test => if phase = .check then some (if s.isRunning then some .polling else none) else none
  | .poll ready =>
    if phase = .polling then some (some (if ready then .reading else .check)) else none
  | .read bytes =>
    if phase = .reading then some (some (if bytes then .handling else .check)) else none
  | .settled | .sinkhole => if phase = .handling then some (some .check) else none
  | .forward =>
    if phase = .handling then
      some (some (if s.fds.held .upstream = none then .check else .awaiting))
    else none
  | .reply _ => if phase = .awaiting then some (some .check) else none
  | _ => none

/-- The worker's steps. -/
def workerStep (s : Service) (e : Event) : Option Service :=
  match s.worker with
  | .none | .finished => none
  | .starting =>
    match e with
    | .setUp => some { s with worker := .running (s.fds.held .server) .check }
    | _ => none
  | .running pfd phase =>
    (s.loopStep phase e).map fun next => { s with worker := next.elim .finished (.running pfd) }

def step (s : Service) (e : Event) : Option Service := (s.mainStep e).or (s.workerStep e)

/-- The descriptors that the worker's next step hands to the system. -/
def uses (s : Service) : Event → List (Option ℕ)
  | .poll _ =>
    match s.worker with
    | .running pfd _ => [pfd]
    | _ => []
  | .read _ | .sinkhole => [s.fds.held .server]
  | .forward => if s.fds.held .upstream = none then [] else [s.fds.held .upstream]
  | .reply arrived =>
    s.fds.held .upstream :: if arrived then [s.fds.held .server] else []
  | _ => []

/-- What holds in every run: the flag, the thread and the main thread fit together. -/
structure Shape (s : Service) : Prop where
  sound : s.fds.Sound
  free : s.main = .free → (s.isRunning = false → s.worker = .none) ∧ s.worker ≠ .finished ∧
    (s.isRunning = true → s.worker ≠ .none)
  joining : s.main = .joining → s.isRunning = false ∧ s.worker ≠ .none
  closing : s.main = .closing ∨ s.main = .closingUpstream →
    s.isRunning = false ∧ s.worker = .none

/-- No descriptor is lost, and the worker polls the socket it reads from. -/
structure Tended (s : Service) : Prop where
  kept : s.fds.Kept
  listens : s.worker = .starting → s.fds.held .server ≠ none
  polls : ∀ pfd phase, s.worker = .running pfd phase →
    s.fds.held .server = pfd ∧ pfd ≠ none ∧ (phase = .awaiting → s.fds.held .upstream ≠ none)
  both : s.main = .free → s.fds.held .server = none → s.fds.held .upstream = none
  closed : s.main = .closingUpstream → s.fds.held .server = none

/-- `init` and the destructor come to a server without a listening socket. -/
def Vacant (s : Service) : Event → Prop
  | .init _ | .destroyed => s.fds.held .server = none
  | _ => True

theorem shape_start : Shape {} :=
  ⟨Slots.sound_empty, fun _ => ⟨fun _ => rfl, nofun, nofun⟩, nofun, nofun⟩

theorem tended_start : Tended {} := ⟨Slots.kept_empty, nofun, nofun, fun _ _ => rfl, nofun⟩

theorem step_cases {s s' : Service} {e : Event} (h : s.step e = some s') :
    s.mainStep e = some s' ∨ s.workerStep e = some s' := by
  unfold step at h
  rcases Option.or_eq_some_iff.mp h with h | ⟨-, h⟩
  · exact .inl h
  · exact .inr h

/-- The ways from a phase of the loop to the next one, or to the end of the thread. -/
inductive Loop (s : Service) : LoopPhase → Option LoopPhase → Prop where
  | again (hrun : s.isRunning = true) : Loop s .check (some .polling)
  | returns (hrun : s.isRunning = false) : Loop s .check none
  | ready : Loop s .polling (some .reading)
  | timeout : Loop s .polling (some .check)
  | bytes : Loop s .reading (some .handling)
  | nothing : Loop s .reading (some .check)
  | done : Loop s .handling (some .check)
  | forwards (hup : s.fds.held .upstream ≠ none) : Loop s .handling (some .awaiting)
  | replied : Loop s .awaiting (some .check)

theorem loop_of_loopStep {s : Service} {phase : LoopPhase} {e : Event} {next : Option LoopPhase}
    (h : s.loopStep phase e = some next) : s.Loop phase next := by
  unfold loopStep at h
  split at h
  case h_1 =>
    obtain ⟨rfl, hnext⟩ := Option.ite_none_right_eq_some.mp h
    split_ifs at hnext with hrun
    · exact Option.some.inj hnext ▸ .again hrun
    · exact Option.some.inj hnext ▸ .returns (Bool.eq_false_iff.mpr hrun)
  case h_2 =>
    obtain ⟨rfl, hnext⟩ := Option.ite_none_right_eq_some.mp h
    split_ifs at hnext
    · exact Option.some.inj hnext ▸ .ready
    · exact Option.some.inj hnext ▸ .timeout
  case h_3 =>
    obtain ⟨rfl, hnext⟩ := Option.ite_none_right_eq_some.mp h
    split_ifs at hnext
    · exact Option.some.inj hnext ▸ .bytes
    · exact Option.some.inj hnext ▸ .nothing
  case h_6 =>
    obtain ⟨rfl, hnext⟩ := Option.ite_none_right_eq_some.mp h
    split_ifs at hnext with hup
    · exact Option.some.inj hnext ▸ .done
    · exact Option.some.inj hnext ▸ .forwards hup
  case h_7 =>
    obtain ⟨rfl, hnext⟩ := Option.ite_none_right_eq_some.mp h
    exact Option.some.inj hnext ▸ .replied
  case h_8 => cases h
  all_goals
    obtain ⟨rfl, hnext⟩ := Option.ite_none_right_eq_some.mp h
    exact Option.some.inj hnext ▸ .done

theorem workerStep_cases {s s' : Service} {e : Event} (h : s.workerStep e = some s') :
    (e = .setUp ∧ s.worker = .starting ∧
      s' = { s with worker := .running (s.fds.held .server) .check }) ∨
    ∃ pfd phase next, s.worker = .running pfd phase ∧ s.loopStep phase e = some next ∧
      s' = { s with worker := next.elim .finished (.running pfd) } := by
  unfold workerStep at h
  split at h
  · cases h
  · cases h
  · next hworker =>
    split at h
    · obtain rfl := Option.some.inj h
      exact .inl ⟨rfl, hworker, rfl⟩
    · cases h
  · next pfd phase hworker =>
    obtain ⟨next, hnext, rfl⟩ := Option.map_eq_some_iff.mp h
    exact .inr ⟨pfd, phase, next, hworker, hnext, rfl⟩

/-- The main thread's steps, one case for each outcome. -/
inductive Main (s : Service) : Event → Service → Prop where
  | init (hmain : s.main = .free) (result : InitResult) :
      Main s (.init result) { s with fds := initFds s.fds result }
  | start (hmain : s.main = .free) (hserver : s.fds.held .server ≠ none)
      (hrun : s.isRunning = false) : Main s .start { s with isRunning := true, worker := .starting }
  | stop (hmain : s.main = .free) (hrun : s.isRunning = true) :
      Main s .stop { s with isRunning := false, main := .joining }
  | notStarted (hmain : s.main = .free)
      (hguard : s.fds.held .server = none ∨ s.isRunning = true) : Main s .start s
  | notStopped (hmain : s.main = .free) (hrun : s.isRunning = false) : Main s .stop s
  | join (hmain : s.main = .joining) (hworker : s.worker = .finished) :
      Main s .join { s with worker := .none, main := .closing }
  | closeServer (hmain : s.main = .closing) :
      Main s .closeServer { s with fds := s.fds.release .server, main := .closingUpstream }
  | closeUpstream (hmain : s.main = .closingUpstream) :
      Main s .closeUpstream { s with fds := s.fds.release .upstream, main := .free }
  | destroyed (hmain : s.main = .free) (hrun : s.isRunning = false) :
      Main s .destroyed { s with fds := (s.fds.forget .server).forget .upstream }

theorem mainStep_cases {s s' : Service} {e : Event} (h : s.mainStep e = some s') :
    s.Main e s' := by
  unfold mainStep at h
  split at h
  case h_1 =>
    obtain ⟨hmain, h⟩ := Option.ite_none_right_eq_some.mp h
    exact Option.some.inj h ▸ .init hmain _
  case h_2 =>
    obtain ⟨hmain, h⟩ := Option.ite_none_right_eq_some.mp h
    split_ifs at h with hguard
    · exact Option.some.inj h ▸ .notStarted hmain hguard
    · obtain ⟨hserver, hrun⟩ := not_or.mp hguard
      exact Option.some.inj h ▸ .start hmain hserver (Bool.eq_false_iff.mpr hrun)
  case h_3 =>
    obtain ⟨hmain, h⟩ := Option.ite_none_right_eq_some.mp h
    split_ifs at h with hrun
    · exact Option.some.inj h ▸ .stop hmain hrun
    · exact Option.some.inj h ▸ .notStopped hmain (Bool.eq_false_iff.mpr hrun)
  case h_4 =>
    obtain ⟨⟨hmain, hworker⟩, h⟩ := Option.ite_none_right_eq_some.mp h
    exact Option.some.inj h ▸ .join hmain hworker
  case h_5 =>
    obtain ⟨hmain, h⟩ := Option.ite_none_right_eq_some.mp h
    exact Option.some.inj h ▸ .closeServer hmain
  case h_6 =>
    obtain ⟨hmain, h⟩ := Option.ite_none_right_eq_some.mp h
    exact Option.some.inj h ▸ .closeUpstream hmain
  case h_7 =>
    obtain ⟨⟨hmain, hrun⟩, h⟩ := Option.ite_none_right_eq_some.mp h
    exact Option.some.inj h ▸ .destroyed hmain hrun
  case h_8 => cases h

/-! ### What every step keeps -/

theorem sound_initFds {fds : Slots Descriptor} (h : fds.Sound) (result : InitResult) :
    (initFds fds result).Sound := by
  cases result with
  | noSocket => exact h.forget _
  | notBound => exact (h.acquire .server).release .server
  | ready upstream =>
    cases upstream with
    | false => exact (h.acquire _).forget _
    | true => exact (h.acquire _).acquire _

/-- A thread that lives goes on, or returns with the flag down. -/
theorem Shape.worker {s : Service} (h : s.Shape) {w : Worker} (hlive : s.worker ≠ .none)
    (hw : w ≠ .none) (hfinished : w = .finished → s.isRunning = false) :
    Shape { s with worker := w } where
  sound := h.sound
  free hmain := by
    have hrun : s.isRunning ≠ false := fun hrun => hlive ((h.free hmain).1 hrun)
    exact ⟨fun hdown => absurd hdown hrun, fun hw => hrun (hfinished hw), fun _ => hw⟩
  joining hmain := ⟨(h.joining hmain).1, hw⟩
  closing hmain := absurd (h.closing hmain).2 hlive

theorem Shape.mainStep {s s' : Service} {e : Event} (hstep : s.mainStep e = some s')
    (h : s.Shape) : s'.Shape := by
  cases mainStep_cases hstep with
  | init hfree result => exact ⟨sound_initFds h.sound result, h.free, h.joining, h.closing⟩
  | start hfree =>
    refine ⟨h.sound, fun _ => ⟨nofun, nofun, nofun⟩, fun hjoin => ?_, fun hclose => ?_⟩
    · exact absurd (hfree.symm.trans hjoin) nofun
    · rcases hclose with hclose | hclose <;> exact absurd (hfree.symm.trans hclose) nofun
  | stop hfree hrun =>
    exact ⟨h.sound, nofun, fun _ => ⟨rfl, (h.free hfree).2.2 hrun⟩, fun hclose =>
      hclose.elim nofun nofun⟩
  | notStarted | notStopped => exact h
  | join hjoin => exact ⟨h.sound, nofun, nofun, fun _ => ⟨(h.joining hjoin).1, rfl⟩⟩
  | closeServer hclose =>
    exact ⟨h.sound.release _, nofun, nofun, fun _ => h.closing (.inl hclose)⟩
  | closeUpstream hclose =>
    obtain ⟨hrun, hworker⟩ := h.closing (.inr hclose)
    refine ⟨h.sound.release _, fun _ => ⟨fun _ => hworker, ?_, ?_⟩, nofun, fun hclose =>
      hclose.elim nofun nofun⟩
    · rw [hworker]
      nofun
    · rw [hrun]
      nofun
  | destroyed => exact ⟨(h.sound.forget _).forget _, h.free, h.joining, h.closing⟩

theorem Shape.workerStep {s s' : Service} {e : Event} (hstep : s.workerStep e = some s')
    (h : s.Shape) : s'.Shape := by
  rcases workerStep_cases hstep with ⟨-, hstart, rfl⟩ | ⟨pfd, phase, next, hrun, hnext, rfl⟩
  · exact h.worker (by rw [hstart]; nofun) nofun nofun
  · refine h.worker (by rw [hrun]; nofun) ?_ ?_
    · cases next <;> nofun
    · cases loop_of_loopStep hnext with
      | returns hdown => exact fun _ => hdown
      | _ => nofun

theorem shape_step {s s' : Service} {e : Event} (hstep : s.step e = some s') (h : s.Shape) :
    s'.Shape := by
  rcases step_cases hstep with hmain | hworker
  · exact h.mainStep hmain
  · exact h.workerStep hworker

theorem not_isMain_of_workerStep {s s' : Service} {e : Event} (h : s.workerStep e = some s') :
    e.isMain = false := by
  rcases workerStep_cases h with ⟨rfl, -⟩ | ⟨pfd, phase, next, -, hnext, -⟩
  · rfl
  · cases e <;> first | rfl | cases hnext

theorem mainStep_of_not_isMain (s : Service) {e : Event} (h : e.isMain = false) :
    s.mainStep e = none := by
  cases e <;> first | rfl | cases h

/-- Only `init` and the destructor may come to a server that is not vacant. -/
theorem vacant_of_workerStep {s s' : Service} {e : Event} (h : s.workerStep e = some s') :
    s.Vacant e := by
  have hworker := not_isMain_of_workerStep h
  cases e with
  | init | destroyed => cases hworker
  | _ => trivial

theorem Tended.workerStep {s s' : Service} {e : Event} (hstep : s.workerStep e = some s')
    (h : s.Tended) : s'.Tended := by
  rcases workerStep_cases hstep with ⟨-, hstart, rfl⟩ | ⟨pfd, phase, next, hrun, hnext, rfl⟩
  · refine ⟨h.kept, nofun, fun pfd phase hworker => ?_, h.both, h.closed⟩
    obtain ⟨rfl, rfl⟩ := Worker.running.inj hworker
    exact ⟨rfl, h.listens hstart, nofun⟩
  · obtain ⟨hpfd, hne, -⟩ := h.polls pfd phase hrun
    cases next with
    | none => exact ⟨h.kept, nofun, nofun, h.both, h.closed⟩
    | some next =>
      refine ⟨h.kept, nofun, fun pfd' phase' hworker => ?_, h.both, h.closed⟩
      obtain ⟨rfl, rfl⟩ := Worker.running.inj hworker
      refine ⟨hpfd, hne, ?_⟩
      rintro rfl
      cases loop_of_loopStep hnext
      assumption

theorem kept_initFds_iff {fds : Slots Descriptor} (hs : fds.Sound) (hk : fds.Kept)
    (hboth : fds.held .server = none → fds.held .upstream = none) (result : InitResult) :
    (initFds fds result).Kept ↔ fds.held .server = none := by
  have hup : (fds.acquire .server).held .upstream = fds.held .upstream :=
    Slots.held_acquire_of_ne fds nofun
  cases result with
  | noSocket =>
    unfold initFds
    rw [Slots.kept_forget_iff hs, and_iff_right hk]
  | notBound =>
    unfold initFds
    rw [Slots.kept_release_iff, Slots.kept_acquire_iff hs, and_iff_right hk]
  | ready upstream =>
    cases upstream with
    | false =>
      simp only [initFds, Bool.false_eq_true, if_false]
      rw [Slots.kept_forget_iff (hs.acquire _), Slots.kept_acquire_iff hs, hup,
        and_iff_right hk, and_iff_left_of_imp hboth]
    | true =>
      simp only [initFds, if_true]
      rw [Slots.kept_acquire_iff (hs.acquire _), Slots.kept_acquire_iff hs, hup,
        and_iff_right hk, and_iff_left_of_imp hboth]

theorem kept_destroyed_iff {fds : Slots Descriptor} (hs : fds.Sound) (hk : fds.Kept)
    (hboth : fds.held .server = none → fds.held .upstream = none) :
    ((fds.forget .server).forget .upstream).Kept ↔ fds.held .server = none := by
  have hup : (fds.forget .server).held .upstream = fds.held .upstream :=
    Slots.held_forget_of_ne fds nofun
  rw [Slots.kept_forget_iff (hs.forget _), Slots.kept_forget_iff hs, hup, and_iff_right hk,
    and_iff_left_of_imp hboth]

theorem held_initFds_none {fds : Slots Descriptor} {result : InitResult}
    (h : (initFds fds result).held .server = none) :
    (initFds fds result).held .upstream = fds.held .upstream := by
  have hne : (Descriptor.upstream : Descriptor) ≠ .server := nofun
  cases result with
  | noSocket => exact Slots.held_forget_of_ne fds hne
  | notBound =>
    exact (Slots.held_release_of_ne _ hne).trans (Slots.held_acquire_of_ne fds hne)
  | ready upstream =>
    have hserver : (initFds fds (.ready upstream)).held .server = some fds.next := by
      simp only [initFds]
      split_ifs
      · exact (Slots.held_acquire_of_ne _ hne.symm).trans (Slots.held_acquire_self ..)
      · exact (Slots.held_forget_of_ne _ hne.symm).trans (Slots.held_acquire_self ..)
    rw [hserver] at h
    cases h

/-- A vacant server has no thread. -/
theorem Tended.no_thread {s : Service} (h : s.Tended) (hserver : s.fds.held .server = none) :
    s.worker ≠ .starting ∧ ∀ pfd phase, s.worker ≠ .running pfd phase := by
  refine ⟨fun hworker => h.listens hworker hserver, fun pfd phase hworker => ?_⟩
  obtain ⟨rfl, hne, -⟩ := h.polls pfd phase hworker
  exact hne hserver

/-- With no thread there is only the accounting to be kept. -/
theorem tended_of_no_thread {s : Service} (hkept : s.fds.Kept) (hstart : s.worker ≠ .starting)
    (hrun : ∀ pfd phase, s.worker ≠ .running pfd phase)
    (hboth : s.main = .free → s.fds.held .server = none → s.fds.held .upstream = none)
    (hclosed : s.main = .closingUpstream → s.fds.held .server = none) : s.Tended :=
  ⟨hkept, fun h => absurd h hstart, fun pfd phase h => absurd h (hrun pfd phase), hboth, hclosed⟩

theorem vacant_iff_tended {s s' : Service} {e : Event} (hstep : s.step e = some s')
    (hs : s.Shape) (h : s.Tended) : s.Vacant e ↔ s'.Tended := by
  rcases step_cases hstep with hmain | hworker
  · cases mainStep_cases hmain with
    | init hfree result =>
      have hiff := kept_initFds_iff hs.sound h.kept (h.both hfree) result
      refine ⟨fun hserver => ?_, fun h' => hiff.mp h'.kept⟩
      obtain ⟨hstart, hrun⟩ := h.no_thread hserver
      refine tended_of_no_thread (hiff.mpr hserver) hstart hrun (fun _ hserver' => ?_) ?_
      · exact (held_initFds_none hserver').trans (h.both hfree hserver)
      · exact fun hclose => absurd (hfree.symm.trans hclose) nofun
    | destroyed hfree =>
      have hiff := kept_destroyed_iff hs.sound h.kept (h.both hfree)
      refine ⟨fun hserver => ?_, fun h' => hiff.mp h'.kept⟩
      obtain ⟨hstart, hrun⟩ := h.no_thread hserver
      refine tended_of_no_thread (hiff.mpr hserver) hstart hrun (fun _ _ => ?_) ?_
      · exact Slots.held_forget_self ..
      · exact fun hclose => absurd (hfree.symm.trans hclose) nofun
    | start hfree hserver =>
      exact iff_of_true trivial ⟨h.kept, fun _ => hserver, nofun, h.both, h.closed⟩
    | stop => exact iff_of_true trivial ⟨h.kept, h.listens, h.polls, nofun, nofun⟩
    | notStarted | notStopped => exact iff_of_true trivial h
    | join => exact iff_of_true trivial ⟨h.kept, nofun, nofun, nofun, nofun⟩
    | closeServer hclose =>
      have hnone := (hs.closing (.inl hclose)).2
      have hkept : (s.fds.release .server).Kept := Slots.kept_release_iff.mpr h.kept
      refine iff_of_true trivial (tended_of_no_thread hkept ?_ ?_ nofun fun _ => ?_)
      · exact hnone ▸ nofun
      · exact hnone ▸ nofun
      · exact Slots.held_release_self ..
    | closeUpstream hclose =>
      have hnone := (hs.closing (.inr hclose)).2
      have hkept : (s.fds.release .upstream).Kept := Slots.kept_release_iff.mpr h.kept
      refine iff_of_true trivial (tended_of_no_thread hkept ?_ ?_ ?_ nofun)
      · exact hnone ▸ nofun
      · exact hnone ▸ nofun
      · exact fun _ _ => Slots.held_release_self ..
  · exact iff_of_true (vacant_of_workerStep hworker) (h.workerStep hworker)

/-- Whatever the worker does next, it does it with open descriptors. The last `close` of
`stop` leaves none open, and none is open outside of `stop` without a listening socket. A
`stop` that finds no thread returns at once and leaves those of `init` as they are. -/
structure Safe (s : Service) : Prop where
  usesOpen : ∀ e, (s.workerStep e).isSome → ∀ d ∈ s.uses e, ∃ fd, d = some fd ∧
    s.fds.live fd = true
  vacant : s.main = .free → s.fds.held .server = none → ∀ fd, s.fds.live fd = false
  stopped : ∀ s', s.mainStep .closeUpstream = some s' → ∀ fd, s'.fds.live fd = false

theorem Tended.usesOpen {s s' : Service} {e : Event} (hs : s.Shape) (h : s.Tended)
    (hstep : s.workerStep e = some s') {d : Option ℕ} (hd : d ∈ s.uses e) :
    ∃ fd, d = some fd ∧ s.fds.live fd = true := by
  have hopen : ∀ i, s.fds.held i ≠ none → ∃ fd, s.fds.held i = some fd ∧
      s.fds.live fd = true := by
    intro i hi
    obtain ⟨fd, hfd⟩ := Option.ne_none_iff_exists'.mp hi
    exact ⟨fd, hfd, hs.sound.live_held i fd hfd⟩
  rcases workerStep_cases hstep with ⟨rfl, -⟩ | ⟨pfd, phase, next, hrun, hnext, -⟩
  · cases hd
  · obtain ⟨hpfd, hne, hup⟩ := h.polls pfd phase hrun
    have hserver := hopen .server (hpfd ▸ hne)
    cases e with
    | poll =>
      simp only [uses, hrun, List.mem_singleton] at hd
      exact hd ▸ hpfd ▸ hserver
    | read | sinkhole => exact List.mem_singleton.mp hd ▸ hserver
    | forward =>
      simp only [uses] at hd
      split_ifs at hd with hnone
      · cases hd
      · exact List.mem_singleton.mp hd ▸ hopen .upstream hnone
    | reply arrived =>
      have hwait : phase = .awaiting := (Option.ite_none_right_eq_some.mp hnext).1
      rcases List.mem_cons.mp hd with rfl | hd
      · exact hopen .upstream (hup hwait)
      · split_ifs at hd
        · exact List.mem_singleton.mp hd ▸ hserver
        · cases hd
    | _ => cases hd

theorem safe_of_tended {s : Service} (hs : s.Shape) (h : s.Tended) : s.Safe where
  usesOpen e he d hd := by
    obtain ⟨s', hs'⟩ := Option.isSome_iff_exists.mp he
    exact h.usesOpen hs hs' hd
  vacant hfree hserver := by
    refine h.kept.not_live fun i => ?_
    cases i with
    | server => exact hserver
    | upstream => exact h.both hfree hserver
  stopped s' hstep := by
    cases mainStep_cases hstep with
    | closeUpstream hclose =>
      have hkept : (s.fds.release .upstream).Kept := Slots.kept_release_iff.mpr h.kept
      refine hkept.not_live fun i => ?_
      cases i with
      | upstream => exact Slots.held_release_self ..
      | server =>
        have hne : Descriptor.server ≠ .upstream := nofun
        exact (Slots.held_release_of_ne s.fds hne).trans (h.closed hclose)

/-- In every interleaving of `init`, `start`, `stop` and the destructor with the steps
of the worker: `init` and the destructor only come to a server without a listening
socket exactly if at every moment no descriptor is lost and the worker polls the
socket it reads from; and then the worker's descriptors are open whenever it uses
them, and a `stop` that joins the worker leaves none open. -/
theorem lifecycle_iff (events : List Event) :
    Runs.Along step Vacant {} events ↔
      Runs.Always step (fun s => s.Tended ∧ s.Safe) {} events := by
  refine Runs.along_iff_always (I := Shape) (fun s e s' hstep hs => shape_step hstep hs)
    (fun s e s' hstep hs h => ?_) shape_start
    ⟨tended_start, safe_of_tended shape_start tended_start⟩
  rw [vacant_iff_tended hstep hs h.1]
  exact ⟨fun h' => ⟨h', safe_of_tended (shape_step hstep hs) h'⟩, And.left⟩

/-! ### `stop` comes back -/

/-- The steps of both threads before `stop` comes back. -/
def remaining (s : Service) : ℕ :=
  match s.main with
  | .free => 0
  | .joining => s.worker.remaining + 3
  | .closing => 2
  | .closingUpstream => 1

theorem workerStep_main {s s' : Service} {e : Event} (hstep : s.workerStep e = some s') :
    s'.main = s.main := by
  rcases workerStep_cases hstep with ⟨-, -, rfl⟩ | ⟨-, -, -, -, -, rfl⟩ <;> rfl

theorem workerStep_remaining {s s' : Service} {e : Event} (hstep : s.workerStep e = some s')
    (hdown : s.isRunning = false) : s'.worker.remaining < s.worker.remaining := by
  rcases workerStep_cases hstep with ⟨-, hstart, rfl⟩ | ⟨pfd, phase, next, hrun, hnext, rfl⟩
  · rw [hstart]
    exact Nat.lt_succ_self 1
  · rw [hrun]
    cases loop_of_loopStep hnext with
    | again hup => exact absurd (hdown.symm.trans hup) nofun
    | _ => simp [Worker.remaining]

theorem mainStep_remaining {s s' : Service} {e : Event} (hstep : s.mainStep e = some s')
    (hinside : s.main ≠ .free) : s'.remaining < s.remaining := by
  cases mainStep_cases hstep with
  | init hfree | start hfree | stop hfree | notStarted hfree | notStopped hfree
  | destroyed hfree => exact absurd hfree hinside
  | join hjoin => simp [remaining, hjoin]
  | closeServer hclose | closeUpstream hclose => simp [remaining, hclose]

/-- Inside `stop` the worker only runs while it is waited for. -/
theorem workerStep_remaining_of_inside {s s' : Service} {e : Event}
    (hstep : s.workerStep e = some s') (hs : s.Shape) (hinside : s.main ≠ .free) :
    s'.remaining < s.remaining := by
  have hnone : s.worker ≠ .none := by
    intro hnone
    simp [Service.workerStep, hnone] at hstep
  have hjoin : s.main = .joining := by
    cases hm : s.main with
    | free => exact absurd hm hinside
    | joining => rfl
    | closing => exact absurd (hs.closing (.inl hm)).2 hnone
    | closingUpstream => exact absurd (hs.closing (.inr hm)).2 hnone
  have hlt := workerStep_remaining hstep (hs.joining hjoin).1
  simpa [remaining, workerStep_main hstep, hjoin] using hlt

theorem step_remaining {s s' : Service} {e : Event} (hstep : s.step e = some s') (hs : s.Shape)
    (hinside : s.main ≠ .free) : s'.remaining < s.remaining := by
  rcases step_cases hstep with hmain | hworker
  · exact mainStep_remaining hmain hinside
  · exact workerStep_remaining_of_inside hworker hs hinside

theorem remaining_le (s : Service) : s.remaining ≤ 8 := by
  have hworker : s.worker.remaining ≤ 5 := by
    unfold Worker.remaining
    split <;> decide
  unfold remaining
  split <;> omega

theorem remaining_pos {s : Service} (hinside : s.main ≠ .free) : 0 < s.remaining := by
  cases hm : s.main with
  | free => exact absurd hm hinside
  | _ => simp [remaining, hm]

/-- Inside `stop` one of the threads can always go on. -/
theorem exists_step {s : Service} (hs : s.Shape) (hinside : s.main ≠ .free) :
    ∃ e, (s.step e).isSome := by
  cases hm : s.main with
  | free => exact absurd hm hinside
  | closing => exact ⟨.closeServer, by simp [step, mainStep, hm]⟩
  | closingUpstream => exact ⟨.closeUpstream, by simp [step, mainStep, hm]⟩
  | joining =>
    cases hw : s.worker with
    | none => exact absurd hw (hs.joining hm).2
    | finished => exact ⟨.join, by simp [step, mainStep, hm, hw]⟩
    | starting => exact ⟨.setUp, by simp [step, mainStep, Service.workerStep, hw]⟩
    | running pfd phase =>
      have hgo : ∀ e, s.mainStep e = none → (s.loopStep phase e).isSome →
          ∃ e, (s.step e).isSome := fun e hmain hloop =>
        ⟨e, by simpa [step, Service.workerStep, hmain, hw] using hloop⟩
      cases phase with
      | check => exact hgo .test rfl (by simp [loopStep])
      | polling => exact hgo (.poll false) rfl (by simp [loopStep])
      | reading => exact hgo (.read false) rfl (by simp [loopStep])
      | handling => exact hgo .settled rfl (by simp [loopStep])
      | awaiting => exact hgo (.reply false) rfl (by simp [loopStep])

/-- However the threads take turns, `stop` comes back after at most eight steps of
both, and none of them waits for anything that does not come. -/
theorem stop_returns {before during : List Event} {s s' : Service}
    (hbefore : Runs.exec step {} before = some s) (hduring : Runs.exec step s during = some s')
    (hinside : Runs.Always step (fun s => s.main ≠ .free) s during) :
    during.length < 8 ∧ ∃ e, (s'.step e).isSome := by
  have hs : s.Shape :=
    Runs.exec_invariant (I := Shape) (fun _ _ _ => shape_step) shape_start hbefore
  obtain ⟨hs', hinside', hcount⟩ := Runs.filter_length_add_le (I := Shape) remaining
    (fun _ => true) (fun s e s' hstep hs hinside =>
      have hlt := step_remaining hstep hs hinside
      ⟨shape_step hstep hs, Nat.le_of_lt hlt, fun _ => hlt⟩) hinside hs hduring
  rw [List.filter_eq_self.mpr fun _ _ => rfl] at hcount
  refine ⟨?_, exists_step hs' hinside'⟩
  have hpos := remaining_pos hinside'
  have hmost := s.remaining_le
  omega

theorem stop_returns_polling :
    ∃ s', Runs.exec step {} [.init (.ready true), .start, .setUp, .test, .stop, .poll false] =
        some s' ∧ ([.poll false] : List Event).length < 8 ∧ ∃ e, (s'.step e).isSome := by
  refine ⟨_, rfl, @stop_returns [.init (.ready true), .start, .setUp, .test, .stop] _ _ _ rfl rfl
    ⟨nofun, fun t ht => ?_⟩⟩
  obtain rfl := Option.some.inj ht
  nofun

end Service

end Degoonification.DnsServer
