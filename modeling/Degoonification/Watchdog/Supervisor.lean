import Degoonification.Library.Runs
import Mathlib.Data.Int.Notation

/-! `WatchdogSupervisor::run` in the parent process, one step for each point at which a
signal can come between. What `fork` and `waitpid` answer are the events, and the log
keeps the system calls and the announced relaunches. The child is left out: of it the
parent sees only what `waitpid` reports. -/

namespace Degoonification

/-- `status` as `WIFEXITED` and `WIFSIGNALED` read it. -/
inductive Outcome where
  | exited (code : ℕ)
  | signaled (sig : ℕ)
  deriving DecidableEq

/-- Anything but `exit(0)`. -/
def Outcome.abnormal : Outcome → Bool
  | .exited code => code != 0
  | .signaled _ => true

/-- What the parent does with its children, and says about them. -/
inductive Act where
  | spawned (pid : ℕ)
  | reaped (pid : ℕ) (outcome : Outcome)
  | killed (pid : ℕ)
  | awaited (pid : ℕ)
  | announced (attempt : ℕ)
  deriving DecidableEq

inductive Point where
  /-- The test of the outer loop. -/
  | outerTest
  | forking
  /-- The test of the inner loop. -/
  | innerTest (pid : ℕ)
  /-- The `waitpid` that does not block. -/
  | polling (pid : ℕ)
  /-- The test behind the inner loop. -/
  | afterLoop (pid : ℕ)
  /-- The `waitpid` that blocks, behind the `kill`. -/
  | awaiting (pid : ℕ)
  | counting
  | returned (code : ℕ)
  deriving DecidableEq

structure WatchdogSupervisor where
  point : Point := .outerTest
  stopRequested : Bool := false
  restartCount : ℕ := 0
  log : List Act := []
  deriving DecidableEq

inductive WatchdogEvent where
  /-- `SIGINT` or `SIGTERM`, at any point. -/
  | signal
  /-- The next step of the parent, where no answer decides it. -/
  | advance
  /-- The parent's side of `fork`, `none` for a failure. -/
  | forked (pid : Option ℕ)
  /-- The answer of `waitpid` with `WNOHANG`, `none` while the child runs. -/
  | polled (outcome : Option Outcome)
  deriving DecidableEq

namespace WatchdogSupervisor

/-- `max_restarts_ <= 0 || restart_count < max_restarts_`. -/
def mayLaunch (maxRestarts : ℤ) (s : WatchdogSupervisor) : Bool :=
  maxRestarts ≤ 0 || s.restartCount < maxRestarts

def advance (maxRestarts : ℤ) (s : WatchdogSupervisor) : Option WatchdogSupervisor :=
  match s.point with
  | .outerTest =>
    if !s.stopRequested && s.mayLaunch maxRestarts then some { s with point := .forking }
    else some { s with point := .returned 0 }
  | .innerTest pid =>
    if s.stopRequested then some { s with point := .afterLoop pid }
    else some { s with point := .polling pid }
  | .afterLoop pid =>
    if s.stopRequested then some { s with point := .awaiting pid, log := s.log ++ [.killed pid] }
    else some { s with point := .counting }
  | .awaiting pid => some { s with point := .returned 0, log := s.log ++ [.awaited pid] }
  | .counting =>
    some { s with
      point := .outerTest
      restartCount := s.restartCount + 1
      log := s.log ++ [.announced (s.restartCount + 1)] }
  | .forking | .polling _ | .returned _ => none

def forked (s : WatchdogSupervisor) : Option ℕ → WatchdogSupervisor
  | none => { s with point := .returned 1 }
  | some pid => { s with point := .innerTest pid, log := s.log ++ [.spawned pid] }

def polled (s : WatchdogSupervisor) (pid : ℕ) : Option Outcome → WatchdogSupervisor
  | none => { s with point := .innerTest pid }
  | some outcome =>
    let log := s.log ++ [.reaped pid outcome]
    if outcome.abnormal then { s with point := .afterLoop pid, log }
    else { s with point := .returned 0, log }

def step (maxRestarts : ℤ) (s : WatchdogSupervisor) : WatchdogEvent → Option WatchdogSupervisor
  | .signal => some { s with stopRequested := true }
  | .advance => s.advance maxRestarts
  | .forked pid => if s.point = .forking then some (s.forked pid) else none
  | .polled outcome =>
    match s.point with
    | .polling pid => some (s.polled pid outcome)
    | _ => none

/-! ### What a step can do -/

inductive Steps (maxRestarts : ℤ) (s : WatchdogSupervisor) :
    WatchdogEvent → WatchdogSupervisor → Prop
  | signal : Steps maxRestarts s .signal { s with stopRequested := true }
  | launch (hpoint : s.point = .outerTest) (hstop : s.stopRequested = false)
    (hmay : s.mayLaunch maxRestarts = true) :
    Steps maxRestarts s .advance { s with point := .forking }
  | finish (hpoint : s.point = .outerTest)
    (hend : s.stopRequested = true ∨ s.mayLaunch maxRestarts = false) :
    Steps maxRestarts s .advance { s with point := .returned 0 }
  | forkFailed (hpoint : s.point = .forking) :
    Steps maxRestarts s (.forked none) { s with point := .returned 1 }
  | spawn (pid : ℕ) (hpoint : s.point = .forking) :
    Steps maxRestarts s (.forked (some pid))
      { s with point := .innerTest pid, log := s.log ++ [.spawned pid] }
  | leave {pid : ℕ} (hpoint : s.point = .innerTest pid) (hstop : s.stopRequested = true) :
    Steps maxRestarts s .advance { s with point := .afterLoop pid }
  | poll {pid : ℕ} (hpoint : s.point = .innerTest pid) (hstop : s.stopRequested = false) :
    Steps maxRestarts s .advance { s with point := .polling pid }
  | running {pid : ℕ} (hpoint : s.point = .polling pid) :
    Steps maxRestarts s (.polled none) { s with point := .innerTest pid }
  | crash {pid : ℕ} {outcome : Outcome} (hpoint : s.point = .polling pid)
    (habnormal : outcome.abnormal = true) :
    Steps maxRestarts s (.polled (some outcome))
      { s with point := .afterLoop pid, log := s.log ++ [.reaped pid outcome] }
  | exit {pid : ℕ} {outcome : Outcome} (hpoint : s.point = .polling pid)
    (hclean : outcome.abnormal = false) :
    Steps maxRestarts s (.polled (some outcome))
      { s with point := .returned 0, log := s.log ++ [.reaped pid outcome] }
  | kill {pid : ℕ} (hpoint : s.point = .afterLoop pid) (hstop : s.stopRequested = true) :
    Steps maxRestarts s .advance
      { s with point := .awaiting pid, log := s.log ++ [.killed pid] }
  | goOn {pid : ℕ} (hpoint : s.point = .afterLoop pid) (hstop : s.stopRequested = false) :
    Steps maxRestarts s .advance { s with point := .counting }
  | await {pid : ℕ} (hpoint : s.point = .awaiting pid) :
    Steps maxRestarts s .advance
      { s with point := .returned 0, log := s.log ++ [.awaited pid] }
  | announce (hpoint : s.point = .counting) :
    Steps maxRestarts s .advance { s with
      point := .outerTest
      restartCount := s.restartCount + 1
      log := s.log ++ [.announced (s.restartCount + 1)] }

variable {maxRestarts : ℤ} {s t : WatchdogSupervisor} {e : WatchdogEvent}

theorem steps_of_advance (h : s.advance maxRestarts = some t) : Steps maxRestarts s .advance t := by
  rw [advance] at h
  cases hpoint : s.point with
  | outerTest =>
    simp only [hpoint] at h
    split_ifs at h with hgo <;> obtain rfl := Option.some.inj h
    · obtain ⟨hstop, hmay⟩ := Bool.and_eq_true_iff.mp hgo
      exact .launch hpoint (Bool.not_eq_true' _ ▸ hstop) hmay
    · refine .finish hpoint ?_
      rwa [Bool.and_eq_true_iff, not_and_or, Bool.not_eq_true', Bool.not_eq_false,
        Bool.not_eq_true] at hgo
  | innerTest pid =>
    simp only [hpoint] at h
    split_ifs at h with hstop <;> obtain rfl := Option.some.inj h
    · exact .leave hpoint hstop
    · exact .poll hpoint (Bool.not_eq_true _ ▸ hstop)
  | afterLoop pid =>
    simp only [hpoint] at h
    split_ifs at h with hstop <;> obtain rfl := Option.some.inj h
    · exact .kill hpoint hstop
    · exact .goOn hpoint (Bool.not_eq_true _ ▸ hstop)
  | awaiting pid =>
    rw [hpoint] at h
    obtain rfl := Option.some.inj h
    exact .await hpoint
  | counting =>
    rw [hpoint] at h
    obtain rfl := Option.some.inj h
    exact .announce hpoint
  | forking | polling | returned =>
    rw [hpoint] at h
    cases h

theorem steps_of_step (h : s.step maxRestarts e = some t) : Steps maxRestarts s e t := by
  cases e with
  | signal =>
    obtain rfl := Option.some.inj h
    exact .signal
  | advance => exact steps_of_advance h
  | forked pid =>
    rw [step] at h
    split_ifs at h with hpoint
    obtain rfl := Option.some.inj h
    cases pid with
    | none => exact .forkFailed hpoint
    | some pid => exact .spawn pid hpoint
  | polled outcome =>
    rw [step] at h
    cases hpoint : s.point with
    | polling pid =>
      rw [hpoint] at h
      obtain rfl := Option.some.inj h
      cases outcome with
      | none => exact .running hpoint
      | some outcome =>
        rw [polled]
        split_ifs with habnormal
        · exact .crash hpoint habnormal
        · exact .exit hpoint (Bool.not_eq_true _ ▸ habnormal)
    | outerTest | forking | innerTest | afterLoop | awaiting | counting | returned =>
      rw [hpoint] at h
      cases h

end WatchdogSupervisor

end Degoonification
