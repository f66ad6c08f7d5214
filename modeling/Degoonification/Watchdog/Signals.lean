import Degoonification.Watchdog.Supervisor

/-! Whom the supervisor signals. Whether the worker has been reaped is known only where
the inner loop is left: by the stop flag the worker still runs, by `break` it is gone.
The test behind the loop looks at the flag alone. So a stop that the inner test did not
see, and the outer one does, sends `kill` to a pid that may belong to another process. -/

namespace Degoonification.WatchdogSupervisor

/-- The children `run` has to reap, after one more act. -/
def track (children : List ℕ) : Act → List ℕ
  | .spawned pid => pid :: children
  | .reaped pid _ => children.erase pid
  | .awaited pid => children.erase pid
  | .killed _ => children
  | .announced _ => children

/-- The pids forked and not yet reaped. -/
def unreaped (log : List Act) : List ℕ := log.foldl track []

@[simp] theorem unreaped_concat (log : List Act) (a : Act) :
    unreaped (log ++ [a]) = track (unreaped log) a := by
  rw [unreaped, List.foldl_append]
  rfl

/-- The pid that `kill` or the blocking `waitpid` is issued for. -/
def target : Act → Option ℕ
  | .killed pid => some pid
  | .awaited pid => some pid
  | .spawned _ | .reaped _ _ | .announced _ => none

/-- Every `kill` and every blocking `waitpid` was issued for a child not yet reaped. -/
def OnlyLive (log : List Act) : Prop :=
  ∀ pre a post, log = pre ++ a :: post → ∀ pid, target a = some pid → pid ∈ unreaped pre

theorem onlyLive_nil : OnlyLive [] := fun pre a post h => by simp at h

theorem onlyLive_concat {log : List Act} {a : Act} :
    OnlyLive (log ++ [a]) ↔ OnlyLive log ∧ ∀ pid, target a = some pid → pid ∈ unreaped log := by
  constructor
  · intro h
    refine ⟨fun pre b post hlog => h pre b (post ++ [a]) ?_, h log a [] rfl⟩
    rw [hlog, List.append_assoc, List.cons_append]
  · rintro ⟨hlog, ha⟩ pre b post heq
    rcases List.eq_nil_or_concat post with rfl | ⟨post, c, rfl⟩
    · obtain ⟨rfl, rfl⟩ := List.append_singleton_inj.mp heq
      exact ha
    · rw [List.concat_eq_append, ← List.cons_append, ← List.append_assoc] at heq
      exact hlog pre b post (List.append_inj_left' heq rfl)

theorem onlyLive_concat_of_none {log : List Act} {a : Act} (ha : target a = none) :
    OnlyLive (log ++ [a]) ↔ OnlyLive log := by
  rw [onlyLive_concat, ha]
  exact and_iff_left fun pid h => nomatch h

/-! ### The invariant -/

/-- What is known of the children at each point. -/
def Tracked (s : WatchdogSupervisor) : Prop :=
  match s.point with
  | .outerTest | .forking | .counting => unreaped s.log = []
  | .innerTest pid | .polling pid => unreaped s.log = [pid]
  | .afterLoop _ => s.stopRequested = false → unreaped s.log = []
  | .awaiting pid => ∃ log, s.log = log ++ [.killed pid]
  | .returned _ => True

variable {maxRestarts : ℤ} {s t : WatchdogSupervisor} {e : WatchdogEvent}

theorem tracked_step (h : s.step maxRestarts e = some t) (hs : Tracked s) : Tracked t := by
  cases steps_of_step h with
  | signal =>
    rw [Tracked] at hs ⊢
    cases hpoint : s.point with
    | afterLoop pid => exact fun h => nomatch h
    | outerTest | forking | innerTest | polling | awaiting | counting =>
      simpa only [hpoint] using hs
    | returned code => trivial
  | launch hpoint => simpa only [Tracked, hpoint] using hs
  | finish | forkFailed | exit | await => trivial
  | spawn pid hpoint =>
    simp only [Tracked, hpoint, unreaped_concat, track] at hs ⊢
    rw [hs]
  | leave hpoint hstop => exact fun hgo => absurd (hstop.symm.trans hgo) Bool.noConfusion
  | poll hpoint => simpa only [Tracked, hpoint] using hs
  | running hpoint => simpa only [Tracked, hpoint] using hs
  | @crash pid outcome hpoint =>
    simp only [Tracked, hpoint, unreaped_concat, track] at hs ⊢
    rw [hs, List.erase_cons_head]
    exact fun _ => rfl
  | kill => exact ⟨s.log, rfl⟩
  | goOn hpoint hstop =>
    simp only [Tracked, hpoint] at hs ⊢
    exact hs hstop
  | announce hpoint =>
    simp only [Tracked, hpoint, unreaped_concat, track] at hs ⊢
    exact hs

/-! ### Runs -/

/-- A `kill` that is next goes to a child not yet reaped. -/
def KillsLive (s : WatchdogSupervisor) : Prop :=
  ∀ pid, s.point = .afterLoop pid → s.stopRequested = true → pid ∈ unreaped s.log

theorem killsLive_of_ne (h : ∀ pid, s.point ≠ .afterLoop pid) : KillsLive s :=
  fun pid hpoint => absurd hpoint (h pid)

/-- Only the `kill` decides: the blocking `waitpid` has the pid of the `kill` before it. -/
theorem onlyLive_step (h : s.step maxRestarts e = some t) (hs : Tracked s)
    (hlive : OnlyLive s.log) (hkills : KillsLive s) : OnlyLive t.log := by
  cases steps_of_step h with
  | signal | launch | finish | forkFailed | leave | poll | running | goOn => exact hlive
  | spawn | crash | exit | announce => exact (onlyLive_concat_of_none rfl).mpr hlive
  | @kill pid hpoint hstop =>
    refine onlyLive_concat.mpr ⟨hlive, fun pid' htarget => ?_⟩
    obtain rfl := Option.some.inj htarget
    exact hkills pid hpoint hstop
  | @await pid hpoint =>
    simp only [Tracked, hpoint] at hs
    obtain ⟨log, hlog⟩ := hs
    refine onlyLive_concat.mpr ⟨hlive, fun pid' htarget => ?_⟩
    obtain rfl := Option.some.inj htarget
    rw [hlog, onlyLive_concat] at hlive
    rw [hlog, unreaped_concat]
    exact hlive.2 pid rfl

/-- All signals so far went to live children, and so does one that is next. -/
def StaysLive (maxRestarts : ℤ) (s : WatchdogSupervisor) : Prop :=
  OnlyLive s.log ∧ ∀ t, s.step maxRestarts .advance = some t → OnlyLive t.log

theorem staysLive_iff (hs : Tracked s) :
    StaysLive maxRestarts s ↔ OnlyLive s.log ∧ KillsLive s := by
  refine and_congr_right fun hlive => ⟨fun hnext pid hpoint hstop => ?_, fun hkills t ht =>
    onlyLive_step ht hs hlive hkills⟩
  have hkill : s.step maxRestarts .advance =
      some { s with point := .awaiting pid, log := s.log ++ [.killed pid] } := by
    simp only [step, advance, hpoint, hstop, if_true]
  exact (onlyLive_concat.mp (hnext _ hkill)).2 pid rfl

/-- No stop request arrives between the test of the inner loop and the test behind it
while the poll in between finds the worker dead. -/
def StopsInTime (s : WatchdogSupervisor) : WatchdogEvent → Prop
  | .signal => ∀ pid, s.point = .afterLoop pid → s.stopRequested = true
  | .polled outcome => outcome.any Outcome.abnormal = true → s.stopRequested = false
  | .advance | .forked _ => True

theorem stopsInTime_iff_killsLive (h : s.step maxRestarts e = some t) (hs : Tracked s)
    (hkills : KillsLive s) : StopsInTime s e ↔ KillsLive t := by
  cases steps_of_step h with
  | signal =>
    refine ⟨fun htime pid hpoint _ => hkills pid hpoint (htime pid hpoint), ?_⟩
    intro hlive pid hpoint
    -- behind the loop without a stop, the worker has been reaped
    refine (Bool.eq_false_or_eq_true _).resolve_right fun hgo => ?_
    simp only [Tracked, hpoint] at hs
    exact List.not_mem_nil (hs hgo ▸ hlive pid hpoint rfl)
  | launch | finish | forkFailed | spawn | poll | kill | goOn | await | announce =>
    exact iff_of_true trivial (killsLive_of_ne fun _ => nofun)
  | running => exact iff_of_true nofun (killsLive_of_ne fun _ => nofun)
  | exit hpoint hclean =>
    exact iff_of_true (fun h => absurd (hclean.symm.trans h) Bool.noConfusion)
      (killsLive_of_ne fun _ => nofun)
  | @leave pid hpoint =>
    refine iff_of_true trivial fun pid' hpoint' _ => ?_
    obtain rfl := Point.afterLoop.inj hpoint'
    simp only [Tracked, hpoint] at hs
    exact hs ▸ List.mem_singleton.mpr rfl
  | @crash pid outcome hpoint habnormal =>
    simp only [Tracked, hpoint] at hs
    have hreaped : unreaped (s.log ++ [.reaped pid outcome]) = [] := by
      rw [unreaped_concat, hs, track, List.erase_cons_head]
    constructor
    · exact fun htime pid' _ hstop => absurd ((htime habnormal).symm.trans hstop) Bool.noConfusion
    · intro hlive _
      refine Bool.eq_false_iff.mpr fun hstop => ?_
      exact List.not_mem_nil (hreaped ▸ hlive pid rfl hstop)

/-- Whatever `fork` and `waitpid` answer and whenever a stop arrives: the supervisor
signals and awaits only children it has not reaped, in every state and in the step after
it, exactly in the runs in which no stop falls between the two tests of a worker that the
poll between them finds dead. -/
theorem stopsInTime_along_iff (maxRestarts : ℤ) (stopRequested : Bool)
    (events : List WatchdogEvent) :
    Runs.Along (step maxRestarts) StopsInTime { stopRequested } events ↔
      Runs.Always (step maxRestarts) (StaysLive maxRestarts) { stopRequested } events := by
  have hstart : Tracked { stopRequested } := rfl
  refine Runs.along_iff_always (fun _ _ _ => tracked_step) (fun s e t h hs hstays => ?_) hstart ?_
  · obtain ⟨hlive, hkills⟩ := (staysLive_iff hs).mp hstays
    rw [staysLive_iff (tracked_step h hs), and_iff_right (onlyLive_step h hs hlive hkills)]
    exact stopsInTime_iff_killsLive h hs hkills
  · exact (staysLive_iff hstart).mpr ⟨onlyLive_nil, killsLive_of_ne fun _ => nofun⟩

/-- Worker 7 crashes and is reaped, and the stop arrives before the flag is tested. -/
def lateStop : List WatchdogEvent :=
  [.advance, .forked (some 7), .advance, .polled (some (.signaled 11)), .signal, .advance]

theorem killed_after_reaped :
    ∃ s, Runs.exec (step 100) {} lateStop = some s ∧
      s.log = [.spawned 7, .reaped 7 (.signaled 11), .killed 7] ∧ ¬ OnlyLive s.log := by
  refine ⟨_, rfl, rfl, fun h => ?_⟩
  have hmem := h [.spawned 7, .reaped 7 (.signaled 11)] (.killed 7) [] rfl 7 rfl
  exact absurd hmem (by decide)

end Degoonification.WatchdogSupervisor
