import Degoonification.Watchdog.Supervisor
import Mathlib.Data.List.TakeWhile

/-! The restart budget. The outer loop tests the count before it launches, and the
first launch is not a restart, so `max_restarts` launches are all there is: the last
announced relaunch of a spent budget is never made. A run without stops and failed
forks goes through rounds of launch, crash and announcement; where the budget is not
spent, it counts and keeps its word exactly. -/

namespace Degoonification.WatchdogSupervisor

/-! ### What a log says -/

/-- The abnormal terminations before the first clean exit. -/
def crashes (outcomes : List Outcome) : ℕ := (outcomes.takeWhile Outcome.abnormal).length

def outcomeOf : Act → Option Outcome
  | .reaped _ outcome => some outcome
  | .spawned _ | .killed _ | .awaited _ | .announced _ => none

/-- How the workers of a log ended, in order. -/
def outcomes (log : List Act) : List Outcome := log.filterMap outcomeOf

def isCrash : Act → Bool
  | .reaped _ outcome => outcome.abnormal
  | .spawned _ | .killed _ | .awaited _ | .announced _ => false

def isSpawn : Act → Bool
  | .spawned _ => true
  | .reaped _ _ | .killed _ | .awaited _ | .announced _ => false

/-- The forks made after an abnormal termination. -/
def reforks (log : List Act) : ℕ := (log.dropWhile fun a => !isCrash a).countP isSpawn

/-- Every announced relaunch is followed by a fork. -/
def Followed (log : List Act) : Prop :=
  ∀ pre k post, log = pre ++ .announced k :: post → ∃ pid rest, post = .spawned pid :: rest

theorem followed_nil : Followed [] := fun pre k post h => by simp at h

theorem followed_cons {a : Act} {log : List Act} : Followed (a :: log) ↔
    (∀ k, a = .announced k → ∃ pid rest, log = .spawned pid :: rest) ∧ Followed log := by
  constructor
  · refine fun h => ⟨fun k ha => h [] k log (ha ▸ rfl), fun pre k post hlog => ?_⟩
    exact h (a :: pre) k post (congrArg (a :: ·) hlog)
  · rintro ⟨ha, hlog⟩ pre k post heq
    cases pre with
    | nil =>
      obtain ⟨rfl, rfl⟩ := List.cons.inj heq
      exact ha k rfl
    | cons b pre => exact hlog pre k post (List.cons.inj heq).2

/-! ### Rounds -/

/-- The log of workers that crashed one after the other, from attempt `k` on. -/
def rounds : ℕ → List (ℕ × Outcome) → List Act
  | _, [] => []
  | k, c :: cs =>
    .spawned c.1 :: .reaped c.1 c.2 :: .announced (k + 1) :: rounds (k + 1) cs

theorem rounds_concat (k : ℕ) (cs : List (ℕ × Outcome)) (c : ℕ × Outcome) :
    rounds k (cs ++ [c]) =
      rounds k cs ++ [.spawned c.1, .reaped c.1 c.2, .announced (k + cs.length + 1)] := by
  induction cs generalizing k with
  | nil => rfl
  | cons c' cs ih =>
    rw [List.cons_append, rounds, rounds, ih, List.length_cons, Nat.add_right_comm k 1,
      Nat.add_assoc k]
    rfl

variable {k n : ℕ} {cs : List (ℕ × Outcome)} {tail : List Act}

theorem outcomes_rounds (k : ℕ) (cs : List (ℕ × Outcome)) (tail : List Act) :
    outcomes (rounds k cs ++ tail) = cs.map Prod.snd ++ outcomes tail := by
  induction cs generalizing k with
  | nil => rfl
  | cons c cs ih => exact congrArg (c.2 :: ·) (ih (k + 1))

theorem countP_rounds (k : ℕ) (cs : List (ℕ × Outcome)) :
    (rounds k cs).countP isSpawn = cs.length := by
  induction cs generalizing k with
  | nil => rfl
  | cons c cs ih =>
    rw [rounds, List.countP_cons_of_pos rfl, List.countP_cons_of_neg Bool.false_ne_true,
      List.countP_cons_of_neg Bool.false_ne_true, ih, List.length_cons]

/-- The launch behind `cs` crashed workers is their relaunch. -/
theorem reforks_rounds (hcs : ∀ c ∈ cs, c.2.abnormal) (pid : ℕ)
    (htail : ∀ a ∈ tail, isCrash a = false ∧ isSpawn a = false) :
    reforks (rounds k cs ++ .spawned pid :: tail) = cs.length := by
  cases cs with
  | nil =>
    have hall : ∀ a ∈ Act.spawned pid :: tail, !isCrash a := by
      refine List.forall_mem_cons.mpr ⟨rfl, fun a ha => ?_⟩
      rw [(htail a ha).1]
      rfl
    rw [rounds, List.nil_append, reforks, List.dropWhile_eq_nil_iff.mpr hall]
    rfl
  | cons c cs =>
    have hcrash : ∀ acts, (.reaped c.1 c.2 :: acts : List Act).dropWhile (fun a => !isCrash a) =
        .reaped c.1 c.2 :: acts := fun acts => by
      refine List.dropWhile_cons_of_neg ?_
      rw [isCrash, hcs c List.mem_cons_self]
      decide
    have htail' : tail.countP isSpawn = 0 := List.countP_eq_zero.mpr fun a ha =>
      Bool.eq_false_iff.mp (htail a ha).2
    rw [rounds, reforks, List.cons_append, List.dropWhile_cons_of_pos rfl, List.cons_append,
      hcrash, List.cons_append, List.countP_cons_of_neg Bool.false_ne_true,
      List.countP_cons_of_neg Bool.false_ne_true, List.countP_append, countP_rounds,
      List.countP_cons_of_pos rfl, htail', List.length_cons]

/-- Behind rounds, a launch makes good the last announcement. -/
theorem followed_rounds (pid : ℕ) (htail : Followed tail) :
    Followed (rounds k cs ++ .spawned pid :: tail) := by
  induction cs generalizing k with
  | nil => exact followed_cons.mpr ⟨nofun, htail⟩
  | cons c cs ih =>
    refine followed_cons.mpr ⟨nofun, followed_cons.mpr ⟨nofun, followed_cons.mpr ⟨?_, ih⟩⟩⟩
    intro j _
    cases cs with
    | nil => exact ⟨pid, tail, rfl⟩
    | cons c' cs => exact ⟨c'.1, _, rfl⟩

/-- Rounds end with an announcement. -/
theorem not_followed_rounds (hcs : cs ≠ []) : ¬ Followed (rounds k cs) := by
  obtain ⟨cs, c, rfl⟩ := (List.eq_nil_or_concat cs).resolve_left hcs
  rw [List.concat_eq_append, rounds_concat]
  intro h
  obtain ⟨pid, rest, hrest⟩ := h (rounds k cs ++ [.spawned c.1, .reaped c.1 c.2])
    (k + cs.length + 1) [] (by rw [List.append_assoc]; rfl)
  cases hrest

theorem crashes_of_prefix {os outs : List Outcome} {o : Outcome} (hos : ∀ o ∈ os, o.abnormal)
    (ho : o.abnormal = false) (h : os ++ [o] <+: outs) : crashes outs = os.length := by
  obtain ⟨rest, rfl⟩ := h
  rw [crashes, List.append_assoc, List.takeWhile_append_of_pos hos, List.singleton_append,
    List.takeWhile_cons_of_neg (Bool.eq_false_iff.mp ho), List.append_nil]

theorem le_crashes_of_prefix {os outs : List Outcome} (hos : ∀ o ∈ os, o.abnormal)
    (h : os <+: outs) : os.length ≤ crashes outs := by
  obtain ⟨rest, rfl⟩ := h
  rw [crashes, List.takeWhile_append_of_pos hos, List.length_append]
  exact Nat.le_add_right _ _

/-! ### Runs without stops -/

/-- The log at each point of a run in which `cs` are the workers that crashed so far. -/
inductive History (n : ℕ) (cs : List (ℕ × Outcome)) : Point → List Act → Prop
  | outerTest : History n cs .outerTest (rounds 0 cs)
  | forking (h : cs.length < n) : History n cs .forking (rounds 0 cs)
  | innerTest (h : cs.length < n) (pid : ℕ) :
    History n cs (.innerTest pid) (rounds 0 cs ++ [.spawned pid])
  | polling (h : cs.length < n) (pid : ℕ) :
    History n cs (.polling pid) (rounds 0 cs ++ [.spawned pid])
  | afterLoop {outcome : Outcome} (habnormal : outcome.abnormal) (pid : ℕ) :
    History n cs (.afterLoop pid) (rounds 0 cs ++ [.spawned pid, .reaped pid outcome])
  | counting {outcome : Outcome} (habnormal : outcome.abnormal) (pid : ℕ) :
    History n cs .counting (rounds 0 cs ++ [.spawned pid, .reaped pid outcome])
  | spent (h : n ≤ cs.length) (code : ℕ) : History n cs (.returned code) (rounds 0 cs)
  | exited (h : cs.length < n) {outcome : Outcome} (hclean : outcome.abnormal = false)
    (pid code : ℕ) :
    History n cs (.returned code) (rounds 0 cs ++ [.spawned pid, .reaped pid outcome])

/-- The announcement after a crash closes a round. -/
theorem History.announced (n pid : ℕ) (cs : List (ℕ × Outcome)) (outcome : Outcome) :
    History n (cs ++ [(pid, outcome)]) .outerTest
      (rounds 0 cs ++ [.spawned pid, .reaped pid outcome, .announced (cs.length + 1)]) := by
  have hround := @History.outerTest n (cs ++ [(pid, outcome)])
  rwa [rounds_concat, Nat.zero_add] at hround

/-- The state of a run without stops, with a restart count per crashed worker. -/
def Unstopped (n : ℕ) (s : WatchdogSupervisor) : Prop :=
  s.stopRequested = false ∧ ∃ cs, (∀ c ∈ cs, c.2.abnormal) ∧ cs.length = s.restartCount ∧
    History n cs s.point s.log

/-- No stop request, and no failed fork. -/
def WatchdogQuiet (e : WatchdogEvent) : Prop := e ≠ .signal ∧ e ≠ .forked none

theorem unstopped_step {s t : WatchdogSupervisor} {e : WatchdogEvent} (hn : 0 < n)
    (he : WatchdogQuiet e) (h : s.step n e = some t) (hs : Unstopped n s) : Unstopped n t := by
  obtain ⟨point, stop, count, log⟩ := s
  obtain ⟨hstop, cs, hcs, hcount, hhist⟩ := hs
  have hmay : mayLaunch n ⟨point, stop, count, log⟩ = true ↔ cs.length < n := by
    rw [mayLaunch, Bool.or_eq_true, decide_eq_true_eq, decide_eq_true_eq, hcount]
    omega
  cases steps_of_step h with
  | signal => exact absurd rfl he.1
  | forkFailed => exact absurd rfl he.2
  | launch hpoint _ hgo =>
    obtain rfl : point = .outerTest := hpoint
    cases hhist
    exact ⟨hstop, cs, hcs, hcount, .forking (hmay.mp hgo)⟩
  | finish hpoint hend =>
    obtain rfl : point = .outerTest := hpoint
    cases hhist
    refine ⟨hstop, cs, hcs, hcount, .spent ?_ 0⟩
    rcases hend with h | h
    · exact absurd (hstop.symm.trans h) Bool.noConfusion
    · exact not_lt.mp fun hlt => Bool.eq_false_iff.mp h (hmay.mpr hlt)
  | spawn pid hpoint =>
    obtain rfl : point = .forking := hpoint
    cases hhist with
    | forking hlt => exact ⟨hstop, cs, hcs, hcount, .innerTest hlt pid⟩
  | leave hpoint hstop' => exact absurd (hstop.symm.trans hstop') Bool.noConfusion
  | @poll pid hpoint =>
    obtain rfl : point = .innerTest pid := hpoint
    cases hhist with
    | innerTest hlt => exact ⟨hstop, cs, hcs, hcount, .polling hlt pid⟩
  | @running pid hpoint =>
    obtain rfl : point = .polling pid := hpoint
    cases hhist with
    | polling hlt => exact ⟨hstop, cs, hcs, hcount, .innerTest hlt pid⟩
  | @crash pid outcome hpoint habnormal =>
    obtain rfl : point = .polling pid := hpoint
    cases hhist with
    | polling hlt =>
      refine ⟨hstop, cs, hcs, hcount, ?_⟩
      simpa using History.afterLoop habnormal pid
  | @exit pid outcome hpoint hclean =>
    obtain rfl : point = .polling pid := hpoint
    cases hhist with
    | polling hlt =>
      refine ⟨hstop, cs, hcs, hcount, ?_⟩
      simpa using History.exited hlt hclean pid 0
  | kill hpoint hstop' => exact absurd (hstop.symm.trans hstop') Bool.noConfusion
  | @goOn pid hpoint =>
    obtain rfl : point = .afterLoop pid := hpoint
    cases hhist with
    | afterLoop habnormal => exact ⟨hstop, cs, hcs, hcount, .counting habnormal pid⟩
  | @await pid hpoint =>
    obtain rfl : point = .awaiting pid := hpoint
    cases hhist
  | announce hpoint =>
    obtain rfl : point = .counting := hpoint
    cases hhist with
    | @counting outcome habnormal pid =>
      have hlength : (cs ++ [(pid, outcome)]).length = count + 1 := by
        rw [List.length_append, hcount]
        rfl
      have hcs' : ∀ c ∈ cs ++ [(pid, outcome)], c.2.abnormal :=
        List.forall_mem_append.mpr ⟨hcs, List.forall_mem_singleton.mpr habnormal⟩
      refine ⟨hstop, cs ++ [(pid, outcome)], hcs', hlength, ?_⟩
      have hround := History.announced n pid cs outcome
      rw [show cs.length = count from hcount] at hround
      simpa using hround

theorem unstopped_exec {s : WatchdogSupervisor} {events : List WatchdogEvent} (hn : 0 < n)
    (hquiet : ∀ e ∈ events, WatchdogQuiet e) (h : Runs.exec (step n) {} events = some s) :
    Unstopped n s :=
  (Runs.along_of_forall _ hquiet).exec_invariant
    (fun _ _ _ hstep he hs => unstopped_step hn he hstep hs)
    ⟨rfl, [], List.forall_mem_nil _, rfl, .outerTest⟩ h

/-- `run` has returned, or its workers so far are all there were and one more runs. -/
def Settled (outs : List Outcome) (s : WatchdogSupervisor) : Prop :=
  (∃ code, s.point = .returned code) ∨
    outcomes s.log = outs ∧ ∃ pid, s.point = .innerTest pid ∨ s.point = .polling pid

/-- A launched worker is not one too many: the count and the announcements are right. -/
theorem exact_of_launched (hcs : ∀ c ∈ cs, c.2.abnormal) (hlt : cs.length < n) (pid : ℕ)
    (htail : ∀ a ∈ tail, isCrash a = false ∧ isSpawn a = false) (hfollowed : Followed tail)
    {outs : List Outcome} (hcrashes : crashes outs = cs.length) :
    (reforks (rounds k cs ++ .spawned pid :: tail) = min n (crashes outs) ∧
        Followed (rounds k cs ++ .spawned pid :: tail)) ↔ crashes outs < n := by
  rw [reforks_rounds hcs pid htail, hcrashes, Nat.min_eq_right hlt.le]
  exact iff_of_true ⟨rfl, followed_rounds pid hfollowed⟩ hlt

/-- A spent budget: the last announcement has nothing behind it. -/
theorem not_exact_of_spent (hn : 0 < n) (hcs : ∀ c ∈ cs, c.2.abnormal) (hle : n ≤ cs.length)
    {outs : List Outcome} (houts : outcomes (rounds k cs) <+: outs) :
    (reforks (rounds k cs) = min n (crashes outs) ∧ Followed (rounds k cs)) ↔
      crashes outs < n := by
  have houtcomes : outcomes (rounds k cs) = cs.map Prod.snd := by
    have h := outcomes_rounds k cs []
    rwa [List.append_nil, show outcomes [] = [] from rfl, List.append_nil] at h
  have hmany := le_crashes_of_prefix (List.forall_mem_map.mpr hcs) (houtcomes ▸ houts)
  rw [List.length_map] at hmany
  have hne : cs ≠ [] := List.ne_nil_of_length_pos (hn.trans_le hle)
  exact iff_of_false (fun h => not_followed_rounds hne h.2) (by omega)

theorem crashes_of_running (hcs : ∀ c ∈ cs, c.2.abnormal) {pid : ℕ} {outs : List Outcome}
    (hall : outcomes (rounds k cs ++ [.spawned pid]) = outs) : crashes outs = cs.length := by
  rw [← hall, outcomes_rounds, crashes, List.takeWhile_append_of_pos (List.forall_mem_map.mpr hcs),
    List.length_append, List.length_map]
  rfl

/-- Whatever workers a run without stops and failed forks has: the restarts are those
the budget promises, and every announced one is made, exactly where fewer workers than
the budget terminate abnormally before the first clean exit. -/
theorem restarts_exact_iff (hn : 0 < n) {outs : List Outcome} {events : List WatchdogEvent}
    {s : WatchdogSupervisor} (hquiet : ∀ e ∈ events, WatchdogQuiet e)
    (hrun : Runs.exec (step n) {} events = some s) (houts : outcomes s.log <+: outs)
    (hsettled : s.Settled outs) :
    (reforks s.log = min n (crashes outs) ∧ Followed s.log) ↔ crashes outs < n := by
  obtain ⟨-, cs, hcs, -, hhist⟩ := unstopped_exec hn hquiet hrun
  obtain ⟨point, stop, count, log⟩ := s
  cases hhist with
  | outerTest | forking | afterLoop | counting =>
    rcases hsettled with ⟨code, h⟩ | ⟨-, pid, h | h⟩ <;> cases h
  | innerTest hlt pid | polling hlt pid =>
    rcases hsettled with ⟨code, h⟩ | ⟨hall, -⟩
    · cases h
    · have hcrashes := crashes_of_running hcs hall
      exact exact_of_launched hcs hlt pid (List.forall_mem_nil _) followed_nil hcrashes
  | spent hle code => exact not_exact_of_spent hn hcs hle houts
  | @exited hlt outcome hclean pid code =>
    have hprefix : cs.map Prod.snd ++ [outcome] <+: outs :=
      outcomes_rounds 0 cs [.spawned pid, .reaped pid outcome] ▸ houts
    have hcrashes := crashes_of_prefix (List.forall_mem_map.mpr hcs) hclean hprefix
    rw [List.length_map] at hcrashes
    have htail : ∀ a ∈ [Act.reaped pid outcome], isCrash a = false ∧ isSpawn a = false :=
      List.forall_mem_singleton.mpr ⟨hclean, rfl⟩
    have hfollowed : Followed [.reaped pid outcome] := followed_cons.mpr ⟨nofun, followed_nil⟩
    exact exact_of_launched hcs hlt pid htail hfollowed hcrashes

/-- Worker 7 crashes, worker 8 exits, with a budget of two. -/
def crashThenExit : List WatchdogEvent :=
  [.advance, .forked (some 7), .advance, .polled (some (.signaled 11)), .advance, .advance,
    .advance, .forked (some 8), .advance, .polled none, .advance, .polled (some (.exited 0))]

/-- What the log of that run says. -/
def crashThenExitLog : List Act :=
  [.spawned 7, .reaped 7 (.signaled 11), .announced 1, .spawned 8, .reaped 8 (.exited 0)]

theorem restarts_exact_iff_crash_then_exit :
    (reforks crashThenExitLog = min 2 (crashes [.signaled 11, .exited 0]) ∧
      Followed crashThenExitLog) ↔ crashes [.signaled 11, .exited 0] < 2 :=
  restarts_exact_iff (s := ⟨.returned 0, false, 1, crashThenExitLog⟩) (by decide)
    (by decide : ∀ e ∈ crashThenExit, e ≠ .signal ∧ e ≠ .forked none) (by decide) (by decide)
    (Or.inl ⟨0, rfl⟩)

/-- One crash with a budget of one: a relaunch is announced and never made. -/
theorem announced_not_made :
    ∃ s, Runs.exec (step 1) {} [.advance, .forked (some 7), .advance,
        .polled (some (.signaled 11)), .advance, .advance, .advance] = some s ∧
      s.point = .returned 0 ∧ outcomes s.log = [.signaled 11] ∧
      reforks s.log ≠ min 1 (crashes [.signaled 11]) ∧ ¬ Followed s.log := by
  refine ⟨_, rfl, rfl, rfl, by decide, fun h => ?_⟩
  obtain ⟨pid, rest, hrest⟩ := h [.spawned 7, .reaped 7 (.signaled 11)] 1 [] rfl
  cases hrest

end Degoonification.WatchdogSupervisor
