import Degoonification.Ipc.Client
import Degoonification.Ipc.Padding
import Mathlib.Tactic.IntervalCases

/-! `TuiDashboard::run` as the only client of the daemon. A round of its loop reads
the status, waits for a key, and turns the key into a command that is computed from
that status; frames and displays of boxes go on in between. Abstractly the dashboard
is a switch and a dial of seven notches of 5%, and every session of the two programs
is one of the switch and the dial: the texts in between lose nothing. `std::to_string`
of a `float` is a parameter, as `std::stof` and `operator<<` are. -/

namespace Degoonification.Ipc

/-- The branches of the `switch` over the key. -/
inductive Press where
  | quit | toggle | plus | minus | relapse | other
  deriving DecidableEq

namespace Press

def ofKey (c : UInt8) : Press :=
  if c = 113 ∨ c = 81 ∨ c = 27 then quit
  else if c = 112 ∨ c = 80 then toggle
  else if c = 43 ∨ c = 61 then plus
  else if c = 45 ∨ c = 95 then minus
  else if c = 114 ∨ c = 82 then relapse
  else other

end Press

/-- `status` is that of the round under way, none between rounds. -/
structure Dashboard where
  daemon : Daemon
  running : Bool := true
  status : Option DaemonStatus := none

namespace Dashboard

variable (stof : Bytes → Option ℚ) (showRatio toString : ℚ → Bytes)

/-- The command a key sends. -/
def commandFor (status : DaemonStatus) : Press → Option Bytes
  | .toggle => some (if status.visualBlurPaused then Command.resume.text else Command.pause.text)
  | .plus => some (words .setPadding (toString (min (35 / 100) (status.paddingRatio + 5 / 100))))
  | .minus => some (words .setPadding (toString (max (5 / 100) (status.paddingRatio - 5 / 100))))
  | .relapse => some (words .relapse (ascii "TUI reset"))
  | .quit | .other => none

inductive Event where
  | refresh (c : Counters) (chunk : ℕ → ℕ)
  | press (c : Counters) (chunk : ℕ → ℕ) (key : UInt8)
  | noKey
  | frame (frame : VideoFrame) (detections : List BoundingBox) (now : ℕ)
  | render (boxes : ℕ)

/-- `get_status` while the daemon serves it; none for an exception of `parse_status`. -/
def getStatus (s : Dashboard) (c : Counters) (chunk : ℕ → ℕ) : Option DaemonStatus :=
  parseStatus stof (s.daemon.sendCommand stof showRatio c chunk Command.status.text).2

def step (s : Dashboard) : Event → Option Dashboard
  | .refresh c chunk =>
    match s.running, s.status with
    | true, none => (s.getStatus stof showRatio c chunk).map fun status =>
        { s with status := some status }
    | _, _ => none
  | .press c chunk key =>
    match s.status with
    | some status =>
      some { s with
        running := Press.ofKey key ≠ .quit
        status := none
        daemon := match commandFor toString status (Press.ofKey key) with
          | some command => (s.daemon.sendCommand stof showRatio c chunk command).1
          | none => s.daemon }
    | none => none
  | .noKey => s.status.map fun _ => { s with status := none }
  | .frame f detections now =>
    (s.daemon.step stof showRatio (.frame f detections now)).map fun d => { s with daemon := d }
  | .render boxes =>
    (s.daemon.step stof showRatio (.render boxes)).map fun d => { s with daemon := d }

def start (modelLoaded : Bool) : Dashboard := { daemon := .initial modelLoaded }

/-! ### The switch and the dial -/

/-- What a user sees the keys do. -/
structure Panel where
  paused : Bool := false
  notch : ℕ := 7
  deriving DecidableEq

namespace Panel

def press (p : Panel) : Press → Panel
  | .toggle => { p with paused := !p.paused }
  | .plus => { p with notch := min 7 (p.notch + 1) }
  | .minus => { p with notch := max 1 (p.notch - 1) }
  | .quit | .relapse | .other => p

def ratio (p : Panel) : ℚ := p.notch / 20

def after (p : Panel) : Event → Panel
  | .press _ _ key => p.press (Press.ofKey key)
  | _ => p

theorem notch_press {p : Panel} (h : 1 ≤ p.notch ∧ p.notch ≤ 7) (k : Press) :
    1 ≤ (p.press k).notch ∧ (p.press k).notch ≤ 7 := by
  cases k <;> simp only [press] <;> omega

theorem ratio_plus (p : Panel) : (p.press .plus).ratio = min (35 / 100) (p.ratio + 5 / 100) := by
  have h7 : (35 / 100 : ℚ) = 7 / 20 := by norm_num
  have h1 : p.ratio + 5 / 100 = (p.notch + 1) / 20 := by
    rw [ratio]
    ring
  rw [h7, h1, ratio, press, min_div_div_right (by norm_num)]
  push_cast
  rfl

theorem ratio_minus {p : Panel} (h : 1 ≤ p.notch) :
    (p.press .minus).ratio = max (5 / 100) (p.ratio - 5 / 100) := by
  have h1 : (5 / 100 : ℚ) = 1 / 20 := by norm_num
  have hsub : p.ratio - 5 / 100 = (p.notch - 1) / 20 := by
    rw [ratio]
    ring
  rw [hsub, h1, ratio, press, max_div_div_right (by norm_num)]
  push_cast [h]
  rfl

end Panel

/-- What the conversions do to the seven ratios of the dial: they print text that is
read back, and that travels. -/
structure Conversions : Prop where
  noNewline : ∀ q, newline ∉ showRatio q
  noNul : ∀ q, 0 ∉ showRatio q
  progress : (stof (ascii "0.45")).isSome
  showBack : ∀ k : ℕ, k ≤ 7 → 1 ≤ k → stof (showRatio ((k : ℚ) / 20)) = some ((k : ℚ) / 20)
  toStringBack : ∀ k : ℕ, k ≤ 7 → 1 ≤ k → stof (toString ((k : ℚ) / 20)) = some ((k : ℚ) / 20)
  deliverable : ∀ k : ℕ, k ≤ 7 → 1 ≤ k → Deliverable .setPadding (toString ((k : ℚ) / 20))

/-- Text that is one line and one C string. -/
def Quiet (event : Bytes) : Prop := newline ∉ event ∧ 0 ∉ event

instance (event : Bytes) : Decidable (Quiet event) := inferInstanceAs (Decidable (_ ∧ _))

/-- The daemon stands as the panel says, and so does the status of the round. -/
structure Simulates (p : Panel) (s : Dashboard) : Prop where
  notch : 1 ≤ p.notch ∧ p.notch ≤ 7
  paused : s.daemon.visualBlurPaused = p.paused
  ratio : s.daemon.paddingRatio = p.ratio
  config : s.daemon.tracker.config = trackerConfig p.ratio
  running : s.daemon.running = true
  event : Quiet s.daemon.lastEvent
  status : ∀ st, s.status = some st → st.visualBlurPaused = p.paused ∧ st.paddingRatio = p.ratio

/-- Nothing is said of a status that was not read. -/
theorem unread {P : DaemonStatus → Prop} (st : DaemonStatus)
    (h : (none : Option DaemonStatus) = some st) : P st :=
  absurd h.symm (Option.some_ne_none st)

theorem simulates_start (modelLoaded : Bool) : Simulates {} (start modelLoaded) where
  notch := by decide
  paused := rfl
  ratio := by
    change (35 / 100 : ℚ) = (7 : ℕ) / 20
    norm_num
  config := by
    change trackerConfig (35 / 100) = trackerConfig ((7 : ℕ) / 20)
    norm_num
  running := rfl
  event := (by decide : Quiet (ascii "Defense active and monitoring screen"))
  status := unread

section Simulation

variable {stof showRatio toString} {s s' : Dashboard} {p : Panel}

/-- A command without text. -/
theorem sendCommand_text (d : Daemon) (c : Counters) (chunk : ℕ → ℕ) (command : Command) :
    d.sendCommand stof showRatio c chunk command.text =
      ((d.handle stof showRatio c command.text []).1,
        readResponse chunk 0 (d.handle stof showRatio c command.text []).2) := by
  have hparse : parseRequest (requestText command.text) = (command.text, []) := by
    cases command <;> decide
  have hserve := @Daemon.serve_eq stof showRatio d c _ (Daemon.requestText_ne_nil command.text)
  rw [hparse] at hserve
  rw [Daemon.sendCommand, hserve]

/-- A command with text that travels. -/
theorem fst_sendCommand_words (d : Daemon) (c : Counters) (chunk : ℕ → ℕ) {command : Command}
    {args : Bytes} (h : Deliverable command args) :
    (d.sendCommand stof showRatio c chunk (words command args)).1 =
      (d.handle stof showRatio c command.text args).1 := by
  obtain ⟨args', hparse, hargs⟩ := parseRequest_requestText command args
  obtain rfl := hargs.mpr h
  have hserve := @Daemon.serve_eq stof showRatio d c _
    (Daemon.requestText_ne_nil (words command args'))
  rw [hparse] at hserve
  rw [Daemon.sendCommand, hserve]

/-- The status is read without an exception and as it was written. -/
theorem Simulates.getStatus (hconv : Conversions stof showRatio toString) (h : Simulates p s)
    (c : Counters) (chunk : ℕ → ℕ) :
    ∃ st, s.getStatus stof showRatio c chunk = some st ∧ s.daemon.Agrees c st ∧
      st.paddingRatio = s.daemon.paddingRatio := by
  have hcommand : Command.ofText Command.status.text = some .status := by decide
  have htext : (s.daemon.handle stof showRatio c Command.status.text []).2 =
      s.daemon.statusText showRatio c := by rw [Daemon.snd_handle, hcommand]
  have hnul := Daemon.nul_notMem_statusText hconv.noNul h.event.2 c
  have hratio : stof (showRatio s.daemon.paddingRatio) = some s.daemon.paddingRatio := by
    rw [h.ratio]
    exact hconv.showBack p.notch h.notch.2 h.notch.1
  obtain ⟨progress, hprogress⟩ := Option.isSome_iff_exists.mp hconv.progress
  refine ⟨s.daemon.readStatus c s.daemon.paddingRatio progress, ?_,
    Daemon.agrees_readStatus _ _ _ _, rfl⟩
  rw [Dashboard.getStatus, sendCommand_text, htext, readResponse_eq chunk 0 hnul,
    Daemon.statusText, parseStatus_lines stof Key.all _
      (Daemon.newline_notMem_value hconv.noNewline h.event.1 c),
    Daemon.foldlM_value, hratio, hprogress]
  rfl

/-- The daemon after a key, from the status of the round. -/
theorem Simulates.press (hconv : Conversions stof showRatio toString) (h : Simulates p s)
    {st : DaemonStatus} (hst : s.status = some st) (c : Counters) (chunk : ℕ → ℕ) (k : Press)
    (running : Bool) :
    Simulates (p.press k)
      { running, status := none,
        daemon := match commandFor toString st k with
          | some command => (s.daemon.sendCommand stof showRatio c chunk command).1
          | none => s.daemon } := by
  obtain ⟨hpaused, hratio⟩ := h.status st hst
  have hnotch := p.notch_press h.notch k
  have hquiet (q : ℚ) : Quiet (Daemon.paddingEvent q) := by
    simp only [Quiet, Daemon.paddingEvent, List.mem_append, not_or]
    exact ⟨⟨⟨by decide, newline_notMem_showInt _⟩, by decide⟩,
      ⟨by decide, nul_notMem_showInt _⟩, by decide⟩
  have hpadding {q : Panel} (hq : 1 ≤ q.notch ∧ q.notch ≤ 7) :
      (s.daemon.sendCommand stof showRatio c chunk (words .setPadding (toString q.ratio))).1 =
        { s.daemon with
          paddingRatio := q.ratio, tracker := s.daemon.tracker.setConfig (trackerConfig q.ratio),
          lastEvent := Daemon.paddingEvent q.ratio } := by
    have hcommand : Command.ofText Command.setPadding.text = some .setPadding := by decide
    have hdeliver : Deliverable .setPadding (toString q.ratio) :=
      hconv.deliverable q.notch hq.2 hq.1
    have hback : stof (toString q.ratio) = some q.ratio := hconv.toStringBack q.notch hq.2 hq.1
    rw [fst_sendCommand_words _ c chunk hdeliver, Daemon.handle, hcommand]
    simp only [hback]
  cases k with
  | quit | other =>
    exact ⟨h.notch, h.paused, h.ratio, h.config, h.running, h.event, unread⟩
  | relapse =>
    have hdeliver : Deliverable .relapse (ascii "TUI reset") := by
      constructor <;> decide +kernel
    have hcommand : Command.ofText Command.relapse.text = some .relapse := by decide
    have hdaemon : (s.daemon.sendCommand stof showRatio c chunk
        (words .relapse (ascii "TUI reset"))).1 =
          { s.daemon with lastEvent := ascii "Relapse logged: " ++ ascii "TUI reset" } := by
      rw [fst_sendCommand_words _ c chunk hdeliver, Daemon.handle, hcommand]
    have hquiet : Quiet (ascii "Relapse logged: " ++ ascii "TUI reset") := by decide
    simp only [commandFor, hdaemon]
    exact ⟨h.notch, h.paused, h.ratio, h.config, h.running, hquiet, unread⟩
  | toggle =>
    have hpause : Command.ofText Command.pause.text = some .pause := by decide
    have hresume : Command.ofText Command.resume.text = some .resume := by decide
    have hpauseQuiet : Quiet (ascii "Visual blur temporarily paused via CLI") := by decide
    have hresumeQuiet : Quiet (ascii "Visual blur resumed via CLI") := by decide
    cases hp : p.paused with
    | true =>
      simp only [commandFor, hpaused, hp, if_true, sendCommand_text, Daemon.handle, hresume]
      exact ⟨h.notch, by simp [Panel.press, hp], h.ratio, h.config, h.running, hresumeQuiet,
        unread⟩
    | false =>
      simp only [commandFor, hpaused, hp, Bool.false_eq_true, if_false, sendCommand_text,
        Daemon.handle, hpause]
      exact ⟨h.notch, by simp [Panel.press, hp], h.ratio, h.config, h.running, hpauseQuiet,
        unread⟩
  | plus =>
    simp only [commandFor, hratio, ← Panel.ratio_plus, hpadding hnotch]
    exact ⟨hnotch, h.paused, rfl, rfl, h.running, hquiet _, unread⟩
  | minus =>
    simp only [commandFor, hratio, ← Panel.ratio_minus h.notch.1, hpadding hnotch]
    exact ⟨hnotch, h.paused, rfl, rfl, h.running, hquiet _, unread⟩

/-- One event of the two programs is one of the panel. -/
theorem simulates_step (hconv : Conversions stof showRatio toString) {e : Event}
    (hstep : step stof showRatio toString s e = some s') (h : Simulates p s) :
    Simulates (p.after e) s' := by
  cases e with
  | refresh c chunk =>
    simp only [step] at hstep
    split at hstep
    · obtain ⟨st, hst, rfl⟩ := Option.map_eq_some_iff.mp hstep
      obtain ⟨st', hst', hagrees, hratio⟩ := h.getStatus hconv c chunk
      obtain rfl := Option.some.inj (hst.symm.trans hst')
      refine ⟨h.notch, h.paused, h.ratio, h.config, h.running, h.event, fun st'' hst'' => ?_⟩
      obtain rfl := Option.some.inj hst''
      exact ⟨hagrees.paused.trans h.paused, hratio.trans h.ratio⟩
    · cases hstep
  | press c chunk key =>
    simp only [step] at hstep
    split at hstep
    · next st hst => exact Option.some.inj hstep ▸ h.press hconv hst c chunk _ _
    · cases hstep
  | noKey =>
    obtain ⟨_, -, rfl⟩ := Option.map_eq_some_iff.mp hstep
    exact ⟨h.notch, h.paused, h.ratio, h.config, h.running, h.event, unread⟩
  | frame f dets now =>
    obtain rfl := Option.some.inj hstep
    exact ⟨h.notch, h.paused, h.ratio, h.config, h.running, h.event, h.status⟩
  | render boxes =>
    obtain rfl := Option.some.inj hstep
    simp only [Daemon.render]
    split_ifs
    · exact ⟨h.notch, h.paused, h.ratio, h.config, h.running, h.event, h.status⟩
    · refine ⟨h.notch, h.paused, h.ratio, h.config, h.running, ?_, h.status⟩
      simp only [Quiet, List.mem_append, not_or]
      exact ⟨⟨⟨by decide, newline_notMem_showNat _⟩, by decide⟩,
        ⟨by decide, nul_notMem_showNat _⟩, by decide⟩
    · exact ⟨h.notch, h.paused, h.ratio, h.config, h.running, h.event, h.status⟩

theorem simulates_exec (hconv : Conversions stof showRatio toString) {events : List Event} :
    ∀ {p : Panel} {s s' : Dashboard}, Simulates p s →
      Runs.exec (step stof showRatio toString) s events = some s' →
      Simulates (events.foldl Panel.after p) s' := by
  induction events with
  | nil =>
    intro p s s' h hrun
    exact Option.some.inj hrun ▸ h
  | cons e events ih =>
    intro p s s' h hrun
    obtain ⟨t, ht, hrest⟩ := Runs.exec_cons.mp hrun
    exact ih (simulates_step hconv ht h) hrest

end Simulation

/-- Whatever is pressed and displayed, the daemon stands where the switch and the dial
stand, between 5% and 35%, the next status is read without an exception and as it was
written, and the padding never takes anything from a shield. -/
theorem session_simulates_panel {stof : Bytes → Option ℚ} {showRatio toString : ℚ → Bytes}
    (hconv : Conversions stof showRatio toString) (modelLoaded : Bool) {events : List Event}
    {s : Dashboard}
    (hrun : Runs.exec (step stof showRatio toString) (start modelLoaded) events = some s) :
    let p := events.foldl Panel.after {}
    s.daemon.visualBlurPaused = p.paused ∧ s.daemon.paddingRatio = p.ratio ∧
      5 / 100 ≤ s.daemon.paddingRatio ∧ s.daemon.paddingRatio ≤ 35 / 100 ∧
      s.daemon.NeverShrinks ∧
      ∀ c chunk, ∃ st, s.getStatus stof showRatio c chunk = some st ∧ s.daemon.Agrees c st ∧
        st.paddingRatio = s.daemon.paddingRatio := by
  intro p
  have h : Simulates p s := simulates_exec hconv (simulates_start modelLoaded) hrun
  have hlo : (1 : ℚ) ≤ p.notch := by exact_mod_cast h.notch.1
  have hhi : (p.notch : ℚ) ≤ 7 := by exact_mod_cast h.notch.2
  have hratio : s.daemon.paddingRatio = p.notch / 20 := h.ratio
  refine ⟨h.paused, h.ratio, by linarith, by linarith, ?_, fun c chunk => h.getStatus hconv c chunk⟩
  rw [Daemon.neverShrinks_iff, h.config]
  change (0 : ℚ) ≤ p.notch / 20
  linarith

/-- `std::to_string` of a ratio: six digits behind the point. -/
def plainToString (ratio : ℚ) : Bytes :=
  let n := (truncToInt (ratio * 10 ^ 6 + 1 / 2)).toNat
  showNat (n / 10 ^ 6) ++ dot ::
    ([5, 4, 3, 2, 1, 0] : List ℕ).map fun i => 48 + UInt8.ofNat (n / 10 ^ i % 10)

theorem conversions_plain : Conversions plainStof plainShow plainToString where
  noNewline := Daemon.newline_notMem_plainShow
  noNul := Daemon.nul_notMem_plainShow
  progress := by decide +kernel
  showBack k h7 h1 := by interval_cases k <;> decide +kernel
  toStringBack k h7 h1 := by interval_cases k <;> decide +kernel
  deliverable k h7 h1 := by
    interval_cases k <;> constructor <;> decide +kernel

/-- A round each for padding less, a frame, and a pause. -/
def shortSession : List Event :=
  [.refresh {} fun _ => 99, .press {} (fun _ => 0) 45, .frame {} [] 0, .refresh {} fun _ => 1,
    .press {} (fun _ => 0) 112, .render 3, .refresh {} fun _ => 7, .noKey]

theorem session_simulates_panel_short :
    ∃ s, Runs.exec (step plainStof plainShow plainToString) (start true) shortSession = some s ∧
      let p := shortSession.foldl Panel.after {}
      s.daemon.visualBlurPaused = p.paused ∧ s.daemon.paddingRatio = p.ratio ∧
        5 / 100 ≤ s.daemon.paddingRatio ∧ s.daemon.paddingRatio ≤ 35 / 100 ∧
        s.daemon.NeverShrinks ∧
        ∀ c chunk, ∃ st, s.getStatus plainStof plainShow c chunk = some st ∧
          s.daemon.Agrees c st ∧ st.paddingRatio = s.daemon.paddingRatio := by
  have hsome : (Runs.exec (step plainStof plainShow plainToString) (start true)
      shortSession).isSome = true := by decide +kernel
  obtain ⟨s, hs⟩ := Option.isSome_iff_exists.mp hsome
  exact ⟨s, hs, session_simulates_panel conversions_plain true hs⟩

end Dashboard

end Degoonification.Ipc
