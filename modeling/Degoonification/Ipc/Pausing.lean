import Degoonification.Boxes.VisualAnchor
import Degoonification.Library.Runs

/-! `PAUSE` and `RESUME` on the main thread against the loop of the detector
thread. Every access to the flag, the tracker, the published boxes and the frame
counter is one step, and the steps of the two threads interleave freely. The
flag is tested once per iteration of the detector loop, so an iteration that
tested it before a `PAUSE` can hand its detections to the tracker after the
`reset`. Epochs, which the code does not record, count the pauses begun and the
resumes, and say where boxes come from. -/

namespace Degoonification.Ipc

/-- Where the main loop stands: before the requests, in the `PAUSE` handler after
the flag or after the `reset`, before the counter is loaded, and before the
published boxes are copied for the counter that was loaded. -/
inductive MainPhase where
  | poll | flagged | wiped | look
  | copying (seq : ℕ)
  deriving DecidableEq

/-- Where the detector loop stands. `n` counts the pauses begun when the flag was
tested, `r` the resumes when the frame was captured, and `from` those of all
frames behind a list of boxes. -/
inductive WorkerPhase where
  | top | clearing
  | tested (n : ℕ)
  | captured (n r : ℕ) (frame : VideoFrame)
  | detected (n r : ℕ) (frame : VideoFrame) (detections : List BoundingBox)
  | processed (n : ℕ) (sources : List ℕ) (boxes : List BoundingBox)
  | published (n : ℕ)

structure Pipeline where
  modelLoaded : Bool
  visualBlurPaused : Bool := false
  tracker : VisualAnchorTracker
  latestRenderedBoxes : List BoundingBox := []
  rawFrameSeq : ℕ := 0
  lastProcessedSeq : ℕ := 0
  onScreen : List BoundingBox := []
  main : MainPhase := .poll
  worker : WorkerPhase := .top
  /-- Pauses begun, and resumes that ended a pause. -/
  pauses : ℕ := 0
  resumes : ℕ := 0
  /-- The resumes at the capture of the frames behind the shields, the published
  boxes and the boxes on screen. -/
  shieldSources : List ℕ := []
  latestSources : List ℕ := []
  screenSources : List ℕ := []

namespace Pipeline

inductive Event where
  | pause | reset | clearScreen | resume | noRequest | look | copy
  | test | capture (frame : Option VideoFrame) | detect (detections : List BoundingBox)
  | process (now : ℕ) | publish | count | clearLatest

def step (s : Pipeline) : Event → Option Pipeline
  -- the main loop: at most one request, then the boxes if the counter moved
  | .pause =>
    if s.main = .poll then
      some { s with visualBlurPaused := true, main := .flagged, pauses := s.pauses + 1 }
    else none
  | .reset =>
    if s.main = .flagged then
      some { s with tracker := s.tracker.reset, shieldSources := [], main := .wiped }
    else none
  | .clearScreen =>
    if s.main = .wiped then some { s with onScreen := [], screenSources := [], main := .look }
    else none
  | .resume =>
    if s.main = .poll then
      some { s with
        visualBlurPaused := false
        main := .look
        resumes := if s.visualBlurPaused then s.resumes + 1 else s.resumes }
    else none
  | .noRequest => if s.main = .poll then some { s with main := .look } else none
  | .look =>
    if s.main = .look then
      some { s with
        main := if s.rawFrameSeq = s.lastProcessedSeq then .poll else .copying s.rawFrameSeq }
    else none
  | .copy =>
    match s.main with
    | .copying seq =>
      some { s with
        lastProcessedSeq := seq
        onScreen := if s.visualBlurPaused then [] else s.latestRenderedBoxes
        screenSources := if s.visualBlurPaused then [] else s.latestSources
        main := .poll }
    | _ => none
  -- the detector loop
  | .test =>
    match s.worker with
    | .top =>
      some { s with
        worker := if s.visualBlurPaused = false ∧ s.modelLoaded then .tested s.pauses
          else .clearing }
    | _ => none
  | .capture frame =>
    match s.worker with
    | .tested n =>
      some { s with worker := match frame with
        | some frame => .captured n s.resumes frame
        | none => .top }
    | _ => none
  | .detect detections =>
    match s.worker with
    | .captured n r frame => some { s with worker := .detected n r frame detections }
    | _ => none
  | .process now =>
    match s.worker with
    | .detected n r frame detections =>
      let (tracker, boxes) := s.tracker.processFrame frame detections now
      let sources := r :: s.shieldSources
      some { s with tracker, shieldSources := sources, worker := .processed n sources boxes }
    | _ => none
  | .publish =>
    match s.worker with
    | .processed n sources boxes =>
      some { s with
        latestRenderedBoxes := boxes, latestSources := sources, worker := .published n }
    | _ => none
  | .count =>
    match s.worker with
    | .published _ => some { s with rawFrameSeq := s.rawFrameSeq + 1, worker := .top }
    | _ => none
  | .clearLatest =>
    match s.worker with
    | .clearing =>
      some { s with
        latestRenderedBoxes := [], latestSources := [], rawFrameSeq := s.rawFrameSeq + 1,
        worker := .top }
    | _ => none

/-- The `PAUSE` handler is running. -/
def inHandler (s : Pipeline) : Bool :=
  match s.main with
  | .flagged | .wiped => true
  | _ => false

/-- Nothing is left of a pause: while it lasts and its handler has finished the
tracker is empty, and otherwise every frame behind a shield or a box on screen
was captured after the last resume. -/
structure NothingBehind (s : Pipeline) : Prop where
  paused : s.visualBlurPaused = true → s.inHandler = false → s.tracker.shields = []
  shields : s.visualBlurPaused = false → ∀ r ∈ s.shieldSources, r = s.resumes
  shown : s.visualBlurPaused = false → ∀ r ∈ s.screenSources, r = s.resumes

/-- The pauses begun when the iteration under way tested the flag. -/
def testedAt (s : Pipeline) : Option ℕ :=
  match s.worker with
  | .top | .clearing => none
  | .tested n | .captured n _ _ | .detected n _ _ _ | .processed n _ _ | .published n => some n

/-- The condition on a step: what an iteration hands on, it hands on before
another `PAUSE` begins. -/
def inTime (s : Pipeline) : Event → Bool
  | .process _ | .publish | .count => s.testedAt = some s.pauses
  | _ => true

/-- The sources of what the iteration under way is going to hand on. -/
def pendingSources (s : Pipeline) : List ℕ :=
  match s.worker with
  | .captured _ r _ | .detected _ r _ _ => [r]
  | .processed _ sources _ => sources
  | .published _ => s.latestSources
  | _ => []

/-- The counter up to which the published boxes were seen, where they are going to
be compared with it. -/
def seenSeq (s : Pipeline) : Option ℕ :=
  match s.main with
  | .poll => some s.lastProcessedSeq
  | .copying seq => some seq
  | _ => none

structure Invariant (s : Pipeline) : Prop where
  handler : s.inHandler = true → s.visualBlurPaused = true
  empty : s.shieldSources = [] → s.tracker.shields = []
  wiped : s.visualBlurPaused = true → s.main ≠ .flagged → s.shieldSources = []
  dark : s.visualBlurPaused = true → s.inHandler = false → s.screenSources = []
  seen : s.visualBlurPaused = true → ∀ n, s.seenSeq = some n → s.rawFrameSeq ≠ n →
    s.latestSources = []
  shields : s.visualBlurPaused = false → ∀ r ∈ s.shieldSources, r = s.resumes
  shown : s.visualBlurPaused = false → ∀ r ∈ s.screenSources, r = s.resumes
  fresh : s.visualBlurPaused = false →
    s.rawFrameSeq ≠ s.lastProcessedSeq ∨ (∃ n, s.main = .copying n) →
    ∀ r ∈ s.latestSources, r = s.resumes
  worker : ∀ n, s.testedAt = some n → n ≤ s.pauses ∧
    (n = s.pauses → s.visualBlurPaused = false ∧ ∀ r ∈ s.pendingSources, r = s.resumes)

theorem Invariant.nothingBehind {s : Pipeline} (h : Invariant s) : NothingBehind s where
  paused hp hh := h.empty (h.wiped hp fun hf => by simp [inHandler, hf] at hh)
  shields := h.shields
  shown := h.shown

/-- A step that moves only the detector loop. -/
theorem Invariant.withWorker {s : Pipeline} (h : Invariant s) (w : WorkerPhase)
    (hw : ∀ n, testedAt { s with worker := w } = some n → n ≤ s.pauses ∧ (n = s.pauses →
      s.visualBlurPaused = false ∧ ∀ r ∈ pendingSources { s with worker := w }, r = s.resumes)) :
    Invariant { s with worker := w } :=
  ⟨h.handler, h.empty, h.wiped, h.dark, h.seen, h.shields, h.shown, h.fresh, hw⟩

section Main

variable {s : Pipeline} (h : Invariant s)
include h

theorem Invariant.pause :
    Invariant { s with visualBlurPaused := true, main := .flagged, pauses := s.pauses + 1 } where
  handler _ := rfl
  empty := h.empty
  wiped _ hne := absurd rfl hne
  dark _ hh := nomatch hh
  seen _ _ hn := nomatch hn
  shields hp := nomatch hp
  shown hp := nomatch hp
  fresh hp := nomatch hp
  worker n hn := by
    have hle : n ≤ s.pauses := (h.worker n hn).1
    refine ⟨Nat.le_succ_of_le hle, fun heq => ?_⟩
    have heq : n = s.pauses + 1 := heq
    omega

theorem Invariant.reset (hmain : s.main = .flagged) :
    Invariant { s with tracker := s.tracker.reset, shieldSources := [], main := .wiped } where
  handler _ := h.handler (by rw [inHandler, hmain])
  empty _ := rfl
  wiped _ _ := rfl
  dark _ hh := nomatch hh
  seen _ _ hn := nomatch hn
  shields _ _ hr := nomatch hr
  shown := h.shown
  fresh hp hor := h.fresh hp (hor.imp_right fun hn => nomatch hn)
  worker := h.worker

theorem Invariant.clearScreen (hmain : s.main = .wiped) :
    Invariant { s with onScreen := [], screenSources := [], main := .look } where
  handler hh := nomatch hh
  empty := h.empty
  wiped hp _ := h.wiped hp (by simp [hmain])
  dark _ _ := rfl
  seen _ _ hn := nomatch hn
  shields := h.shields
  shown _ _ hr := nomatch hr
  fresh hp hor := h.fresh hp (hor.imp_right fun hn => nomatch hn)
  worker := h.worker

/-- Until a `RESUME` is served nothing unseen has been published since the pause. -/
theorem Invariant.resume (hmain : s.main = .poll) :
    Invariant { s with
      visualBlurPaused := false
      main := .look
      resumes := if s.visualBlurPaused then s.resumes + 1 else s.resumes } := by
  cases hp : s.visualBlurPaused with
  | true =>
    have hshields : s.shieldSources = [] := h.wiped hp (by simp [hmain])
    have hscreen : s.screenSources = [] := h.dark hp (by rw [inHandler, hmain])
    have hseen : s.rawFrameSeq ≠ s.lastProcessedSeq → s.latestSources = [] :=
      h.seen hp _ (by rw [seenSeq, hmain])
    exact
      { handler := fun hh => nomatch hh
        empty := h.empty
        wiped := fun hp' => nomatch hp'
        dark := fun hp' => nomatch hp'
        seen := fun hp' => nomatch hp'
        shields := fun _ r hr => absurd (hshields ▸ hr) List.not_mem_nil
        shown := fun _ r hr => absurd (hscreen ▸ hr) List.not_mem_nil
        fresh := fun _ hor r hr => by
          obtain hne | ⟨_, hn⟩ := hor
          · exact absurd (hseen hne ▸ hr) List.not_mem_nil
          · exact nomatch hn
        worker := fun n hn => by
          obtain ⟨hle, hlive⟩ := h.worker n hn
          exact ⟨hle, fun heq => absurd (hlive heq).1 (by simp [hp])⟩ }
  | false =>
    exact
      { handler := fun hh => nomatch hh
        empty := h.empty
        wiped := fun hp' => nomatch hp'
        dark := fun hp' => nomatch hp'
        seen := fun hp' => nomatch hp'
        shields := fun _ => h.shields hp
        shown := fun _ => h.shown hp
        fresh := fun _ hor => h.fresh hp (hor.imp_right fun hn => nomatch hn)
        worker := fun n hn => ⟨(h.worker n hn).1, fun heq => ⟨rfl, ((h.worker n hn).2 heq).2⟩⟩ }

theorem Invariant.noRequest (hmain : s.main = .poll) : Invariant { s with main := .look } where
  handler hh := nomatch hh
  empty := h.empty
  wiped hp _ := h.wiped hp (by simp [hmain])
  dark hp _ := h.dark hp (by rw [inHandler, hmain])
  seen _ _ hn := nomatch hn
  shields := h.shields
  shown := h.shown
  fresh hp hor := h.fresh hp (hor.imp_right fun hn => nomatch hn)
  worker := h.worker

theorem Invariant.look (hmain : s.main = .look) :
    Invariant { s with
      main := if s.rawFrameSeq = s.lastProcessedSeq then .poll else .copying s.rawFrameSeq } := by
  have hwiped (hp : s.visualBlurPaused = true) : s.shieldSources = [] :=
    h.wiped hp (by simp [hmain])
  have hdark (hp : s.visualBlurPaused = true) : s.screenSources = [] :=
    h.dark hp (by rw [inHandler, hmain])
  split_ifs with hseq
  · exact
      { handler := fun hh => nomatch hh
        empty := h.empty
        wiped := fun hp _ => hwiped hp
        dark := fun hp _ => hdark hp
        seen := fun _ n hn hne => absurd (hseq.trans (Option.some.inj hn)) hne
        shields := h.shields
        shown := h.shown
        fresh := fun hp hor => h.fresh hp (hor.imp_right fun hn => nomatch hn)
        worker := h.worker }
  · exact
      { handler := fun hh => nomatch hh
        empty := h.empty
        wiped := fun hp _ => hwiped hp
        dark := fun hp _ => hdark hp
        seen := fun _ n hn hne => absurd (Option.some.inj hn) hne
        shields := h.shields
        shown := h.shown
        fresh := fun hp _ => h.fresh hp (.inl hseq)
        worker := h.worker }

theorem Invariant.copy {seq : ℕ} (hmain : s.main = .copying seq) :
    Invariant { s with
      lastProcessedSeq := seq
      onScreen := if s.visualBlurPaused then [] else s.latestRenderedBoxes
      screenSources := if s.visualBlurPaused then [] else s.latestSources
      main := .poll } where
  handler hh := nomatch hh
  empty := h.empty
  wiped hp _ := h.wiped hp (by simp [hmain])
  dark hp _ := if_pos hp
  seen hp n hn := h.seen hp n (by rw [seenSeq, hmain]; exact hn)
  shields := h.shields
  shown hp r hr := by
    have hr : r ∈ if s.visualBlurPaused = true then [] else s.latestSources := hr
    rw [hp, if_neg Bool.false_ne_true] at hr
    exact h.fresh hp (.inr ⟨seq, hmain⟩) r hr
  fresh hp _ := h.fresh hp (.inr ⟨seq, hmain⟩)
  worker := h.worker

end Main

section Worker

variable {s : Pipeline} (h : Invariant s)
include h

theorem Invariant.test :
    Invariant { s with
      worker := if s.visualBlurPaused = false ∧ s.modelLoaded then .tested s.pauses
        else .clearing } := by
  refine h.withWorker _ fun n hn => ?_
  split_ifs at hn ⊢ with htest
  · obtain rfl := Option.some.inj hn
    exact ⟨le_rfl, fun _ => ⟨htest.1, fun _ hr => nomatch hr⟩⟩
  · exact nomatch hn

theorem Invariant.capture {n : ℕ} (hworker : s.worker = .tested n) (frame : Option VideoFrame) :
    Invariant { s with worker := match frame with
      | some frame => .captured n s.resumes frame
      | none => .top } := by
  obtain ⟨hle, hlive⟩ := h.worker n (by rw [testedAt, hworker])
  refine h.withWorker _ fun m hm => ?_
  cases frame with
  | none => exact nomatch hm
  | some frame =>
    obtain rfl := Option.some.inj hm
    exact ⟨hle, fun heq => ⟨(hlive heq).1, fun r hr => List.mem_singleton.mp hr⟩⟩

theorem Invariant.detect {n r : ℕ} {frame : VideoFrame}
    (hworker : s.worker = .captured n r frame) (detections : List BoundingBox) :
    Invariant { s with worker := .detected n r frame detections } := by
  refine h.withWorker _ fun m hm => ?_
  have hbefore := h.worker m (by rw [testedAt, hworker]; exact hm)
  rw [pendingSources, hworker] at hbefore
  exact hbefore

/-- An iteration that no `PAUSE` has overtaken runs unpaused on fresh frames. -/
theorem Invariant.live (htested : s.testedAt = some s.pauses) :
    s.visualBlurPaused = false ∧ ∀ r ∈ s.pendingSources, r = s.resumes :=
  (h.worker s.pauses htested).2 rfl

/-- In time, the shields take in frames captured since the last resume only. -/
theorem Invariant.process {r : ℕ} {frame : VideoFrame} {detections : List BoundingBox}
    (hworker : s.worker = .detected s.pauses r frame detections) (now : ℕ) :
    Invariant { s with
      tracker := (s.tracker.processFrame frame detections now).1
      shieldSources := r :: s.shieldSources
      worker := .processed s.pauses (r :: s.shieldSources)
        (s.tracker.processFrame frame detections now).2 } := by
  obtain ⟨hp, hr⟩ := h.live (by rw [testedAt, hworker])
  have hsources : ∀ r' ∈ r :: s.shieldSources, r' = s.resumes := by
    refine List.forall_mem_cons.mpr ⟨hr r ?_, h.shields hp⟩
    rw [pendingSources, hworker]
    exact List.mem_singleton_self r
  exact
    { handler := h.handler
      empty := fun h0 => nomatch h0
      wiped := fun hp' => absurd hp' (by simp [hp])
      dark := h.dark
      seen := h.seen
      shields := fun _ => hsources
      shown := h.shown
      fresh := h.fresh
      worker := fun n hn => ⟨(Option.some.inj hn).ge, fun _ => ⟨hp, hsources⟩⟩ }

theorem Invariant.publish {sources : List ℕ} {boxes : List BoundingBox}
    (hworker : s.worker = .processed s.pauses sources boxes) :
    Invariant { s with
      latestRenderedBoxes := boxes, latestSources := sources,
      worker := .published s.pauses } := by
  obtain ⟨hp, hsources⟩ := h.live (by rw [testedAt, hworker])
  rw [pendingSources, hworker] at hsources
  exact
    { handler := h.handler
      empty := h.empty
      wiped := h.wiped
      dark := h.dark
      seen := fun hp' => absurd hp' (by simp [hp])
      shields := h.shields
      shown := h.shown
      fresh := fun _ _ => hsources
      worker := fun n hn => ⟨(Option.some.inj hn).ge, fun _ => ⟨hp, hsources⟩⟩ }

theorem Invariant.count (hworker : s.worker = .published s.pauses) :
    Invariant { s with rawFrameSeq := s.rawFrameSeq + 1, worker := .top } := by
  obtain ⟨hp, hsources⟩ := h.live (by rw [testedAt, hworker])
  rw [pendingSources, hworker] at hsources
  exact
    { handler := h.handler
      empty := h.empty
      wiped := h.wiped
      dark := h.dark
      seen := fun hp' => absurd hp' (by simp [hp])
      shields := h.shields
      shown := h.shown
      fresh := fun _ _ => hsources
      worker := fun n hn => nomatch hn }

theorem Invariant.clearLatest :
    Invariant { s with
      latestRenderedBoxes := [], latestSources := [], rawFrameSeq := s.rawFrameSeq + 1,
      worker := .top } where
  handler := h.handler
  empty := h.empty
  wiped := h.wiped
  dark := h.dark
  seen _ _ _ _ := rfl
  shields := h.shields
  shown := h.shown
  fresh _ _ _ hr := nomatch hr
  worker _ hn := nomatch hn

end Worker

theorem eq_of_guarded {p : Prop} [Decidable p] {t s' : Pipeline}
    (h : (if p then some t else none) = some s') : p ∧ t = s' :=
  ⟨(Option.ite_none_right_eq_some.mp h).1, Option.some.inj (Option.ite_none_right_eq_some.mp h).2⟩

theorem Invariant.step {s s' : Pipeline} {e : Event} (hstep : step s e = some s')
    (htime : s.inTime e = true) (h : Invariant s) : Invariant s' := by
  cases e with
  | pause => exact (eq_of_guarded hstep).2 ▸ h.pause
  | reset => exact (eq_of_guarded hstep).2 ▸ h.reset (eq_of_guarded hstep).1
  | clearScreen => exact (eq_of_guarded hstep).2 ▸ h.clearScreen (eq_of_guarded hstep).1
  | resume => exact (eq_of_guarded hstep).2 ▸ h.resume (eq_of_guarded hstep).1
  | noRequest => exact (eq_of_guarded hstep).2 ▸ h.noRequest (eq_of_guarded hstep).1
  | look => exact (eq_of_guarded hstep).2 ▸ h.look (eq_of_guarded hstep).1
  | copy =>
    rw [Pipeline.step] at hstep
    split at hstep
    · next seq hmain => exact Option.some.inj hstep ▸ h.copy hmain
    · exact nomatch hstep
  | test =>
    rw [Pipeline.step] at hstep
    split at hstep
    · exact Option.some.inj hstep ▸ h.test
    · exact nomatch hstep
  | capture frame =>
    rw [Pipeline.step] at hstep
    split at hstep
    · next n hworker => exact Option.some.inj hstep ▸ h.capture hworker frame
    · exact nomatch hstep
  | detect detections =>
    rw [Pipeline.step] at hstep
    split at hstep
    · next n r frame hworker => exact Option.some.inj hstep ▸ h.detect hworker detections
    · exact nomatch hstep
  | process now =>
    rw [Pipeline.step] at hstep
    split at hstep
    · next n r frame detections hworker =>
      obtain rfl : n = s.pauses := by simpa [inTime, testedAt, hworker] using htime
      exact Option.some.inj hstep ▸ h.process hworker now
    · exact nomatch hstep
  | publish =>
    rw [Pipeline.step] at hstep
    split at hstep
    · next n sources boxes hworker =>
      obtain rfl : n = s.pauses := by simpa [inTime, testedAt, hworker] using htime
      exact Option.some.inj hstep ▸ h.publish hworker
    · exact nomatch hstep
  | count =>
    rw [Pipeline.step] at hstep
    split at hstep
    · next n hworker =>
      obtain rfl : n = s.pauses := by simpa [inTime, testedAt, hworker] using htime
      exact Option.some.inj hstep ▸ h.count hworker
    · exact nomatch hstep
  | clearLatest =>
    rw [Pipeline.step] at hstep
    split at hstep
    · exact Option.some.inj hstep ▸ h.clearLatest
    · exact nomatch hstep

/-- The two threads before their first steps. -/
def start (modelLoaded : Bool) (config : AnchorTrackerConfig) : Pipeline :=
  { modelLoaded, tracker := { config } }

theorem invariant_start (modelLoaded : Bool) (config : AnchorTrackerConfig) :
    Invariant (start modelLoaded config) where
  handler hh := nomatch hh
  empty _ := rfl
  wiped hp := nomatch hp
  dark hp := nomatch hp
  seen hp := nomatch hp
  shields _ _ hr := nomatch hr
  shown _ _ hr := nomatch hr
  fresh _ _ _ hr := nomatch hr
  worker _ hn := nomatch hn

/-- A run whose iterations hand everything on before another `PAUSE` begins leaves
nothing behind in any state it reaches. -/
theorem nothingBehind_of_along (modelLoaded : Bool) (config : AnchorTrackerConfig)
    {events : List Event} {s : Pipeline}
    (htime : Runs.Along step (fun s e => s.inTime e = true) (start modelLoaded config) events)
    (hrun : Runs.exec step (start modelLoaded config) events = some s) : NothingBehind s :=
  (htime.exec_invariant (fun _ _ _ hstep htime h => h.step hstep htime)
    (invariant_start modelLoaded config) hrun).nothingBehind

def aBox : BoundingBox := { x := 2 / 5, y := 2 / 5, width := 1 / 5, height := 1 / 5 }

/-- A whole iteration, then a pause. -/
def orderly : List Event :=
  [.test, .capture (some {}), .detect [aBox], .process 0, .publish, .count, .noRequest, .look, .copy,
    .pause, .reset, .clearScreen, .look]

theorem orderly_nothingBehind :
    ∃ s, Runs.exec step (start true {}) orderly = some s ∧ NothingBehind s :=
  have htime : Runs.Along step (fun s e => s.inTime e = true) (start true {}) orderly := by
    decide +kernel
  ⟨_, rfl, nothingBehind_of_along true {} htime rfl⟩

/-- The flag is tested, the pause runs from beginning to end, and only then the
detections reach the tracker. -/
theorem shield_after_pause :
    ∃ s, Runs.exec step (start true {}) [.test, .capture (some {}), .pause, .reset, .clearScreen,
        .detect [aBox], .process 0] = some s ∧
      s.visualBlurPaused = true ∧ s.inHandler = false ∧ s.tracker.shields.map (·.box) = [aBox] :=
  ⟨_, rfl, rfl, rfl, by decide +kernel⟩

end Pipeline

end Degoonification.Ipc
