import Degoonification.Daemon.Detector
import Degoonification.Ipc.Daemon
import Degoonification.Overlay.Shown

/-! The way of a picture from the capture to the screen, as the detector thread and the
main loop of the daemon run it, with the commands that change it. An iteration of the
thread and a step of the loop are taken whole here: these are the runs in which no
command comes in the middle of an analysis, and nothing is published between the copy of
a frame and the end of its drawing. Once the loop has rendered, the screen shows exactly
the boxes the tracker returned for the last picture, since a frame comes with every list
that has boxes and keeps `render_boxes` from skipping it; and a detection is painted over
unless its shield lags behind it by more than the padding. -/

namespace Degoonification

open VisualAnchorTracker Overlay

structure Guard where
  modelLoaded : Bool
  tracker : VisualAnchorTracker
  visualBlurPaused : Bool := false
  latestRenderedBoxes : List BoundingBox := []
  sharedFrame : VideoFrame := {}
  rawFrameSeq : ℕ := 0
  lastProcessedSeq : ℕ := 0
  overlay : Session

namespace Guard

/-- An iteration of the detector thread with a captured frame, a look of the main loop
at the counter, and the commands. -/
inductive Event where
  | analyse (frame : VideoFrame) (now : ℕ)
  | present
  | pause | resume
  | setPadding (ratio : ℚ)

/-- The body of the detector thread's loop. -/
def analyse (D : Detector) (s : Guard) (frame : VideoFrame) (now : ℕ) : Guard :=
  if !s.visualBlurPaused && s.modelLoaded then
    let p := s.tracker.processFrame frame (D.detections frame) now
    { s with
      tracker := p.1
      latestRenderedBoxes := p.2
      sharedFrame :=
        if p.2 ≠ [] ∧ frame.data.any fun data => 0 < data.length then frame else s.sharedFrame
      rawFrameSeq := s.rawFrameSeq + 1 }
  else { s with latestRenderedBoxes := [], rawFrameSeq := s.rawFrameSeq + 1 }

/-- A call of `render_boxes` by the main loop. -/
def renderBoxes (s : Guard) (boxes : List BoundingBox) (frame : Option VideoFrame) :
    Option Guard :=
  (s.overlay.step (.render boxes frame)).map fun overlay => { s with overlay }

/-- The frame that goes with the boxes. -/
def currentFrame (s : Guard) : Option VideoFrame :=
  if s.latestRenderedBoxes = [] then none else some s.sharedFrame

/-- Step 3 of the main loop. -/
def present (s : Guard) : Option Guard :=
  if s.rawFrameSeq = s.lastProcessedSeq then some s
  else if s.visualBlurPaused then
    { s with lastProcessedSeq := s.rawFrameSeq }.renderBoxes [] none
  else
    { s with lastProcessedSeq := s.rawFrameSeq }.renderBoxes s.latestRenderedBoxes s.currentFrame

def step (D : Detector) (s : Guard) : Event → Option Guard
  | .analyse frame now => some (s.analyse D frame now)
  | .present => s.present
  | .pause => { s with visualBlurPaused := true, tracker := s.tracker.reset }.renderBoxes [] none
  | .resume => some { s with visualBlurPaused := false }
  | .setPadding ratio =>
    some { s with tracker := s.tracker.setConfig (Ipc.trackerConfig ratio) }

/-! ### What every step keeps -/

/-- What a captured frame has, and what a padding must not be. -/
def Event.Sound : Event → Prop
  | .analyse frame _ => frame.Valid
  | .setPadding ratio => 0 ≤ ratio
  | _ => True

/-- A configuration that smooths, pads outward and keeps what it has just seen. -/
structure Reasonable (config : AnchorTrackerConfig) : Prop where
  padding : 0 ≤ config.paddingRatio
  ema : 0 ≤ config.emaAlpha ∧ config.emaAlpha ≤ 1
  persistence : 0 < config.persistenceWindowMs
  decay : 0 < config.dynamicDecayMs

theorem reasonable_trackerConfig {ratio : ℚ} (h : 0 ≤ ratio) :
    Reasonable (Ipc.trackerConfig ratio) := by
  have hema : (0 : ℚ) ≤ 70 / 100 ∧ (70 / 100 : ℚ) ≤ 1 := by decide +kernel
  exact ⟨h, hema, Nat.succ_pos _, Nat.succ_pos _⟩

/-- Between steps, on a `w` by `h` screen. -/
structure Watching (w h : UInt32) (s : Guard) : Prop where
  config : Reasonable s.tracker.config
  shields : AllOnScreen s.tracker.shields
  latest : ∀ b ∈ s.latestRenderedBoxes, OnScreen b
  frame : s.sharedFrame.Valid
  seq : s.lastProcessedSeq ≤ s.rawFrameSeq
  overlay : ∃ impl, Steady w h s.overlay impl

/-- The sides of a screen on which no 32-bit product of the paint loops wraps. -/
structure Ordinary (w h : UInt32) : Prop where
  area : w.toNat * h.toNat ≤ 2 ^ 32
  width : w.toNat ≤ 2 ^ 31
  height : h.toNat ≤ 2 ^ 31

variable {w h : UInt32}

/-- A call with a frame for every list of boxes leaves exactly its boxes on screen. -/
theorem shows_exactly (hscreen : Ordinary w h) {o : Session} {impl : Impl}
    (ho : Steady w h o impl) {boxes : List BoundingBox} {frame : Option VideoFrame}
    (hframe : frame = none → boxes = []) (hboxes : ∀ b ∈ boxes, OnScreen b) :
    ∃ o' impl', o.step (.render boxes frame) = some o' ∧ Steady w h o' impl' ∧
      o'.config = o.config ∧ Displays o'.config impl' boxes := by
  cases hearly : impl.returnsEarly boxes frame with
  | true =>
    have hlast : impl.lastRenderedBoxes = boxes := by
      have hnear := near_of_returnsEarly ho.presenting.configured hearly
      rw [Impl.returnsEarly, ho.presenting.configured, Bool.not_true, Bool.false_or,
        Bool.or_eq_true, Bool.and_eq_true, Bool.and_eq_true, List.isEmpty_iff,
        List.isEmpty_iff, Option.isNone_iff_eq_none] at hearly
      have hnil : boxes = [] := hearly.elim And.left fun h => hframe h.2
      rw [hnil] at hnear ⊢
      exact List.forall₂_nil_right_iff.mp hnear
    refine ⟨o, impl, ?_, ho, rfl, hlast ▸ ho.presenting.displays⟩
    simp only [Session.step, ho.running, ho.overlay, hearly, if_true, Bool.false_eq_true, if_false]
  | false =>
    have hun : ∀ b ∈ boxes, Unwrapped o.config impl.width impl.height frame b := by
      intro b _
      rw [ho.presenting.width, ho.presenting.height]
      exact unwrapped_of_small hscreen.area hscreen.width hscreen.height b
    obtain ⟨t, hrender, hpresenting, hlast⟩ := ho.presenting.paint hearly
      (fun b hb => (hboxes b hb).edgesInSquare) hun
    refine ⟨o.paint impl boxes frame, t, ?_, ?_⟩
    · simp only [Session.step, ho.running, ho.overlay, hearly, Bool.false_eq_true, if_false]
    · simp only [Session.paint, hrender]
      exact ⟨⟨ho.running, rfl, hpresenting⟩, trivial, hlast ▸ hpresenting.displays⟩

section Steps

variable {D : Detector} {s : Guard}

theorem Watching.renderBoxes (hscreen : Ordinary w h) (hs : Watching w h s)
    {boxes : List BoundingBox} {frame : Option VideoFrame} (hframe : frame = none → boxes = [])
    (hboxes : ∀ b ∈ boxes, OnScreen b) :
    ∃ o impl, s.renderBoxes boxes frame = some { s with overlay := o } ∧
      Watching w h { s with overlay := o } ∧ o.impl = some impl ∧
      o.config = s.overlay.config ∧ Displays o.config impl boxes := by
  obtain ⟨impl, himpl⟩ := hs.overlay
  obtain ⟨o, impl', hstep, hsteady, hconfig, hdisplays⟩ :=
    shows_exactly hscreen himpl hframe hboxes
  refine ⟨o, impl', by rw [Guard.renderBoxes, hstep]; rfl, ?_, hsteady.overlay, hconfig, hdisplays⟩
  exact ⟨hs.config, hs.shields, hs.latest, hs.frame, hs.seq, impl', hsteady⟩

theorem Watching.clear (hscreen : Ordinary w h) (hs : Watching w h s) :
    ∃ t, s.renderBoxes [] none = some t ∧ Watching w h t := by
  obtain ⟨o, -, hrender, hwatching, -⟩ := hs.renderBoxes hscreen
    (fun _ : (none : Option VideoFrame) = none => rfl) (List.forall_mem_nil _)
  exact ⟨_, hrender, hwatching⟩

theorem currentFrame_eq_none (s : Guard) (hnone : s.currentFrame = none) :
    s.latestRenderedBoxes = [] := by
  rw [currentFrame] at hnone
  split_ifs at hnone with hnil
  exact hnil

theorem Watching.analyse (hs : Watching w h s) {frame : VideoFrame} (hframe : frame.Valid)
    (now : ℕ) : Watching w h (s.analyse D frame now) := by
  rw [Guard.analyse]
  split_ifs
  · have hdets : ∀ d ∈ D.detections frame, OnScreen d :=
      fun _ => Detector.onScreen_of_mem_detections
    refine ⟨hs.config, hs.shields.processFrame hs.config.ema.1 hs.config.ema.2 frame hdets now,
      fun b hb => ?_, ?_, hs.seq.trans (Nat.le_succ _), hs.overlay⟩
    · exact onScreen_of_mem_returned hs.config.padding hs.config.ema.1 hs.config.ema.2
        hs.shields hdets hb
    · dsimp only
      split_ifs
      · exact hframe
      · exact hs.frame
  · exact ⟨hs.config, hs.shields, fun b hb => absurd hb List.not_mem_nil, hs.frame,
      hs.seq.trans (Nat.le_succ _), hs.overlay⟩

theorem Watching.present (hscreen : Ordinary w h) (hs : Watching w h s) :
    ∃ t, s.present = some t ∧ Watching w h t := by
  rw [Guard.present]
  have hs' : Watching w h { s with lastProcessedSeq := s.rawFrameSeq } :=
    ⟨hs.config, hs.shields, hs.latest, hs.frame, le_rfl, hs.overlay⟩
  split_ifs
  · exact ⟨s, rfl, hs⟩
  · exact hs'.clear hscreen
  · obtain ⟨o, -, hrender, hwatching, -⟩ := hs'.renderBoxes hscreen s.currentFrame_eq_none
      hs.latest
    exact ⟨_, hrender, hwatching⟩

/-- A list with something new is on screen once it is presented. -/
theorem Watching.present_displays (hscreen : Ordinary w h) (hs : Watching w h s)
    (hnew : s.lastProcessedSeq < s.rawFrameSeq) (hactive : s.visualBlurPaused = false) :
    ∃ t impl, s.present = some t ∧ t.overlay.impl = some impl ∧
      Displays t.overlay.config impl s.latestRenderedBoxes := by
  have hs' : Watching w h { s with lastProcessedSeq := s.rawFrameSeq } :=
    ⟨hs.config, hs.shields, hs.latest, hs.frame, le_rfl, hs.overlay⟩
  obtain ⟨o, impl, hrender, -, himpl, -, hdisplays⟩ := hs'.renderBoxes hscreen
    s.currentFrame_eq_none hs.latest
  rw [Guard.present, if_neg hnew.ne', if_neg (Bool.not_eq_true _ ▸ hactive)]
  exact ⟨_, impl, hrender, himpl, hdisplays⟩

theorem analyse_active (hactive : s.visualBlurPaused = false) (hmodel : s.modelLoaded = true)
    (frame : VideoFrame) (now : ℕ) :
    (s.analyse D frame now).latestRenderedBoxes =
        (s.tracker.processFrame frame (D.detections frame) now).2 ∧
      (s.analyse D frame now).visualBlurPaused = false ∧
      (s.analyse D frame now).rawFrameSeq = s.rawFrameSeq + 1 ∧
      (s.analyse D frame now).lastProcessedSeq = s.lastProcessedSeq := by
  have hcond : (!s.visualBlurPaused && s.modelLoaded) = true := by
    rw [hactive, hmodel]
    rfl
  rw [Guard.analyse, if_pos hcond]
  exact ⟨rfl, hactive, rfl, rfl⟩

/-- Every step is possible, and leaves the daemon watching. -/
theorem Watching.step (hscreen : Ordinary w h) (hs : Watching w h s) {e : Event}
    (he : e.Sound) : ∃ t, s.step D e = some t ∧ Watching w h t := by
  cases e with
  | analyse frame now => exact ⟨_, rfl, hs.analyse he now⟩
  | present => exact hs.present hscreen
  | pause =>
    have hs' : Watching w h { s with visualBlurPaused := true, tracker := s.tracker.reset } :=
      ⟨hs.config, fun _ hb => absurd hb List.not_mem_nil, hs.latest, hs.frame, hs.seq, hs.overlay⟩
    exact hs'.clear hscreen
  | resume => exact ⟨_, rfl, hs.config, hs.shields, hs.latest, hs.frame, hs.seq, hs.overlay⟩
  | setPadding ratio =>
    exact ⟨_, rfl, reasonable_trackerConfig he, hs.shields, hs.latest, hs.frame, hs.seq,
      hs.overlay⟩

/-! ### Runs -/

/-- The daemon once its overlay is configured and nothing was captured. -/
structure Fresh (w h : UInt32) (s : Guard) : Prop where
  config : Reasonable s.tracker.config
  shields : s.tracker.shields = []
  latest : s.latestRenderedBoxes = []
  frame : s.sharedFrame.Valid
  seq : s.lastProcessedSeq = s.rawFrameSeq
  overlay : ∃ impl, Blank w h s.overlay impl

theorem Fresh.watching (hs : Fresh w h s) : Watching w h s where
  config := hs.config
  shields := by
    rw [hs.shields]
    exact fun _ hb => absurd hb List.not_mem_nil
  latest := by
    rw [hs.latest]
    exact fun _ hb => absurd hb List.not_mem_nil
  frame := hs.frame
  seq := hs.seq.le
  overlay := hs.overlay.imp fun _ himpl => himpl.steady

theorem Watching.exec (hscreen : Ordinary w h) {events : List Event}
    (hevents : ∀ e ∈ events, e.Sound) (hs : Watching w h s) :
    ∃ t, Runs.exec (Guard.step D) s events = some t ∧ Watching w h t := by
  induction events generalizing s with
  | nil => exact ⟨s, rfl, hs⟩
  | cons e events ih =>
    obtain ⟨he, hrest⟩ := List.forall_mem_cons.mp hevents
    obtain ⟨u, hu, hwatching⟩ := hs.step (D := D) hscreen he
    obtain ⟨t, ht, hwatching'⟩ := ih hrest hwatching
    exact ⟨t, Runs.exec_cons.mpr ⟨u, hu, ht⟩, hwatching'⟩

/-- Every pixel of the box is painted on the displayed buffer. -/
def PaintedOver (config : OverlayConfig) (impl : Impl) (d : BoundingBox) : Prop :=
  ∀ y < impl.height.toNat, ∀ x < impl.width.toNat, Covered impl.width impl.height [d] x y →
    IsPaint config ((impl.buffers impl.currentBuffer).data (y * impl.width.toNat + x))

theorem paintedOver_of_inside {config : OverlayConfig} {impl : Impl} {boxes : List BoundingBox}
    (hdisplays : Displays config impl boxes) {b d : BoundingBox} (hb : b ∈ boxes)
    (hin : BoundingBox.Inside d b) : PaintedOver config impl d := by
  rintro y hy x hx ⟨c, hc, ⟨hl, hr⟩, ht, hbot⟩
  obtain rfl := List.mem_singleton.mp hc
  have hfloor {p q : ℚ} (hpq : p ≤ q) (n : ℕ) : ⌊p * n⌋₊ ≤ ⌊q * n⌋₊ :=
    Nat.floor_mono (mul_le_mul_of_nonneg_right hpq n.cast_nonneg)
  exact (hdisplays y hy x hx).1 ⟨b, hb, ⟨(hfloor hin.left _).trans hl,
    hr.trans_le (hfloor hin.right _)⟩, (hfloor hin.top _).trans ht,
    hbot.trans_le (hfloor hin.bottom _)⟩

/-- In every state of a run, a frame that is analysed and presented leaves on screen the
boxes the tracker returns for it and nothing else. Each proposal that passes the tests is
detected or overlapped by a detection of at least its confidence; and a detection is
painted over wherever its shield is within the padding of it, or where it meets no shield
and no other detection. -/
theorem candidate_painted (hscreen : Ordinary w h) {start : Guard} (hstart : Fresh w h start)
    {events : List Event} (hevents : ∀ e ∈ events, e.Sound)
    (hrun : Runs.exec (Guard.step D) start events = some s) (hactive : s.visualBlurPaused = false)
    (hmodel : s.modelLoaded = true) {frame : VideoFrame} {now : ℕ}
    (hframe : (Event.analyse frame now).Sound) :
    let dets := D.detections frame
    ∃ t impl, Runs.exec (Guard.step D) s [.analyse frame now, .present] = some t ∧
      t.overlay.impl = some impl ∧
      Displays t.overlay.config impl (s.tracker.processFrame frame dets now).2 ∧
      ∀ c ∈ D.candidates frame, ∃ k d shield, dets[k]? = some d ∧
        (d = c ∨ D.config.nmsIouThreshold < d.iou c ∧ c.confidence ≤ d.confidence) ∧
        s.tracker.takerOf frame dets now k d = some shield ∧
        (WithinPadding s.tracker.config.paddingRatio d shield.box ∨
            s.tracker.FirstSeen frame dets now →
          PaintedOver t.overlay.config impl d) := by
  intro dets
  obtain ⟨s', hs', hwatch⟩ := hstart.watching.exec (D := D) hscreen hevents
  obtain rfl := Option.some.inj (hs'.symm.trans hrun)
  have hdets : ∀ d ∈ dets, OnScreen d := fun _ => Detector.onScreen_of_mem_detections
  obtain ⟨hlatest, hpaused, hseq, hlast⟩ := analyse_active (D := D) hactive hmodel frame now
  obtain ⟨t, impl, hpresent, himpl, hdisplays⟩ :=
    (hwatch.analyse (D := D) hframe now).present_displays hscreen
      (by rw [hseq, hlast]; exact Nat.lt_succ_of_le hwatch.seq) hpaused
  rw [hlatest] at hdisplays
  refine ⟨t, impl, ?_, himpl, hdisplays, fun c hc => ?_⟩
  · exact Runs.exec_cons.mpr ⟨_, rfl, Runs.exec_cons.mpr ⟨t, hpresent, rfl⟩⟩
  · obtain ⟨d, hd, hkept⟩ := D.exists_detection_of_candidate frame hc
    obtain ⟨k, hk⟩ := List.mem_iff_getElem?.mp hd
    obtain ⟨shield, hshield, hseen⟩ := exists_takerOf s'.tracker frame now hk
    have hpainted {s : TrackedShield} (hs : s ∈ s'.tracker.ingested frame dets now)
        (hseen : s.lastSeenMs = now)
        (hin : BoundingBox.Inside d (s.box.expanded s'.tracker.config.paddingRatio)) :
        PaintedOver t.overlay.config impl d := by
      obtain ⟨b, hb, hinb⟩ := exists_inside_processFrame
        (mem_shields_processFrame hs hwatch.config.persistence hwatch.config.decay hseen)
      exact paintedOver_of_inside hdisplays hb (hin.trans hinb)
    refine ⟨k, d, shield, hk, hkept, hshield, ?_⟩
    rintro (hpad | hfirst)
    · exact hpainted (List.mem_of_getElem? hshield) hseen (hpad.inside (hdets d hd))
    · obtain ⟨s, hs, hbox, hseen⟩ := hfirst.exists_shield hd
      have hpad : WithinPadding s'.tracker.config.paddingRatio d s.box :=
        hbox.symm ▸ withinPadding_self hwatch.config.padding (hdets d hd)
      exact hpainted hs hseen (hpad.inside (hdets d hd))

end Steps

/-- A network that always finds the same proposal. -/
def oneDetector : Detector where
  infer _ := some (OnnxDetector.oneProposal 320)
  sort := OnnxDetector.sortByConfidence
  perm _ := List.mergeSort_perm _ _
  sorted := OnnxDetector.pairwise_sortByConfidence

def smallGuard : Guard where
  modelLoaded := true
  tracker := { config := Ipc.trackerConfig (35 / 100) }
  overlay := smallSession

theorem fresh_smallGuard : Fresh 4 2 smallGuard where
  config := reasonable_trackerConfig (by decide +kernel)
  shields := rfl
  latest := rfl
  frame :=
    { width_lt := by decide, height_lt := by decide, stride_lt := by decide
      row := fun _ h => nomatch h
      size := fun _ h => nomatch h }
  seq := rfl
  overlay := ⟨_, smallSession_blank⟩

theorem firstSeen_grayFrame (t : VisualAnchorTracker) (ht : t.shields = []) (now : ℕ) :
    t.FirstSeen grayFrame (oneDetector.detections grayFrame) now := by
  have hone : (oneDetector.detections grayFrame).length = 1 := by decide +kernel
  obtain ⟨d, hd⟩ := List.length_eq_one_iff.mp hone
  refine ⟨fun s hs => ?_, hd ▸ List.pairwise_singleton _ d⟩
  rw [anchorStep, ht] at hs
  split_ifs at hs <;> exact absurd hs List.not_mem_nil

/-- The first frame after the padding was turned down. -/
theorem candidate_painted_smallGuard :
    ∃ s t impl, Runs.exec (step oneDetector) smallGuard [.setPadding (1 / 5)] = some s ∧
      Runs.exec (step oneDetector) s [.analyse grayFrame 5, .present] = some t ∧
      t.overlay.impl = some impl ∧
      ∀ c ∈ oneDetector.candidates grayFrame, ∃ d ∈ oneDetector.detections grayFrame,
        (d = c ∨ 45 / 100 < d.iou c ∧ c.confidence ≤ d.confidence) ∧
        PaintedOver t.overlay.config impl d := by
  have hsound : (Event.setPadding (1 / 5)).Sound := by
    change (0 : ℚ) ≤ 1 / 5
    norm_num
  have hframe : (Event.analyse grayFrame 5).Sound := grayFrame_valid
  obtain ⟨t, impl, hexec, himpl, -, hall⟩ := candidate_painted (D := oneDetector)
    (s := { smallGuard with tracker := smallGuard.tracker.setConfig (Ipc.trackerConfig (1 / 5)) })
    ⟨by decide, by decide, by decide⟩ fresh_smallGuard (List.forall_mem_singleton.mpr hsound)
    rfl rfl rfl hframe
  refine ⟨_, t, impl, rfl, hexec, himpl, fun c hc => ?_⟩
  obtain ⟨k, d, shield, hk, hkept, -, hpainted⟩ := hall c hc
  exact ⟨d, List.mem_of_getElem? hk, hkept,
    hpainted (Or.inr (firstSeen_grayFrame _ rfl 5))⟩

end Guard

end Degoonification
