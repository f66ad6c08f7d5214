import Degoonification.Boxes.BoundingBox
import Degoonification.Capture.VideoFrame

/-! `VisualAnchorTracker` over exact rational arithmetic: anchor sampling and
evaluation, the anchor step, EMA ingestion, the purge and the returned boxes. -/

namespace Degoonification

open BoundingBox

structure AnchorPixel where
  x : ℤ
  y : ℤ
  r : UInt8
  g : UInt8
  b : UInt8

structure TrackedShield where
  box : BoundingBox
  lastSeenMs : ℕ := 0
  createdMs : ℕ := 0
  isStatic : Bool := false
  anchors : List AnchorPixel := []

structure AnchorTrackerConfig where
  persistenceWindowMs : ℕ := 800
  dynamicDecayMs : ℕ := 280
  paddingRatio : ℚ := 20 / 100
  mergeIouThreshold : ℚ := 15 / 100
  anchorErrorThreshold : ℚ := 18
  emaAlpha : ℚ := 70 / 100

structure VisualAnchorTracker where
  config : AnchorTrackerConfig := {}
  shields : List TrackedShield := []

/-- `std::clamp`. -/
def clamp {α : Type*} [LT α] [DecidableLT α] (v lo hi : α) : α :=
  if v < lo then lo else if hi < v then hi else v

section Clamp

variable {α : Type*} [LinearOrder α] {v lo hi : α}

theorem clamp_mem (h : lo ≤ hi) : lo ≤ clamp v lo hi ∧ clamp v lo hi ≤ hi := by
  rw [clamp]
  split_ifs with hlo hhi
  · exact ⟨le_rfl, h⟩
  · exact ⟨h, le_rfl⟩
  · exact ⟨not_lt.mp hlo, not_lt.mp hhi⟩

theorem clamp_eq_self (hlo : lo ≤ v) (hhi : v ≤ hi) : clamp v lo hi = v := by
  rw [clamp, if_neg (not_lt.mpr hlo), if_neg (not_lt.mpr hhi)]

end Clamp

/-- `static_cast<int>` of a rational: truncation toward zero. -/
def truncToInt (q : ℚ) : ℤ := q.num.tdiv q.den

namespace VisualAnchorTracker

/-! ### Anchors -/

/-- The red, green and blue bytes of a pixel. -/
def getPixelRgb (frame : VideoFrame) (px py : ℤ) : UInt8 × UInt8 × UInt8 :=
  let p := frame.pixelOffset px py
  if frame.format = .rgb then (frame.byteAt p, frame.byteAt (p + 1), frame.byteAt (p + 2))
  else (frame.byteAt (p + 2), frame.byteAt (p + 1), frame.byteAt p)

/-- `add_pt`: the anchor at a point, none outside the frame, whose size is cast to `int`. -/
def addPt (frame : VideoFrame) (px py : ℤ) : List AnchorPixel :=
  if 0 ≤ px ∧ px < toInt32 frame.width ∧ 0 ≤ py ∧ py < toInt32 frame.height then
    let c := getPixelRgb frame px py
    [⟨px, py, c.1, c.2.1, c.2.2⟩]
  else []

def margin : ℤ := 14

def nSamples : ℕ := 6

def sampleAnchors (config : AnchorTrackerConfig) (frame : VideoFrame) (box : BoundingBox) :
    List AnchorPixel :=
  if frame.data.isNone ∨ frame.width = 0 ∨ frame.height = 0 then []
  else
    let exp := box.expanded config.paddingRatio
    let sx1 := clamp (truncToInt (exp.x * frame.width)) 0 ((frame.width : ℤ) - 1)
    let sy1 := clamp (truncToInt (exp.y * frame.height)) 0 ((frame.height : ℤ) - 1)
    let sx2 := clamp (truncToInt ((exp.x + exp.width) * frame.width)) 0 ((frame.width : ℤ) - 1)
    let sy2 := clamp (truncToInt ((exp.y + exp.height) * frame.height)) 0 ((frame.height : ℤ) - 1)
    let horizontal := (List.range' 1 nSamples).flatMap fun i : ℕ =>
      let px := sx1 + (i * (sx2 - sx1)).tdiv (nSamples + 1)
      addPt frame px (sy1 - margin) ++ addPt frame px (sy2 + margin)
    let vertical := (List.range' 1 nSamples).flatMap fun i : ℕ =>
      let py := sy1 + (i * (sy2 - sy1)).tdiv (nSamples + 1)
      addPt frame (sx1 - margin) py ++ addPt frame (sx2 + margin) py
    horizontal ++ vertical

/-- `std::abs` of the difference of two bytes. -/
def absDiff (a b : UInt8) : ℚ := |(a.toNat : ℚ) - b.toNat|

/-- One anchor of the loop in `eval_anchors`; the state is `sum_diff` and
`valid_count`. -/
def evalAnchor (frame : VideoFrame) (dyOffset : ℤ) (acc : ℚ × ℕ) (pt : AnchorPixel) : ℚ × ℕ :=
  let ny := pt.y + dyOffset
  if 0 ≤ ny ∧ ny < toInt32 frame.height ∧ 0 ≤ pt.x ∧ pt.x < toInt32 frame.width then
    let cur := getPixelRgb frame pt.x ny
    (acc.1 + (absDiff cur.1 pt.r + absDiff cur.2.1 pt.g + absDiff cur.2.2 pt.b) / 3, acc.2 + 1)
  else acc

def evalAnchors (frame : VideoFrame) (anchors : List AnchorPixel) (dyOffset : ℤ) : ℚ :=
  if frame.data.isNone ∨ anchors.isEmpty then 999
  else
    let r := anchors.foldl (evalAnchor frame dyOffset) (0, 0)
    if 4 ≤ r.2 then r.1 / r.2 else 999

/-! ### The anchor step -/

def testOffsets : List ℤ := [-80, -60, -40, -20, -10, 10, 20, 40, 60, 80]

/-- The search over the scroll offsets: `best_dy` and `best_err`. -/
def bestOffset (frame : VideoFrame) (anchors : List AnchorPixel) (staticErr : ℚ) : ℤ × ℚ :=
  testOffsets.foldl (fun best dy =>
    let err := evalAnchors frame anchors dy
    if err < best.2 then (dy, err) else best) (0, staticErr)

/-- The body of the loop over the shields in step 1. -/
def anchorShield (config : AnchorTrackerConfig) (frame : VideoFrame) (now : ℕ)
    (shield : TrackedShield) : TrackedShield :=
  if shield.anchors.isEmpty then { shield with isStatic := false }
  else
    let staticErr := evalAnchors frame shield.anchors 0
    if staticErr < config.anchorErrorThreshold then
      { shield with isStatic := true, lastSeenMs := now }
    else
      let best := bestOffset frame shield.anchors staticErr
      if best.2 < 8 ∧ best.1 ≠ 0 ∧ 8 < staticErr - best.2 then
        let normDy : ℚ := best.1 / frame.height
        { shield with
          box := { shield.box with y := clamp (shield.box.y + normDy) 0 (1 - shield.box.height) }
          anchors := shield.anchors.map fun a => { a with y := a.y + best.1 }
          isStatic := true
          lastSeenMs := now }
      else { shield with isStatic := false }

/-- Step 1, skipped for a frame without data. -/
def anchorStep (config : AnchorTrackerConfig) (frame : VideoFrame) (now : ℕ)
    (shields : List TrackedShield) : List TrackedShield :=
  if frame.data.isSome ∧ 0 < frame.width ∧ 0 < frame.height then
    shields.map (anchorShield config frame now)
  else shields

/-! ### Ingestion -/

/-- The new anchors of a shield, or the old ones when the frame has no data. -/
def resample (config : AnchorTrackerConfig) (frame : VideoFrame) (box : BoundingBox)
    (old : List AnchorPixel) : List AnchorPixel :=
  if frame.data.isSome ∧ 0 < frame.width then sampleAnchors config frame box else old

/-- The EMA of a shield's box toward a detection. -/
def blend (a : ℚ) (det box : BoundingBox) : BoundingBox :=
  { box with
    x := a * det.x + (1 - a) * box.x
    y := a * det.y + (1 - a) * box.y
    width := a * det.width + (1 - a) * box.width
    height := a * det.height + (1 - a) * box.height }

/-- A shield that a detection hits. -/
def smooth (config : AnchorTrackerConfig) (frame : VideoFrame) (now : ℕ) (det : BoundingBox)
    (shield : TrackedShield) : TrackedShield :=
  let box := blend config.emaAlpha det shield.box
  { shield with
    box, lastSeenMs := now, anchors := resample config frame box shield.anchors }

/-- The shield of a detection that hits none. -/
def newShield (config : AnchorTrackerConfig) (frame : VideoFrame) (now : ℕ) (det : BoundingBox) :
    TrackedShield :=
  { box := det, lastSeenMs := now, createdMs := now, isStatic := false,
    anchors := resample config frame det [] }

/-- The loop over the shields for one detection. -/
def ingest (config : AnchorTrackerConfig) (frame : VideoFrame) (now : ℕ) :
    List TrackedShield → BoundingBox → List TrackedShield
  | [], det => [newShield config frame now det]
  | shield :: rest, det =>
    if shield.box.overlaps det config.mergeIouThreshold then
      smooth config frame now det shield :: rest
    else shield :: ingest config frame now rest det

/-! ### The call -/

/-- The predicate of the purge. -/
def isStale (config : AnchorTrackerConfig) (now : ℕ) (s : TrackedShield) : Bool :=
  let maxAge := if s.isStatic then config.persistenceWindowMs else config.dynamicDecayMs
  now < s.lastSeenMs || maxAge ≤ now - s.lastSeenMs

/-- The shields once the detections are ingested. -/
def ingested (t : VisualAnchorTracker) (frame : VideoFrame) (rawDetections : List BoundingBox)
    (now : ℕ) : List TrackedShield :=
  rawDetections.foldl (ingest t.config frame now) (anchorStep t.config frame now t.shields)

/-- The boxes returned for a list of shields. -/
def render (config : AnchorTrackerConfig) (shields : List TrackedShield) : List BoundingBox :=
  mergeOverlappingBoxes (shields.map fun s => s.box.expanded config.paddingRatio)
    config.mergeIouThreshold

def processFrame (t : VisualAnchorTracker) (frame : VideoFrame) (rawDetections : List BoundingBox)
    (now : ℕ) : VisualAnchorTracker × List BoundingBox :=
  let kept := (t.ingested frame rawDetections now).filter fun s => !isStale t.config now s
  ({ t with shields := kept }, render t.config kept)

def setConfig (t : VisualAnchorTracker) (config : AnchorTrackerConfig) : VisualAnchorTracker :=
  { t with config }

def reset (t : VisualAnchorTracker) : VisualAnchorTracker := { t with shields := [] }

def activeCount (t : VisualAnchorTracker) : ℕ := t.shields.length

/-- The arguments of one call. -/
structure Call where
  frame : VideoFrame
  detections : List BoundingBox
  time : ℕ

/-- The tracker after a run of calls. -/
def runFrames (t : VisualAnchorTracker) (calls : List Call) : VisualAnchorTracker :=
  calls.foldl (fun t c => (t.processFrame c.frame c.detections c.time).1) t

/-- What every call of a run keeps, the run keeps. -/
theorem runFrames_keeps {I : VisualAnchorTracker → Prop} {calls : List Call}
    (hstep : ∀ t, I t → ∀ c ∈ calls, I (t.processFrame c.frame c.detections c.time).1)
    {t : VisualAnchorTracker} (ht : I t) : I (t.runFrames calls) :=
  List.foldlRecOn calls _ ht hstep

theorem config_runFrames (t : VisualAnchorTracker) (calls : List Call) :
    (t.runFrames calls).config = t.config :=
  runFrames_keeps (I := fun u => u.config = t.config) (fun _ hu _ _ => hu) rfl

end VisualAnchorTracker

end Degoonification
