import Degoonification.Inference.Letterbox
import Degoonification.Library.Suppression

/-! `OnnxDetector::detect` behind the network: the proposals of the output tensor are
scored, mapped back from the letterbox to the frame, and thinned out by non-maximum
suppression. `std::sort` is a parameter, since it may order equal confidences as it
likes. -/

namespace Degoonification

structure DetectorConfig where
  confidenceThreshold : ℚ := 25 / 100
  nmsIouThreshold : ℚ := 45 / 100
  inputWidth : ℤ := 640
  inputHeight : ℤ := 640

/-- The first output tensor: `shape[1]`, `shape[2]` and the data. -/
structure Tensor where
  rows : ℕ
  cols : ℕ
  data : ℕ → ℚ

namespace OnnxDetector

def isExplicitClass (classId : ℤ) : Bool :=
  classId ∈ ([0, 2, 3, 4, 6, 13, 14, 15, 16, 17] : List ℤ)

/-! ### Proposals -/

/-- The loop over the classes: `max_score` and `best_class`. -/
def bestScore (t : Tensor) (col : ℕ) : ℚ × ℤ :=
  (List.range (t.rows - 4)).foldl (fun best c =>
    let score := t.data ((4 + c) * t.cols + col)
    if best.1 < score then (score, (Int32.ofNat c).toInt) else best) (0, -1)

/-- `scaled_w` and `scaled_h`, the input size where the letterbox has none. -/
def scaledOr (scaled input : ℤ) : ℚ := if 0 < scaled then scaled else input

/-- `norm_cx` and `norm_cy`. -/
def normCenter (pad : ℤ) (scaled c : ℚ) : ℚ := (c - pad) / scaled

/-- A proposal in the coordinates of the frame, position and size clamped in turn. -/
def unmap (config : DetectorConfig) (letterbox : LetterboxInfo) (cx cy w h : ℚ) : BoundingBox :=
  let scaledW := scaledOr letterbox.scaledW config.inputWidth
  let scaledH := scaledOr letterbox.scaledH config.inputHeight
  let normCx := normCenter letterbox.padX scaledW cx
  let normCy := normCenter letterbox.padY scaledH cy
  let normW := w / scaledW
  let normH := h / scaledH
  let x := clamp (normCx - normW * (1 / 2)) 0 1
  let y := clamp (normCy - normH * (1 / 2)) 0 1
  { x, y, width := clamp normW 0 (1 - x), height := clamp normH 0 (1 - y) }

/-- The body of the loop over the proposals. -/
def candidate (config : DetectorConfig) (letterbox : LetterboxInfo) (t : Tensor) (col : ℕ) :
    Option BoundingBox :=
  let best := bestScore t col
  if config.confidenceThreshold ≤ best.1 ∧ isExplicitClass best.2 then
    let box := unmap config letterbox (t.data col) (t.data (t.cols + col))
      (t.data (2 * t.cols + col)) (t.data (3 * t.cols + col))
    if 5 / 1000 < box.width ∧ 5 / 1000 < box.height then
      some { box with confidence := best.1, classId := best.2, timestampMs := 0 }
    else none
  else none

def candidates (config : DetectorConfig) (letterbox : LetterboxInfo) (t : Tensor) :
    List BoundingBox :=
  (List.range t.cols).filterMap (candidate config letterbox t)

/-! ### Non-maximum suppression -/

/-- `iou > nms_iou_threshold`. -/
def suppresses (config : DetectorConfig) (b c : BoundingBox) : Bool :=
  b.overlaps c config.nmsIouThreshold

/-- The two loops over the sorted candidates and their `suppressed` flags. -/
def nms (config : DetectorConfig) (sorted : List BoundingBox) : List BoundingBox :=
  Suppression.keepMarked (suppresses config) (sorted.map fun b => (b, false))

/-- `none` is a detector that is not initialized, a null input, an exception of the
runtime, or an output that is no tensor of three dimensions. -/
def detect (sort : List BoundingBox → List BoundingBox) (config : DetectorConfig)
    (letterbox : LetterboxInfo) : Option Tensor → List BoundingBox
  | none => []
  | some t => nms config (sort (candidates config letterbox t))

end OnnxDetector

end Degoonification
