import Degoonification.Boxes.AnchorReads
import Degoonification.Daemon.Guard
import Degoonification.Inference.Planes

/-! Frames of one picture. The network, the tracker and the overlay address the pixels of a
frame each with arithmetic of its own, and order its colors by tests of their own; nothing
else of its bytes is looked at. So two frames that show the same picture, with rows padded
otherwise or in another order of colors, are the same to the daemon: in any run one can be
captured for the other, and the tracker, the counters and the screen do not change. -/

namespace Degoonification

open VisualAnchorTracker Overlay

namespace VideoFrame

/-- The red, green and blue of a pixel. -/
def pixel (f : VideoFrame) (x y : ℕ) : UInt8 × UInt8 × UInt8 :=
  let data := f.data.getD []
  let p := y * f.stride + x * f.bytesPerPixel
  if f.format = .rgb then (data.getD p 0, data.getD (p + 1) 0, data.getD (p + 2) 0)
  else (data.getD (p + 2) 0, data.getD (p + 1) 0, data.getD p 0)

/-- A frame with pixels, of fewer than `2 ^ 32` bytes and with rows that the tracker can
address, in a format that all stages take for the same order of colors. -/
structure Plain (f : VideoFrame) : Prop where
  valid : f.Valid
  data : f.data.isSome
  width : 0 < f.width
  height : 0 < f.height
  size : f.stride * f.height < 2 ^ 32
  rows : RowsFit f
  format : f.format = .rgb ∨ f.format = .bgra ∨ f.format = .bgrx

/-- The same picture, or the same frame. -/
inductive Alike : VideoFrame → VideoFrame → Prop
  | refl (f : VideoFrame) : Alike f f
  | picture {f g : VideoFrame} (hf : Plain f) (hg : Plain g) (hwidth : f.width = g.width)
    (hheight : f.height = g.height)
    (hpixel : ∀ x < f.width, ∀ y < f.height, f.pixel x y = g.pixel x y) : Alike f g

/-! ### The three ways to address a pixel -/

section Address

variable {f : VideoFrame} (hf : Plain f)
include hf

theorem Plain.row : f.width * f.bytesPerPixel ≤ f.stride := by
  obtain ⟨d, hd⟩ := Option.isSome_iff_exists.mp hf.data
  exact hf.valid.row d hd

theorem Plain.any_length : (f.data.any fun d => 0 < d.length) = true := by
  obtain ⟨d, hd⟩ := Option.isSome_iff_exists.mp hf.data
  have hsize := hf.valid.size d hd
  have hpos := Nat.mul_pos (ImagePreprocessor.stride_pos hf.width hf.row) hf.height
  rw [hd, Option.any_some, decide_eq_true_eq]
  omega

/-- No product of a coordinate in the frame wraps. -/
theorem Plain.products_lt {x y : ℕ} (hx : x < f.width) (hy : y < f.height) :
    y * f.stride < 2 ^ 32 ∧ x * f.bytesPerPixel < 2 ^ 32 := by
  have hend := pixel_end_le hf.row hx hy
  have hsize := hf.size
  omega

/-- With fewer than `2 ^ 32` bytes, width and height are not negative as an `int`. -/
theorem Plain.dims_lt : f.width < 2 ^ 31 ∧ f.height < 2 ^ 31 := by
  have hbpp := f.three_le_bytesPerPixel
  have hrow := (Nat.mul_le_mul_left f.width hbpp).trans hf.row
  have hwidth := hf.width
  have hheight := hf.height
  have hrows := Nat.mul_le_mul_right f.height hrow
  have htall := Nat.mul_le_mul_right f.height (Nat.mul_le_mul_right 3 hwidth)
  have hwide := Nat.mul_le_mul_left (f.width * 3) hheight
  have hsize := hf.size
  omega

theorem Plain.getPixelRgb_eq {x y : ℕ} (hx : x < f.width) (hy : y < f.height) :
    getPixelRgb f x y = f.pixel x y := by
  obtain ⟨hw31, hh31⟩ := hf.dims_lt
  have hlast : x * f.bytesPerPixel ≤ (f.width - 1) * f.bytesPerPixel :=
    Nat.mul_le_mul_right _ (by omega)
  have hfit := hlast.trans_lt (hf.rows hf.data hf.height hw31 hh31)
  have hoffset : f.pixelOffset x y = (y * f.stride + x * f.bytesPerPixel : ℕ) := by
    rw [pixelOffset_eq (Int.natCast_nonneg x) hfit, Int.toNat_natCast, Int.toNat_natCast,
      Nat.mod_eq_of_lt (hf.products_lt hx hy).1]
  have hbyte (i : ℕ) : f.byteAt i = (f.data.getD []).getD i 0 := by
    rw [byteAt, if_pos (Int.natCast_nonneg i), Int.toNat_natCast]
  have h1 := hbyte (y * f.stride + x * f.bytesPerPixel + 1)
  have h2 := hbyte (y * f.stride + x * f.bytesPerPixel + 2)
  push_cast at h1 h2
  rw [getPixelRgb, hoffset, pixel, hbyte]
  push_cast
  rw [h1, h2]

/-- The offset of `preprocess`, which is also that of the mosaic. -/
theorem Plain.sourceOffset_eq {srcX srcY : UInt32} (hx : srcX.toNat < f.width)
    (hy : srcY.toNat < f.height) :
    ImagePreprocessor.sourceOffset f srcX srcY =
      srcY.toNat * f.stride + srcX.toNat * f.bytesPerPixel := by
  have hbpp : f.bytesPerPixel < 2 ^ 32 := by
    unfold bytesPerPixel
    split_ifs <;> omega
  obtain ⟨hrow, hcol⟩ := hf.products_lt hx hy
  rw [ImagePreprocessor.sourceOffset, if_pos (ImagePreprocessor.stride_pos hf.width hf.row)]
  rw [UInt32.toNat_mul, UInt32.toNat_mul,
    UInt32.toNat_ofNat_of_lt' hf.valid.stride_lt, UInt32.toNat_ofNat_of_lt' hbpp,
    Nat.mod_eq_of_lt hrow, Nat.mod_eq_of_lt hcol]

/-- The three numbers of a sampled pixel, red first. -/
theorem Plain.pixelWrites_eq (p : ImagePreprocessor) (info : LetterboxInfo) (x y : ℕ) :
    p.pixelWrites f info x y =
      let c := f.pixel (ImagePreprocessor.sourceIndex info.scale f.width x).toNat
        (ImagePreprocessor.sourceIndex info.scale f.height y).toNat
      let channelSize := p.targetWidth * p.targetHeight
      let idx := (info.padY + y).toNat * p.targetWidth + (info.padX + x).toNat
      [(idx, (c.1.toNat : ℚ) * (1 / 255)), (channelSize + idx, (c.2.1.toNat : ℚ) * (1 / 255)),
        (channelSize + channelSize + idx, (c.2.2.toNat : ℚ) * (1 / 255))] := by
  have hoffset := hf.sourceOffset_eq
    (ImagePreprocessor.sourceIndex_lt hf.width hf.valid.width_lt info.scale x)
    (ImagePreprocessor.sourceIndex_lt hf.height hf.valid.height_lt info.scale y)
  simp only [ImagePreprocessor.pixelWrites, hoffset, pixel]
  obtain hrgb | hbgra | hbgrx := hf.format
  · simp [hrgb]
  · simp [hbgra]
  · simp [hbgrx]

theorem Plain.blockColor_eq (x y curBw curBh : UInt32) :
    blockColor f x y curBw curBh =
      let c := f.pixel (min (x + curBw / 2) (UInt32.ofNat f.width - 1)).toNat
        (min (y + curBh / 2) (UInt32.ofNat f.height - 1)).toNat
      frosted c.1 c.2.1 c.2.2 := by
  have hoffset : sampleOffset f x y curBw curBh = _ := hf.sourceOffset_eq
    (toNat_min_last hf.width hf.valid.width_lt (x + curBw / 2))
    (toNat_min_last hf.height hf.valid.height_lt (y + curBh / 2))
  simp only [blockColor, hoffset, pixel]
  split_ifs <;> rfl

end Address

/-! ### What the stages make of alike frames -/

section Stages

variable {f g : VideoFrame} (h : Alike f g)
include h

theorem Alike.width_eq : f.width = g.width := by
  cases h with
  | refl => rfl
  | picture _ _ hwidth => exact hwidth

theorem Alike.height_eq : f.height = g.height := by
  cases h with
  | refl => rfl
  | picture _ _ _ hheight => exact hheight

theorem Alike.isNone_eq : f.data.isNone = g.data.isNone := by
  cases h with
  | refl => rfl
  | picture hf hg =>
    rw [Option.isNone_eq_false_iff.mpr hf.data, Option.isNone_eq_false_iff.mpr hg.data]

theorem Alike.isSome_eq : f.data.isSome = g.data.isSome := by
  rw [← Option.not_isNone, h.isNone_eq, Option.not_isNone]

/-- Both have bytes, as a frame with pixels has. -/
theorem Alike.any_eq : (f.data.any fun d => 0 < d.length) = g.data.any fun d => 0 < d.length := by
  cases h with
  | refl => rfl
  | picture hf hg => rw [hf.any_length, hg.any_length]

theorem Alike.pixelWrites_eq (p : ImagePreprocessor) (info : LetterboxInfo) (x y : ℕ) :
    p.pixelWrites f info x y = p.pixelWrites g info x y := by
  cases h with
  | refl => rfl
  | picture hf hg hwidth hheight hpixel =>
    rw [hf.pixelWrites_eq, hg.pixelWrites_eq, hpixel _
      (ImagePreprocessor.sourceIndex_lt hf.width hf.valid.width_lt info.scale x) _
      (ImagePreprocessor.sourceIndex_lt hf.height hf.valid.height_lt info.scale y),
      hwidth, hheight]

theorem Alike.preprocess_eq (p : ImagePreprocessor) : p.preprocess f = p.preprocess g := by
  have hletterbox : p.letterbox f = p.letterbox g := by
    simp only [ImagePreprocessor.letterbox, ImagePreprocessor.scale, h.width_eq, h.height_eq]
  unfold ImagePreprocessor.preprocess ImagePreprocessor.writes
  simp only [hletterbox, h.pixelWrites_eq, h.isNone_eq, h.width_eq, h.height_eq]

theorem Alike.detections_eq (D : Detector) : D.detections f = D.detections g := by
  rw [Detector.detections, Detector.detections, h.preprocess_eq]

theorem Alike.getPixelRgb_eq {px py : ℤ} (hx : 0 ≤ px ∧ px < toInt32 f.width)
    (hy : 0 ≤ py ∧ py < toInt32 f.height) :
    getPixelRgb f px py = getPixelRgb g px py := by
  cases h with
  | refl => rfl
  | picture hf hg hwidth hheight hpixel =>
    rw [toInt32_natCast hf.dims_lt.1] at hx
    rw [toInt32_natCast hf.dims_lt.2] at hy
    obtain ⟨x, rfl⟩ := Int.eq_ofNat_of_zero_le hx.1
    obtain ⟨y, rfl⟩ := Int.eq_ofNat_of_zero_le hy.1
    have hx : x < f.width := by exact_mod_cast hx.2
    have hy : y < f.height := by exact_mod_cast hy.2
    rw [hf.getPixelRgb_eq hx hy, hg.getPixelRgb_eq (hwidth ▸ hx) (hheight ▸ hy),
      hpixel x hx y hy]

theorem Alike.addPt_eq (px py : ℤ) : addPt f px py = addPt g px py := by
  unfold addPt
  rw [← h.width_eq, ← h.height_eq]
  split_ifs with hin
  · rw [h.getPixelRgb_eq ⟨hin.1, hin.2.1⟩ hin.2.2]
  · rfl

theorem Alike.sampleAnchors_eq (config : AnchorTrackerConfig) (box : BoundingBox) :
    sampleAnchors config f box = sampleAnchors config g box := by
  unfold sampleAnchors
  simp only [h.isNone_eq, h.width_eq, h.height_eq, h.addPt_eq]

theorem Alike.evalAnchor_eq (dyOffset : ℤ) : evalAnchor f dyOffset = evalAnchor g dyOffset := by
  funext acc pt
  simp only [evalAnchor, ← h.width_eq, ← h.height_eq]
  split_ifs with hin
  · rw [h.getPixelRgb_eq hin.2.2 ⟨hin.1, hin.2.1⟩]
  · rfl

theorem Alike.evalAnchors_eq : evalAnchors f = evalAnchors g := by
  funext anchors dyOffset
  unfold evalAnchors
  simp only [h.isNone_eq, h.evalAnchor_eq]

theorem Alike.anchorShield_eq (config : AnchorTrackerConfig) (now : ℕ) :
    anchorShield config f now = anchorShield config g now := by
  funext shield
  unfold anchorShield bestOffset
  rw [h.evalAnchors_eq, h.height_eq]

theorem Alike.anchorStep_eq (config : AnchorTrackerConfig) (now : ℕ) :
    anchorStep config f now = anchorStep config g now := by
  funext shields
  unfold anchorStep
  rw [h.anchorShield_eq, h.isSome_eq, h.width_eq, h.height_eq]

theorem Alike.resample_eq (config : AnchorTrackerConfig) :
    resample config f = resample config g := by
  funext box old
  unfold resample
  rw [h.sampleAnchors_eq, h.isSome_eq, h.width_eq]

/-- A shield is sampled in the one place that a detection goes to. -/
theorem Alike.ingest_eq (config : AnchorTrackerConfig) (now : ℕ) (shields : List TrackedShield)
    (det : BoundingBox) : ingest config f now shields det = ingest config g now shields det := by
  induction shields with
  | nil => simp only [ingest, newShield, h.resample_eq]
  | cons shield rest ih => simp only [ingest, smooth, h.resample_eq, ih]

theorem Alike.processFrame_eq (t : VisualAnchorTracker) (dets : List BoundingBox) (now : ℕ) :
    t.processFrame f dets now = t.processFrame g dets now := by
  have hingest : ingest t.config f now = ingest t.config g now := by
    funext shields det
    exact h.ingest_eq t.config now shields det
  unfold processFrame ingested
  rw [hingest, h.anchorStep_eq]

theorem Alike.blockColor_eq : blockColor f = blockColor g := by
  cases h with
  | refl => rfl
  | picture hf hg hwidth hheight hpixel =>
    funext x y curBw curBh
    rw [hf.blockColor_eq, hg.blockColor_eq, hpixel _
      (toNat_min_last hf.width hf.valid.width_lt (x + curBw / 2)) _
      (toNat_min_last hf.height hf.valid.height_lt (y + curBh / 2)), hwidth, hheight]

/-- The mosaic is drawn for both or for neither. -/
theorem Alike.boxWrites_eq (config : OverlayConfig) (n : ℕ) (sw sh : UInt32) (box : BoundingBox) :
    boxWrites config n sw sh (some f) box = boxWrites config n sw sh (some g) box := by
  simp only [boxWrites, mosaicSource, Option.filter_some, h.isSome_eq, h.width_eq, h.height_eq]
  split_ifs
  · simp only [mosaicWrites, h.blockColor_eq]
  · rfl

theorem Alike.paintEnds_eq (config : OverlayConfig) (sw sh : UInt32) (boxes : List BoundingBox) :
    paintEnds config sw sh (some f) boxes = paintEnds config sw sh (some g) boxes := by
  simp only [paintEnds, mosaicSource, Option.filter_some, h.isSome_eq, h.width_eq, h.height_eq]
  split_ifs <;> rfl

theorem Alike.renderBoxes_eq (impl : Impl) (config : OverlayConfig) (boxes : List BoundingBox) :
    impl.renderBoxes config boxes (some f) = impl.renderBoxes config boxes (some g) := by
  have hwrites : boxWrites config (2 ^ 32) impl.width impl.height (some f) =
      boxWrites config (2 ^ 32) impl.width impl.height (some g) := by
    funext box
    exact h.boxWrites_eq config _ _ _ box
  unfold Impl.renderBoxes paintWrites
  rw [h.paintEnds_eq, hwrites]
  rfl

theorem Alike.overlayStep_eq (o : Session) (boxes : List BoundingBox) :
    o.step (.render boxes (some f)) = o.step (.render boxes (some g)) := by
  have hpaint (impl : Impl) : o.paint impl boxes (some f) = o.paint impl boxes (some g) := by
    simp only [Session.paint, h.renderBoxes_eq]
  have hearly (impl : Impl) : impl.returnsEarly boxes (some f) = impl.returnsEarly boxes (some g) :=
    rfl
  cases himpl : o.impl with
  | none => simp only [Session.step, himpl]
  | some impl => simp only [Session.step, himpl, hpaint, hearly]

end Stages

end VideoFrame

namespace Guard

/-- The same but for the frame that goes with the boxes, which may be another one of the
same picture. -/
inductive Alike (s : Guard) : Guard → Prop
  | shared {g : VideoFrame} (h : s.sharedFrame.Alike g) : Alike s { s with sharedFrame := g }

/-- The same step, but for another frame of the same picture. -/
inductive Event.Alike : Event → Event → Prop
  | refl (e : Event) : Alike e e
  | analyse {f g : VideoFrame} (now : ℕ) (h : f.Alike g) : Alike (.analyse f now) (.analyse g now)

section Steps

variable {D : Detector} {s t : Guard}

theorem Alike.renderBoxes (h : Alike s t) {boxes : List BoundingBox}
    {frame frame' : Option VideoFrame} (hframe : Option.Rel VideoFrame.Alike frame frame') :
    Option.Rel Alike (s.renderBoxes boxes frame) (t.renderBoxes boxes frame') := by
  obtain ⟨hg⟩ := h
  have hstep : s.overlay.step (.render boxes frame) = s.overlay.step (.render boxes frame') := by
    cases hframe with
    | none => rfl
    | some hf => exact hf.overlayStep_eq s.overlay boxes
  unfold Guard.renderBoxes
  rw [hstep]
  cases s.overlay.step (.render boxes frame') with
  | none => exact .none
  | some o => exact .some (.shared hg)

theorem Alike.currentFrame (h : Alike s t) :
    Option.Rel VideoFrame.Alike s.currentFrame t.currentFrame := by
  obtain ⟨hg⟩ := h
  unfold Guard.currentFrame
  split_ifs
  · exact .none
  · exact .some hg

/-- A frame with bytes is kept on both sides or on neither. -/
theorem Alike.analyse (h : Alike s t) {f g : VideoFrame} (hframe : f.Alike g) (now : ℕ) :
    Alike (s.analyse D f now) (t.analyse D g now) := by
  obtain ⟨hg⟩ := h
  unfold Guard.analyse
  rw [hframe.detections_eq, hframe.processFrame_eq, hframe.any_eq]
  split_ifs
  · refine .shared ?_
    dsimp only
    split_ifs
    · exact hframe
    · exact hg
  · exact .shared hg

theorem Alike.present (h : Alike s t) : Option.Rel Alike s.present t.present := by
  have hframe := h.currentFrame
  obtain ⟨hg⟩ := h
  have hseen : Alike { s with lastProcessedSeq := s.rawFrameSeq }
      { s with lastProcessedSeq := s.rawFrameSeq, sharedFrame := _ } := .shared hg
  unfold Guard.present
  split_ifs
  · exact .some (.shared hg)
  · exact hseen.renderBoxes .none
  · exact hseen.renderBoxes hframe

theorem Alike.step (h : Alike s t) {e e' : Event} (he : e.Alike e') :
    Option.Rel Alike (s.step D e) (t.step D e') := by
  cases he with
  | analyse now hframe => exact .some (h.analyse hframe now)
  | refl =>
    cases e with
    | analyse frame now => exact .some (h.analyse (.refl frame) now)
    | present => exact h.present
    | pause =>
      obtain ⟨hg⟩ := h
      exact Alike.renderBoxes (s := { s with visualBlurPaused := true, tracker := s.tracker.reset })
        (.shared hg) .none
    | resume =>
      obtain ⟨hg⟩ := h
      exact .some (.shared hg)
    | setPadding ratio =>
      obtain ⟨hg⟩ := h
      exact .some (.shared hg)

end Steps

/-! ### Runs -/

/-- Two runs that differ in the frames captured, but not in the pictures, can be taken
together, and end with the same tracker, boxes, counters and screen. -/
theorem run_of_same_pictures (D : Detector) {events events' : List Event}
    (hevents : List.Forall₂ Event.Alike events events') (start : Guard) :
    Option.Rel Alike (Runs.exec (step D) start events) (Runs.exec (step D) start events') :=
  Runs.exec_rel (fun _ _ _ _ h he => h.step he) hevents (.shared (.refl start.sharedFrame))

/-- A dark red pixel, in two orders of colors and with padding after the second. -/
def redRgb : VideoFrame :=
  { width := 1, height := 1, stride := 3, format := .rgb, data := some [90, 0, 10] }

def redBgra : VideoFrame :=
  { width := 1, height := 1, stride := 8, data := some [10, 0, 90, 255, 7, 7, 7, 7] }

theorem alike_red : redRgb.Alike redBgra := by
  have hrgb : redRgb.Plain := by
    refine ⟨⟨by decide, by decide, by decide, fun _ _ => by decide, ?_⟩, rfl, by decide,
      by decide, by decide, fun _ _ _ _ => by decide, Or.inl rfl⟩
    rintro d ⟨⟩
    decide
  have hbgra : redBgra.Plain := by
    refine ⟨⟨by decide, by decide, by decide, fun _ _ => by decide, ?_⟩, rfl, by decide,
      by decide, by decide, fun _ _ _ _ => by decide, Or.inr (Or.inl rfl)⟩
    rintro d ⟨⟩
    decide
  exact .picture hrgb hbgra rfl rfl (by decide)

/-- The box found in the pixel is drawn with the same colors. -/
theorem run_of_same_pictures_red :
    Option.Rel Alike (Runs.exec (step oneDetector) smallGuard [.analyse redRgb 0, .present])
      (Runs.exec (step oneDetector) smallGuard [.analyse redBgra 0, .present]) :=
  run_of_same_pictures oneDetector
    (.cons (.analyse 0 alike_red) (.cons (.refl .present) .nil)) smallGuard

end Guard

end Degoonification
