import Degoonification.Boxes.Rendering
import Degoonification.Boxes.ShieldBounds
import Degoonification.Boxes.StaticScreen
import Degoonification.Inference.Detections
import Degoonification.Overlay.Reconfigure

/-! The detector of the daemon, from the captured picture to the boxes it hands to the
tracker, and what the tracker does with them. What the network finds is not said;
whatever it finds, a proposal that passes the tests is detected or overlapped by a
detection, and every detection has a shield at the end of the call. -/

namespace Degoonification

/-- The detector of the daemon: `OnnxDetector` around a network, which takes the planes
to the first output tensor, and a sort by falling confidence. -/
structure Detector where
  config : DetectorConfig := {}
  preprocessor : ImagePreprocessor := {}
  infer : (ℕ → ℚ) → Option Tensor
  sort : List BoundingBox → List BoundingBox
  perm : ∀ boxes, (sort boxes).Perm boxes
  sorted : ∀ boxes, (sort boxes).Pairwise fun b c => c.confidence ≤ b.confidence

namespace Detector

/-- The proposals that pass the tests of `detect`, before the suppression. -/
def candidates (D : Detector) (frame : VideoFrame) : List BoundingBox :=
  let p := D.preprocessor.preprocess frame
  ((D.infer p.2).map (OnnxDetector.candidates D.config p.1)).getD []

/-- `preprocess`, then `detect`. -/
def detections (D : Detector) (frame : VideoFrame) : List BoundingBox :=
  let p := D.preprocessor.preprocess frame
  OnnxDetector.detect D.sort D.config p.1 (D.infer p.2)

/-- What the suppression drops is overlapped by something it keeps. -/
theorem exists_detection_of_candidate (D : Detector) (frame : VideoFrame) {c : BoundingBox}
    (hc : c ∈ D.candidates frame) :
    ∃ d ∈ D.detections frame,
      d = c ∨ D.config.nmsIouThreshold < d.iou c ∧ c.confidence ≤ d.confidence := by
  rw [candidates] at hc
  rw [detections]
  cases hinfer : D.infer (D.preprocessor.preprocess frame).2 with
  | none =>
    rw [hinfer] at hc
    exact absurd hc List.not_mem_nil
  | some t =>
    rw [hinfer, Option.map_some, Option.getD_some] at hc
    rw [OnnxDetector.detect, OnnxDetector.nms, Suppression.keepMarked_eq,
      Suppression.unmarked_fresh]
    obtain ⟨suppressed, hall, hwitness⟩ := Suppression.exists_suppressed
      (OnnxDetector.suppresses D.config) (D.sort _)
      (D.sorted (OnnxDetector.candidates D.config (D.preprocessor.preprocess frame).1 t))
    obtain hkept | hdropped := List.mem_append.mp
      ((hall.trans (D.perm _)).mem_iff.mpr hc)
    · exact ⟨c, hkept, Or.inl rfl⟩
    · obtain ⟨d, hd, hhits, hle⟩ := hwitness c hdropped
      exact ⟨d, hd, Or.inr ⟨of_decide_eq_true hhits, hle⟩⟩

end Detector

namespace OnnxDetector

open VisualAnchorTracker (OnScreen)

theorem onScreen_unmap (config : DetectorConfig) (letterbox : LetterboxInfo) (cx cy w h : ℚ) :
    OnScreen (unmap config letterbox cx cy w h) := by
  have hspan (v size : ℚ) :
      0 ≤ clamp v 0 1 ∧ clamp v 0 1 + clamp size 0 (1 - clamp v 0 1) ≤ 1 ∧
        0 ≤ clamp size 0 (1 - clamp v 0 1) := by
    obtain ⟨h0, h1⟩ := clamp_mem (v := v) zero_le_one
    obtain ⟨hlo, hhi⟩ := clamp_mem (v := size) (sub_nonneg.mpr h1)
    exact ⟨h0, by linarith, hlo⟩
  obtain ⟨hl, hr, hw⟩ := hspan (normCenter letterbox.padX
    (scaledOr letterbox.scaledW config.inputWidth) cx -
      w / scaledOr letterbox.scaledW config.inputWidth * (1 / 2))
    (w / scaledOr letterbox.scaledW config.inputWidth)
  obtain ⟨ht, hb, hh⟩ := hspan (normCenter letterbox.padY
    (scaledOr letterbox.scaledH config.inputHeight) cy -
      h / scaledOr letterbox.scaledH config.inputHeight * (1 / 2))
    (h / scaledOr letterbox.scaledH config.inputHeight)
  exact ⟨hl, hr, ht, hb, hw, hh⟩

theorem onScreen_of_mem_candidates {config : DetectorConfig} {letterbox : LetterboxInfo}
    {t : Tensor} {c : BoundingBox} (hc : c ∈ candidates config letterbox t) : OnScreen c := by
  obtain ⟨col, -, hcol⟩ := List.mem_filterMap.mp hc
  simp only [candidate] at hcol
  split_ifs at hcol
  obtain rfl := Option.some.inj hcol
  obtain ⟨hl, hr, ht, hb, hw, hh⟩ := onScreen_unmap config letterbox (t.data col)
    (t.data (t.cols + col)) (t.data (2 * t.cols + col)) (t.data (3 * t.cols + col))
  exact ⟨hl, hr, ht, hb, hw, hh⟩

end OnnxDetector

open VisualAnchorTracker in
theorem Detector.onScreen_of_mem_detections {D : Detector} {frame : VideoFrame} {d : BoundingBox}
    (hd : d ∈ D.detections frame) : OnScreen d := by
  rw [detections] at hd
  cases hinfer : D.infer (D.preprocessor.preprocess frame).2 with
  | none =>
    rw [hinfer] at hd
    exact absurd hd List.not_mem_nil
  | some t =>
    rw [hinfer, OnnxDetector.detect, OnnxDetector.nms, Suppression.keepMarked_eq,
      Suppression.unmarked_fresh] at hd
    exact OnnxDetector.onScreen_of_mem_candidates
      ((D.perm _).mem_iff.mp ((Suppression.keep_sublist _ _).subset hd))

/-! ### What the tracker returns -/

namespace VisualAnchorTracker

open BoundingBox Overlay

/-- The shield that took in detection number `k` of a call, at the end of the call's
ingestion. -/
def takerOf (t : VisualAnchorTracker) (frame : VideoFrame) (dets : List BoundingBox) (now k : ℕ)
    (d : BoundingBox) : Option TrackedShield :=
  (t.ingested frame dets now)[takenBy t.config (t.ingested frame (dets.take k) now) d]?

/-- No shield overlaps a detection of the call, and no detection another one. -/
structure FirstSeen (t : VisualAnchorTracker) (frame : VideoFrame) (dets : List BoundingBox)
    (now : ℕ) : Prop where
  shields : ∀ s ∈ anchorStep t.config frame now t.shields, ∀ d ∈ dets,
    s.box.iou d ≤ t.config.mergeIouThreshold
  apart : dets.Pairwise fun d d' => d.iou d' ≤ t.config.mergeIouThreshold

variable {t : VisualAnchorTracker} {frame : VideoFrame} {dets : List BoundingBox} {now k : ℕ}
  {d : BoundingBox}

/-- A detection is taken in by a shield that is not purged in the same call. -/
theorem exists_takerOf (t : VisualAnchorTracker) (frame : VideoFrame) (now : ℕ)
    (hd : dets[k]? = some d) :
    ∃ s, t.takerOf frame dets now k d = some s ∧ s.lastSeenMs = now := by
  obtain ⟨hk, rfl⟩ := List.getElem?_eq_some_iff.mp hd
  have hsplit : dets = dets.take k ++ dets[k] :: dets.drop (k + 1) := by
    rw [List.getElem_cons_drop, List.take_append_drop]
  rw [takerOf]
  set before := t.ingested frame (dets.take k) now
  have hafter : t.ingested frame dets now =
      (dets.drop (k + 1)).foldl (ingest t.config frame now)
        (ingest t.config frame now before dets[k]) := by
    calc t.ingested frame dets now
        = t.ingested frame (dets.take k ++ dets[k] :: dets.drop (k + 1)) now :=
          congrArg (fun ds => t.ingested frame ds now) hsplit
      _ = _ := by
          rw [ingested, List.foldl_append, List.foldl_cons]
          rfl
  have htaken := getElem?_ingest t.config frame now before dets[k]
    (takenBy t.config before dets[k])
  rw [if_pos rfl] at htaken
  rw [hafter]
  refine exists_getElem?_foldl_ingest t.config frame now _ htaken ?_
  cases before[takenBy t.config before dets[k]]? <;> rfl

theorem foldl_ingest_apart {config : AnchorTrackerConfig} {shields : List TrackedShield}
    (hshields : ∀ s ∈ shields, ∀ d ∈ dets, s.box.iou d ≤ config.mergeIouThreshold)
    (hapart : dets.Pairwise fun d d' => d.iou d' ≤ config.mergeIouThreshold) :
    dets.foldl (ingest config frame now) shields =
      shields ++ dets.map (newShield config frame now) := by
  induction dets generalizing shields with
  | nil => exact (List.append_nil _).symm
  | cons d dets ih =>
    obtain ⟨hd, hdets⟩ := List.pairwise_cons.mp hapart
    rw [List.foldl_cons, ingest_new fun s hs => hshields s hs d List.mem_cons_self,
      ih (fun s hs => ?_) hdets, List.map_cons, List.append_assoc, List.singleton_append]
    obtain hs | hs := List.mem_append.mp hs
    · exact fun e he => hshields s hs e (List.mem_cons_of_mem d he)
    · obtain rfl := List.mem_singleton.mp hs
      exact hd

/-- A detection seen for the first time has a shield of its own box. -/
theorem FirstSeen.exists_shield (h : t.FirstSeen frame dets now) (hd : d ∈ dets) :
    ∃ s ∈ t.ingested frame dets now, s.box = d ∧ s.lastSeenMs = now := by
  rw [ingested, foldl_ingest_apart h.shields h.apart]
  exact ⟨newShield t.config frame now d,
    List.mem_append_right _ (List.mem_map_of_mem hd), rfl, rfl⟩

theorem onScreen_of_mem_returned (hratio : 0 ≤ t.config.paddingRatio) (ha : 0 ≤ t.config.emaAlpha)
    (ha' : t.config.emaAlpha ≤ 1) (ht : AllOnScreen t.shields) (hdets : ∀ d ∈ dets, OnScreen d)
    {b : BoundingBox} (hb : b ∈ (t.processFrame frame dets now).2) : OnScreen b := by
  have hmap : ∀ c ∈ (t.processFrame frame dets now).1.shields.map
      fun s => s.box.expanded t.config.paddingRatio, OnScreen c := by
    refine List.forall_mem_map.mpr fun s hs => (expanded_onScreen_iff s.box _).mpr ?_
    have hbox := ht.processFrame ha ha' frame hdets now s hs
    have hr := hbox.right
    have hbot := hbox.bottom
    simp only [right, bottom] at hr hbot
    have hw : 0 ≤ s.box.width * t.config.paddingRatio := mul_nonneg hbox.width hratio
    have hh : 0 ≤ s.box.height * t.config.paddingRatio := mul_nonneg hbox.height hratio
    exact ⟨by linarith [hbox.width], by linarith [hbox.height]⟩
  obtain ⟨g, hg, hhull⟩ := exists_isHull_of_mem (fun c hc => ⟨(hmap c hc).width,
    (hmap c hc).height⟩) hb
  exact hhull.onScreen fun c hc => hmap c (hg c hc)

theorem OnScreen.edgesInSquare {b : BoundingBox} (h : OnScreen b) : EdgesInSquare b := by
  obtain ⟨hl, hr, ht, hb, hw, hh⟩ := h
  have hlr : b.left ≤ b.right := le_add_of_nonneg_right hw
  have htb : b.top ≤ b.bottom := le_add_of_nonneg_right hh
  exact ⟨⟨hl, hlr.trans hr⟩, ⟨ht, htb.trans hb⟩, ⟨hl.trans hlr, hr⟩, ⟨ht.trans htb, hb⟩⟩

theorem WithinPadding.inside {ratio : ℚ} {d b : BoundingBox} (hpad : WithinPadding ratio d b)
    (hd : OnScreen d) : Inside d (b.expanded ratio) := by
  obtain ⟨hl, hr, ht, hb⟩ := hpad
  simp only [BoundingBox.left, BoundingBox.right, BoundingBox.top, BoundingBox.bottom]
    at hl hr ht hb
  refine ⟨max_le hd.left ?_, (le_min hd.right ?_).trans (le_add_max_sub _ _),
    max_le hd.top ?_, (le_min hd.bottom ?_).trans (le_add_max_sub _ _)⟩ <;>
    simp only [BoundingBox.left, BoundingBox.right, BoundingBox.top, BoundingBox.bottom] <;>
    linarith

theorem withinPadding_self {ratio : ℚ} (hratio : 0 ≤ ratio) {d : BoundingBox} (hd : OnScreen d) :
    WithinPadding ratio d d := by
  have hw : 0 ≤ d.width * ratio * (1 / 2) :=
    mul_nonneg (mul_nonneg hd.width hratio) (by norm_num)
  have hh : 0 ≤ d.height * ratio * (1 / 2) :=
    mul_nonneg (mul_nonneg hd.height hratio) (by norm_num)
  constructor <;> rwa [sub_self]

end VisualAnchorTracker

end Degoonification
