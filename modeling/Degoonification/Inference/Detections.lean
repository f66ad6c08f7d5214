import Degoonification.Boxes.Merging
import Degoonification.Inference.Detector

/-! What `detect` returns. Suppression keeps a sub-list of the sorted candidates in
which no two overlap by more than the threshold, and every candidate it drops is
overlapped by a kept one that scored at least as well. Un-mapping clamps the position
of a proposal before its size, so a proposal that sticks out on the left or at the top
is moved into the frame instead of being cut, unless it spans the frame. -/

namespace Degoonification.OnnxDetector

open BoundingBox

/-! ### Suppression -/

/-- What `detect` keeps is sorted, pairwise at most at the threshold, and covers for
everything it drops. -/
theorem nms_sound_complete {sort : List BoundingBox → List BoundingBox}
    (hperm : ∀ boxes, (sort boxes).Perm boxes)
    (hsorted : ∀ boxes, (sort boxes).Pairwise fun b c => c.confidence ≤ b.confidence)
    (config : DetectorConfig) (boxes : List BoundingBox) :
    (nms config (sort boxes)).Sublist (sort boxes) ∧
      (nms config (sort boxes)).Pairwise
        (fun b c => b.iou c ≤ config.nmsIouThreshold ∧ c.iou b ≤ config.nmsIouThreshold) ∧
      ∃ suppressed, (nms config (sort boxes) ++ suppressed).Perm boxes ∧
        ∀ d ∈ suppressed, ∃ b ∈ nms config (sort boxes),
          config.nmsIouThreshold < b.iou d ∧ d.confidence ≤ b.confidence := by
  have hkeep : nms config (sort boxes) = Suppression.keep (suppresses config) (sort boxes) := by
    rw [nms, Suppression.keepMarked_eq, Suppression.unmarked_fresh]
  rw [hkeep]
  refine ⟨Suppression.keep_sublist _ _, (Suppression.pairwise_keep _ _).imp fun {b c} h => ?_, ?_⟩
  · have hle : b.iou c ≤ config.nmsIouThreshold := by simpa [suppresses, overlaps] using h
    exact ⟨hle, iou_comm b c ▸ hle⟩
  · obtain ⟨suppressed, hall, hwitness⟩ :=
      Suppression.exists_suppressed (suppresses config) (sort boxes) (hsorted boxes)
    refine ⟨suppressed, hall.trans (hperm boxes), fun d hd => ?_⟩
    obtain ⟨b, hb, hhits, hle⟩ := hwitness d hd
    exact ⟨b, hb, of_decide_eq_true hhits, hle⟩

/-- A stable sort by falling confidence. -/
def sortByConfidence (boxes : List BoundingBox) : List BoundingBox :=
  boxes.mergeSort fun b c => decide (c.confidence ≤ b.confidence)

theorem pairwise_sortByConfidence (boxes : List BoundingBox) :
    (sortByConfidence boxes).Pairwise fun b c => c.confidence ≤ b.confidence := by
  have h : (sortByConfidence boxes).Pairwise fun b c =>
      decide (c.confidence ≤ b.confidence) = true := by
    refine List.pairwise_mergeSort (fun a b c hab hbc => ?_) (fun a b => ?_) boxes
    · exact decide_eq_true ((of_decide_eq_true hbc).trans (of_decide_eq_true hab))
    · rw [Bool.or_eq_true, decide_eq_true_eq, decide_eq_true_eq]
      exact le_total b.confidence a.confidence
  exact h.imp fun hle => of_decide_eq_true hle

/-- Two detections of one face, the weaker one first, and one elsewhere. -/
def crowd : List BoundingBox :=
  [{ width := 1 / 2, height := 1 / 2, confidence := 3 / 10 },
    { x := 1 / 100, width := 1 / 2, height := 1 / 2, confidence := 9 / 10 },
    { x := 3 / 4, y := 3 / 4, width := 1 / 4, height := 1 / 4, confidence := 1 / 2 }]

theorem nms_sound_complete_crowd :
    (nms {} (sortByConfidence crowd)).Sublist (sortByConfidence crowd) ∧
      (nms {} (sortByConfidence crowd)).Pairwise
        (fun b c => b.iou c ≤ 45 / 100 ∧ c.iou b ≤ 45 / 100) ∧
      ∃ suppressed, (nms {} (sortByConfidence crowd) ++ suppressed).Perm crowd ∧
        ∀ d ∈ suppressed, ∃ b ∈ nms {} (sortByConfidence crowd),
          45 / 100 < b.iou d ∧ d.confidence ≤ b.confidence :=
  nms_sound_complete (fun _ => List.mergeSort_perm _ _) pairwise_sortByConfidence {} crowd

/-! ### Un-mapping -/

/-- The two edges of a proposal along one axis, un-mapped. -/
def edges (pad : ℤ) (scaled c size : ℚ) : ℚ × ℚ :=
  (normCenter pad scaled (c - size / 2), normCenter pad scaled (c + size / 2))

/-- The un-mapped rectangle of a proposal. -/
def unmappedRect (letterbox : LetterboxInfo) (cx cy w h : ℚ) : Set (ℚ × ℚ) :=
  let ex := edges letterbox.padX letterbox.scaledW cx w
  let ey := edges letterbox.padY letterbox.scaledH cy h
  Set.Icc ex.1 ex.2 ×ˢ Set.Icc ey.1 ey.2

/-- The span does not start before the screen, or it reaches the far side. -/
def KeepsEdges (e : ℚ × ℚ) : Prop := 0 ≤ e.1 ∨ 1 ≤ e.2

theorem clamp_eq (v lo hi : ℚ) (h : lo ≤ hi) : clamp v lo hi = max lo (min v hi) := by
  rw [clamp]
  split_ifs with hlo hhi
  · rw [min_eq_left (hlo.le.trans h), max_eq_left hlo.le]
  · rw [min_eq_right hhi.le, max_eq_right h]
  · rw [min_eq_left (not_lt.mp hhi), max_eq_right (not_lt.mp hlo)]

/-- One axis: the clamped span is the span on screen exactly where it keeps its edges. -/
theorem Icc_clamp_eq_iff {lo size : ℚ} (hsize : 0 ≤ size)
    (hpos : 0 < clamp size 0 (1 - clamp lo 0 1)) :
    Set.Icc (clamp lo 0 1) (clamp lo 0 1 + clamp size 0 (1 - clamp lo 0 1)) =
        Set.Icc lo (lo + size) ∩ Set.Icc 0 1 ↔ KeepsEdges (lo, lo + size) := by
  have hx : clamp lo 0 1 = max 0 (min lo 1) := clamp_eq lo 0 1 zero_le_one
  generalize clamp lo 0 1 = x at hx hpos ⊢
  have hx1 : x ≤ 1 := hx.trans_le (max_le zero_le_one (min_le_right _ _))
  rw [clamp_eq size 0 (1 - x) (sub_nonneg.mpr hx1),
    max_eq_right (le_min hsize (sub_nonneg.mpr hx1))] at hpos ⊢
  obtain ⟨hsize', hroom⟩ := lt_min_iff.mp hpos
  -- a span with something left does not start beyond the far side
  have hlo : x = max lo 0 := by
    rcases le_total lo 1 with h | h
    · rw [hx, min_eq_left h, max_comm]
    · rw [min_eq_right h, max_eq_right zero_le_one] at hx
      linarith
  rw [Set.Icc_inter_Icc, ← hlo, ← min_add_add_left, add_sub_cancel]
  have hne : x ≤ min (x + size) 1 := le_min (by linarith) hx1
  constructor
  · intro h
    have hend : min (x + size) 1 = min (lo + size) 1 :=
      (isGreatest_Icc hne).unique (h ▸ isGreatest_Icc (Set.nonempty_Icc.mp
        (h ▸ Set.nonempty_Icc.mpr hne)))
    rcases le_or_gt 0 lo with h0 | h0
    · exact Or.inl h0
    · refine Or.inr (not_lt.mp fun hlt : lo + size < 1 => ?_)
      rw [hlo, max_eq_right h0.le, zero_add, min_eq_left hlt.le] at hend
      rcases min_choice size 1 with h' | h' <;> rw [h'] at hend <;> linarith
  · rintro (h | h)
    · rw [hlo, max_eq_left h]
    · rw [min_eq_right h, min_eq_right]
      exact h.trans (add_le_add_left (hlo ▸ le_max_left _ _) _)

theorem edges_eq (pad : ℤ) (scaled c size : ℚ) :
    edges pad scaled c size =
      (normCenter pad scaled c - size / scaled * (1 / 2),
        normCenter pad scaled c - size / scaled * (1 / 2) + size / scaled) := by
  rw [edges, normCenter, normCenter, normCenter]
  exact Prod.ext (by ring) (by ring)

/-- The rectangle the code computes for a proposal, where the letterbox has a size. -/
theorem candidate_region {config : DetectorConfig} {letterbox : LetterboxInfo} {t : Tensor}
    {col : ℕ} {b : BoundingBox} (hw : 0 < letterbox.scaledW) (hh : 0 < letterbox.scaledH)
    (hb : candidate config letterbox t col = some b) :
    let ex := edges letterbox.padX letterbox.scaledW (t.data col) (t.data (2 * t.cols + col))
    let ey := edges letterbox.padY letterbox.scaledH (t.data (t.cols + col))
      (t.data (3 * t.cols + col))
    b.x = clamp ex.1 0 1 ∧
      b.width = clamp (t.data (2 * t.cols + col) / letterbox.scaledW) 0 (1 - b.x) ∧ 0 < b.width ∧
      b.y = clamp ey.1 0 1 ∧
      b.height = clamp (t.data (3 * t.cols + col) / letterbox.scaledH) 0 (1 - b.y) ∧
      0 < b.height := by
  simp only [candidate] at hb
  split_ifs at hb with hclass hsize
  obtain rfl := Option.some.inj hb
  have hsize' : (0 : ℚ) < 5 / 1000 := by norm_num
  refine ⟨?_, ?_, hsize'.trans hsize.1, ?_, ?_, hsize'.trans hsize.2⟩ <;>
    simp only [unmap, scaledOr, if_pos hw, if_pos hh, edges_eq]

/-- An emitted box is the part of its un-mapped proposal that lies on screen exactly
where neither axis starts before the screen, unless it spans the screen. -/
theorem candidate_region_iff {config : DetectorConfig} {letterbox : LetterboxInfo} {t : Tensor}
    {col : ℕ} {b : BoundingBox} (hw : 0 < letterbox.scaledW) (hh : 0 < letterbox.scaledH)
    (hpw : 0 ≤ t.data (2 * t.cols + col)) (hph : 0 ≤ t.data (3 * t.cols + col))
    (hb : candidate config letterbox t col = some b) :
    b.region = unmappedRect letterbox (t.data col) (t.data (t.cols + col))
        (t.data (2 * t.cols + col)) (t.data (3 * t.cols + col)) ∩ unitSquare ↔
      KeepsEdges (edges letterbox.padX letterbox.scaledW (t.data col)
          (t.data (2 * t.cols + col))) ∧
        KeepsEdges (edges letterbox.padY letterbox.scaledH (t.data (t.cols + col))
          (t.data (3 * t.cols + col))) := by
  obtain ⟨hx, hwidth, hwpos, hy, hheight, hhpos⟩ := candidate_region hw hh hb
  have hne : b.region.Nonempty :=
    Set.Nonempty.prod (Set.nonempty_Icc.mpr (le_add_of_nonneg_right hwpos.le))
      (Set.nonempty_Icc.mpr (le_add_of_nonneg_right hhpos.le))
  rw [unmappedRect, unitSquare, Set.prod_inter_prod, region,
    Set.prod_eq_prod_iff_of_nonempty hne]
  rw [hwidth, hx] at hwpos
  rw [hheight, hy] at hhpos
  refine and_congr ?_ ?_
  · rw [left, right, hwidth, hx]
    simp only [edges_eq] at hwpos ⊢
    exact Icc_clamp_eq_iff (div_nonneg hpw (Int.cast_nonneg hw.le)) hwpos
  · rw [top, bottom, hheight, hy]
    simp only [edges_eq] at hhpos ⊢
    exact Icc_clamp_eq_iff (div_nonneg hph (Int.cast_nonneg hh.le)) hhpos

/-- A proposal of 64 by 64 pixels centred at `cx`, 320, of class 0 with score 9/10. -/
def oneProposal (cx : ℚ) : Tensor :=
  { rows := 5, cols := 1, data := fun i => [cx, 320, 64, 64, 9 / 10].getD i 0 }

theorem candidate_region_iff_middle :
    ∃ b, candidate {} {} (oneProposal 320) 0 = some b ∧
      (b.region = unmappedRect {} 320 320 64 64 ∩ unitSquare ↔
        KeepsEdges (edges 0 640 320 64) ∧ KeepsEdges (edges 0 640 320 64)) := by
  refine ⟨⟨9 / 20, 9 / 20, 1 / 10, 1 / 10, 9 / 10, 0, 0⟩, by decide +kernel, ?_⟩
  have h := @candidate_region_iff {} {} (oneProposal 320) 0
    ⟨9 / 20, 9 / 20, 1 / 10, 1 / 10, 9 / 10, 0, 0⟩ (by decide) (by decide) (by decide +kernel)
    (by decide +kernel) (by decide +kernel)
  simpa [oneProposal] using h

/-- The proposal at the left edge shows half its width, the box all of it. -/
theorem candidate_moved :
    ∃ b, candidate {} {} (oneProposal 0) 0 = some b ∧
      b.region ≠ unmappedRect {} 0 320 64 64 ∩ unitSquare := by
  refine ⟨⟨0, 9 / 20, 1 / 10, 1 / 10, 9 / 10, 0, 0⟩, by decide +kernel, fun h => ?_⟩
  have hmem : ((1 / 10, 1 / 2) : ℚ × ℚ) ∈ unmappedRect {} 0 320 64 64 ∩ unitSquare :=
    h ▸ mem_region.mpr (by decide +kernel)
  have hle : (1 / 10 : ℚ) ≤ (edges 0 640 0 64).2 := hmem.1.1.2
  exact absurd hle (by decide +kernel)

end Degoonification.OnnxDetector
