import Degoonification.Boxes.AnchorStep

/-! A shield and its anchors through calls without detections. A scroll match moves
every anchor by the offset and the box by the same number of pixels, but the box is
clamped to the screen and the anchors are not. As long as no adjustment is cut off by
the clamp, box and anchors stay in lockstep; a cut-off adjustment parts them for good. -/

namespace Degoonification.VisualAnchorTracker

open BoundingBox

/-- The scroll adjustment the anchor step makes, if it makes one. -/
def adjustment (config : AnchorTrackerConfig) (frame : VideoFrame) (s : TrackedShield) : Option ℤ :=
  if HasPixels frame ∧ staticTest config frame s = false then scrollMatch frame s else none

/-- A shield followed through the anchor steps of a run of calls. -/
def follow (config : AnchorTrackerConfig) (s : TrackedShield) (calls : List Call) : TrackedShield :=
  calls.foldl (fun s c => anchorFrame config c.frame c.time s) s

/-- The pixels by which the shield is scrolled along a run of calls. -/
def scrolled (config : AnchorTrackerConfig) : TrackedShield → List Call → ℤ
  | _, [] => 0
  | s, c :: calls =>
    (adjustment config c.frame s).getD 0 +
      scrolled config (anchorFrame config c.frame c.time s) calls

/-- No scroll adjustment of the run is cut off by the clamp. -/
def Uncut (config : AnchorTrackerConfig) : TrackedShield → List Call → Prop
  | _, [] => True
  | s, c :: calls =>
    (∀ dy ∈ adjustment config c.frame s, 0 ≤ s.box.y + (dy : ℚ) / c.frame.height ∧
      s.box.y + (dy : ℚ) / c.frame.height ≤ 1 - s.box.height) ∧
    Uncut config (anchorFrame config c.frame c.time s) calls

/-- The anchors moved by `dy` pixels. -/
def moveAnchors (dy : ℤ) (anchors : List AnchorPixel) : List AnchorPixel :=
  anchors.map fun a => { a with y := a.y + dy }

theorem moveAnchors_zero (anchors : List AnchorPixel) : moveAnchors 0 anchors = anchors := by
  simp [moveAnchors]

theorem moveAnchors_moveAnchors (dy dy' : ℤ) (anchors : List AnchorPixel) :
    moveAnchors dy' (moveAnchors dy anchors) = moveAnchors (dy + dy') anchors := by
  simp [moveAnchors, add_assoc]

theorem anchorFrame_of_some {config : AnchorTrackerConfig} {frame : VideoFrame} {s : TrackedShield}
    {dy : ℤ} (h : adjustment config frame s = some dy) (now : ℕ) :
    anchorFrame config frame now s = scroll frame now s dy ∧ frame.height ≠ 0 := by
  rw [adjustment] at h
  split_ifs at h with hcond
  obtain ⟨hpixels, hstatic⟩ := hcond
  rw [anchorFrame, if_pos hpixels, anchorShield_eq, hstatic, h]
  exact ⟨rfl, hpixels.2.2.ne'⟩

theorem anchorFrame_of_none {config : AnchorTrackerConfig} {frame : VideoFrame} {s : TrackedShield}
    (h : adjustment config frame s = none) (now : ℕ) :
    (anchorFrame config frame now s).box = s.box ∧
      (anchorFrame config frame now s).anchors = s.anchors := by
  by_cases hpixels : HasPixels frame
  · rw [anchorFrame, if_pos hpixels, anchorShield_eq]
    cases hstatic : staticTest config frame s with
    | true => exact ⟨rfl, rfl⟩
    | false =>
      rw [adjustment, if_pos ⟨hpixels, hstatic⟩] at h
      rw [h]
      exact ⟨rfl, rfl⟩
  · rw [anchorFrame, if_neg hpixels]
    exact ⟨rfl, rfl⟩

/-- The shield has been moved by `k` pixels of a frame of height `H`, box and anchors
alike. -/
structure Moved (H : ℕ) (k : ℤ) (s s' : TrackedShield) : Prop where
  box : s'.box = { s.box with y := s.box.y + (k : ℚ) / H }
  anchors : s'.anchors = moveAnchors k s.anchors
  height : H = 0 → k = 0

theorem Moved.refl (H : ℕ) (s : TrackedShield) : Moved H 0 s s where
  box := by simp
  anchors := (moveAnchors_zero s.anchors).symm
  height _ := rfl

theorem Moved.trans {H : ℕ} {k k' : ℤ} {s s' s'' : TrackedShield} (h : Moved H k s s')
    (h' : Moved H k' s' s'') : Moved H (k + k') s s'' where
  box := by
    rw [h'.box, h.box]
    simp only [Int.cast_add, add_div, add_assoc]
  anchors := by rw [h'.anchors, h.anchors, moveAnchors_moveAnchors]
  height hH := by rw [h.height hH, h'.height hH, add_zero]

/-- A box and anchors moved alike keep their distance in pixels. -/
theorem Moved.distance {H : ℕ} {k : ℤ} {s s' : TrackedShield} (h : Moved H k s s') :
    (s'.anchors.map fun a => H * s'.box.y - a.y) = s.anchors.map fun a => H * s.box.y - a.y := by
  have hpixels : (H : ℚ) * (k / H) = k := by
    rcases eq_or_ne H 0 with rfl | hH
    · rw [h.height rfl, Int.cast_zero, zero_div, mul_zero]
    · exact mul_div_cancel₀ _ (Nat.cast_ne_zero.mpr hH)
  rw [h.anchors, h.box, moveAnchors, List.map_map]
  refine List.map_congr_left fun a _ => ?_
  simp only [Function.comp_apply, mul_add, hpixels, Int.cast_add]
  exact add_sub_add_right_eq_sub _ _ _

/-- One anchor step whose adjustment is not cut off. -/
theorem moved_anchorFrame {config : AnchorTrackerConfig} {frame : VideoFrame} {s : TrackedShield}
    (h : ∀ dy ∈ adjustment config frame s, 0 ≤ s.box.y + (dy : ℚ) / frame.height ∧
      s.box.y + (dy : ℚ) / frame.height ≤ 1 - s.box.height) (now : ℕ) :
    Moved frame.height ((adjustment config frame s).getD 0) s
      (anchorFrame config frame now s) := by
  cases hadj : adjustment config frame s with
  | none =>
    obtain ⟨hbox, hanchors⟩ := anchorFrame_of_none hadj now
    exact ⟨by rw [hbox]; simp, by rw [hanchors]; exact (moveAnchors_zero _).symm, fun _ => rfl⟩
  | some dy =>
    obtain ⟨heq, hheight⟩ := anchorFrame_of_some hadj now
    obtain ⟨hlo, hhi⟩ := h dy hadj
    rw [heq]
    refine ⟨?_, rfl, fun h0 => absurd h0 hheight⟩
    simp only [scroll, clamp_eq_self hlo hhi]
    rfl

theorem moved_follow {config : AnchorTrackerConfig} {H : ℕ} {calls : List Call} :
    ∀ {s : TrackedShield}, (∀ c ∈ calls, c.frame.height = H) → Uncut config s calls →
      Moved H (scrolled config s calls) s (follow config s calls) := by
  induction calls with
  | nil => exact fun _ _ => Moved.refl H _
  | cons c calls ih =>
    rintro s hH ⟨hc, hcalls⟩
    obtain ⟨hcH, hrest⟩ := List.forall_mem_cons.mp hH
    exact (hcH ▸ moved_anchorFrame hc c.time).trans (ih hrest hcalls)

/-- A call without detections keeps some of the followed shields, in order. -/
theorem runFrames_sublist (t : VisualAnchorTracker) {calls : List Call}
    (hdets : ∀ c ∈ calls, c.detections = []) :
    (t.runFrames calls).shields.Sublist (t.shields.map fun s => follow t.config s calls) := by
  induction calls generalizing t with
  | nil => simp [runFrames, follow]
  | cons c calls ih =>
    obtain ⟨hc, hrest⟩ := List.forall_mem_cons.mp hdets
    have hstep : (t.processFrame c.frame c.detections c.time).1.shields.Sublist
        (t.shields.map (anchorFrame t.config c.frame c.time)) := by
      rw [hc, ← anchorStep_eq]
      exact List.filter_sublist
    have hmap := hstep.map fun s => follow t.config s calls
    rw [List.map_map] at hmap
    exact (ih (t.processFrame c.frame c.detections c.time).1 hrest).trans hmap

/-- Through calls of frames of one height without detections the shields are those
from before, followed; and for each one that no clamp cuts off, the distance in pixels
between the box and each anchor stays what it was, and adjustments that sum to zero
bring the shield back. -/
theorem lockstep (t : VisualAnchorTracker) (H : ℕ) {calls : List Call}
    (hcalls : ∀ c ∈ calls, c.frame.height = H ∧ c.detections = []) :
    (t.runFrames calls).shields.Sublist (t.shields.map fun s => follow t.config s calls) ∧
      ∀ s : TrackedShield, Uncut t.config s calls →
        ((follow t.config s calls).anchors.map fun a => H * (follow t.config s calls).box.y - a.y) =
            s.anchors.map (fun a => H * s.box.y - a.y) ∧
          (scrolled t.config s calls = 0 → (follow t.config s calls).box = s.box ∧
            (follow t.config s calls).anchors = s.anchors) := by
  refine ⟨runFrames_sublist t fun c hc => (hcalls c hc).2, fun s hs => ?_⟩
  have hmoved := moved_follow (fun c hc => (hcalls c hc).1) hs
  refine ⟨hmoved.distance, fun hzero => ?_⟩
  · have hbox := hmoved.box
    have hanchors := hmoved.anchors
    rw [hzero, Int.cast_zero, zero_div, add_zero] at hbox
    rw [hzero, moveAnchors_zero] at hanchors
    exact ⟨hbox, hanchors⟩

/-- A black frame of 40 rows of one pixel, with one white row. -/
def rowFrame (row : ℕ) : VideoFrame where
  width := 1
  height := 40
  stride := 3
  format := .rgb
  data := some ((List.range 40).flatMap fun i => List.replicate 3 (if i = row then 255 else 0))

def rowShield : TrackedShield where
  box := { y := 1 / 8, width := 1, height := 1 / 8 }
  anchors := List.replicate 6 ⟨0, 24, 255, 255, 255⟩

/-- Scrolled by 10 rows, the shield in rows 5 to 10 keeps its distance to row 24. -/
theorem lockstep_down :
    ((follow {} rowShield [⟨rowFrame 34, [], 16⟩]).anchors.map fun a =>
      40 * (follow {} rowShield [⟨rowFrame 34, [], 16⟩]).box.y - a.y) =
        rowShield.anchors.map fun a => 40 * rowShield.box.y - a.y := by
  have hadj : adjustment {} (rowFrame 34) rowShield = some 10 := by decide +kernel
  have huncut : Uncut {} rowShield [⟨rowFrame 34, [], 16⟩] := by
    refine ⟨fun dy hdy => ?_, trivial⟩
    obtain rfl := Option.some.inj (hadj.symm.trans hdy)
    exact ⟨by decide +kernel, by decide +kernel⟩
  have hcalls : ∀ c ∈ [Call.mk (rowFrame 34) [] 16], c.frame.height = 40 ∧ c.detections = [] :=
    List.forall_mem_singleton.mpr ⟨rfl, rfl⟩
  exact ((lockstep {} 40 hcalls).2 rowShield huncut).1

/-- The tracker that saw the shield of rows 5 to 10 and the white row 24. -/
def rowTracker : VisualAnchorTracker :=
  (processFrame {} (rowFrame 24) [{ y := 1 / 8, width := 1, height := 1 / 8 }] 0).1

/-- Scrolled by -10 rows at the top edge the box stops there and the anchors do not;
scrolled back by 10 rows the shield is 5 rows below its place. -/
theorem lockstep_lost :
    (rowTracker.shields.map fun s => s.anchors.map fun a => 40 * s.box.y - a.y) =
        [List.replicate 6 (-19)] ∧
      ((rowTracker.runFrames [⟨rowFrame 14, [], 16⟩]).shields.map fun s =>
        s.anchors.map fun a => 40 * s.box.y - a.y) = [List.replicate 6 (-14)] ∧
      (rowTracker.shields.map fun s => s.box.y) = [1 / 8] ∧
      ((rowTracker.runFrames [⟨rowFrame 14, [], 16⟩, ⟨rowFrame 24, [], 32⟩]).shields.map fun s =>
        s.box.y) = [1 / 4] := by
  decide +kernel

end Degoonification.VisualAnchorTracker
