import Degoonification.Boxes.VisualAnchor

/-! What step 1 of `process_frame` does to one shield. It is locked where it is when
it passes the static test, moved when a scroll offset matches, and otherwise only
loses its flag. Of its box only the vertical position can change. -/

namespace Degoonification.VisualAnchorTracker

open BoundingBox

/-- The static-anchor test. -/
def staticTest (config : AnchorTrackerConfig) (frame : VideoFrame) (s : TrackedShield) : Bool :=
  !s.anchors.isEmpty && decide (evalAnchors frame s.anchors 0 < config.anchorErrorThreshold)

/-- The offset that passes the scroll-match test. -/
def scrollMatch (frame : VideoFrame) (s : TrackedShield) : Option ℤ :=
  let staticErr := evalAnchors frame s.anchors 0
  let best := bestOffset frame s.anchors staticErr
  if s.anchors.isEmpty = false ∧ best.2 < 8 ∧ best.1 ≠ 0 ∧ 8 < staticErr - best.2 then some best.1
  else none

/-- The shield moved by `dy` pixels. -/
def scroll (frame : VideoFrame) (now : ℕ) (s : TrackedShield) (dy : ℤ) : TrackedShield :=
  { s with
    box := { s.box with
      y := clamp (s.box.y + (dy : ℚ) / frame.height) 0 (1 - s.box.height) }
    anchors := s.anchors.map fun a => { a with y := a.y + dy }
    isStatic := true
    lastSeenMs := now }

/-- The three outcomes of the anchor step. -/
theorem anchorShield_eq (config : AnchorTrackerConfig) (frame : VideoFrame) (now : ℕ)
    (s : TrackedShield) :
    anchorShield config frame now s =
      if staticTest config frame s then { s with isStatic := true, lastSeenMs := now }
      else match scrollMatch frame s with
        | some dy => scroll frame now s dy
        | none => { s with isStatic := false } := by
  rw [anchorShield, staticTest, scrollMatch]
  cases hempty : s.anchors.isEmpty with
  | true => simp
  | false =>
    simp only [Bool.false_eq_true, if_false, Bool.not_false, Bool.true_and, decide_eq_true_eq,
      true_and]
    split_ifs <;> rfl

/-- The frame has pixels to compare with. -/
def HasPixels (frame : VideoFrame) : Prop :=
  frame.data.isSome ∧ 0 < frame.width ∧ 0 < frame.height

instance (frame : VideoFrame) : Decidable (HasPixels frame) := inferInstanceAs (Decidable (_ ∧ _))

/-- Step 1 for one shield. -/
def anchorFrame (config : AnchorTrackerConfig) (frame : VideoFrame) (now : ℕ) (s : TrackedShield) :
    TrackedShield :=
  if HasPixels frame then anchorShield config frame now s else s

theorem anchorStep_eq (config : AnchorTrackerConfig) (frame : VideoFrame) (now : ℕ)
    (shields : List TrackedShield) :
    anchorStep config frame now shields = shields.map (anchorFrame config frame now) := by
  by_cases h : HasPixels frame
  · have heq : anchorFrame config frame now = anchorShield config frame now :=
      funext fun s => if_pos h
    rw [heq]
    exact if_pos h
  · have heq : anchorFrame config frame now = id := funext fun s => if_neg h
    rw [heq, List.map_id]
    exact if_neg h

end Degoonification.VisualAnchorTracker
