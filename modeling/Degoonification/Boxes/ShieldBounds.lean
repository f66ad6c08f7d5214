import Degoonification.Boxes.AnchorStep
import Degoonification.Boxes.ShieldCover

/-! The boxes of the shields stay on screen. The EMA of two boxes on screen is on
screen edge by edge, a scroll clamps the position to where the box fits, and a new
shield takes the box of its detection. So the upper bound that `std::clamp` gets is
never below its lower bound 0. -/

namespace Degoonification.VisualAnchorTracker

open BoundingBox

/-- The bounds of `std::clamp` are in order for a box on screen. -/
theorem OnScreen.height_le {b : BoundingBox} (h : OnScreen b) : 0 ≤ 1 - b.height := by
  have htop := h.top
  have hbottom := h.bottom
  simp only [BoundingBox.top, BoundingBox.bottom] at htop hbottom
  linarith

theorem OnScreen.blend {a : ℚ} (ha : 0 ≤ a) (ha' : a ≤ 1) {det b : BoundingBox}
    (hdet : OnScreen det) (hb : OnScreen b) : OnScreen (blend a det b) := by
  obtain ⟨hl, hr, ht, hbot, hw, hh⟩ := hdet
  obtain ⟨hl', hr', ht', hbot', hw', hh'⟩ := hb
  have ha'' : 0 ≤ 1 - a := sub_nonneg.mpr ha'
  simp only [BoundingBox.left, BoundingBox.right, BoundingBox.top, BoundingBox.bottom] at *
  constructor <;> simp only [BoundingBox.left, BoundingBox.right, BoundingBox.top,
    BoundingBox.bottom, VisualAnchorTracker.blend]
  · positivity
  · nlinarith
  · positivity
  · nlinarith
  · positivity
  · positivity

theorem OnScreen.scroll {frame : VideoFrame} {now : ℕ} {s : TrackedShield} (h : OnScreen s.box)
    (dy : ℤ) : OnScreen (scroll frame now s dy).box := by
  obtain ⟨hy, hy'⟩ := clamp_mem (v := s.box.y + (dy : ℚ) / frame.height) h.height_le
  refine ⟨h.left, h.right, hy, ?_, h.width, h.height⟩
  simp only [BoundingBox.bottom, VisualAnchorTracker.scroll]
  linarith

theorem OnScreen.anchorFrame {config : AnchorTrackerConfig} {frame : VideoFrame} {now : ℕ}
    {s : TrackedShield} (h : OnScreen s.box) : OnScreen (anchorFrame config frame now s).box := by
  rw [VisualAnchorTracker.anchorFrame, anchorShield_eq]
  split_ifs
  · exact h
  · cases scrollMatch frame s with
    | none => exact h
    | some dy => exact h.scroll dy
  · exact h

/-! ### What every shield keeps -/

section ForallMem

variable {Q : TrackedShield → Prop} {config : AnchorTrackerConfig} {frame : VideoFrame} {now : ℕ}

theorem forall_mem_ingest {det : BoundingBox} (hnew : Q (newShield config frame now det))
    (hsmooth : ∀ s, Q s → Q (smooth config frame now det s)) {shields : List TrackedShield}
    (hshields : ∀ s ∈ shields, Q s) : ∀ s ∈ ingest config frame now shields det, Q s := by
  induction shields with
  | nil => exact List.forall_mem_singleton.mpr hnew
  | cons s rest ih =>
    obtain ⟨hs, hrest⟩ := List.forall_mem_cons.mp hshields
    rw [ingest]
    split_ifs
    · exact List.forall_mem_cons.mpr ⟨hsmooth s hs, hrest⟩
    · exact List.forall_mem_cons.mpr ⟨hs, ih hrest⟩

theorem forall_mem_foldl_ingest {dets : List BoundingBox}
    (hnew : ∀ d ∈ dets, Q (newShield config frame now d))
    (hsmooth : ∀ d ∈ dets, ∀ s, Q s → Q (smooth config frame now d s))
    {shields : List TrackedShield} (hshields : ∀ s ∈ shields, Q s) :
    ∀ s ∈ dets.foldl (ingest config frame now) shields, Q s := by
  induction dets generalizing shields with
  | nil => exact hshields
  | cons d dets ih =>
    obtain ⟨hnew₁, hnew⟩ := List.forall_mem_cons.mp hnew
    obtain ⟨hsmooth₁, hsmooth⟩ := List.forall_mem_cons.mp hsmooth
    exact ih hnew hsmooth (forall_mem_ingest hnew₁ hsmooth₁ hshields)

end ForallMem

/-! ### Runs -/

/-- The boxes of all shields are on screen. -/
def AllOnScreen (shields : List TrackedShield) : Prop := ∀ s ∈ shields, OnScreen s.box

theorem AllOnScreen.anchorStep {shields : List TrackedShield} (h : AllOnScreen shields)
    (config : AnchorTrackerConfig) (frame : VideoFrame) (now : ℕ) :
    AllOnScreen (anchorStep config frame now shields) := by
  rw [anchorStep_eq]
  exact List.forall_mem_map.mpr fun s hs => (h s hs).anchorFrame

section Calls

variable {t : VisualAnchorTracker} (ha : 0 ≤ t.config.emaAlpha) (ha' : t.config.emaAlpha ≤ 1)
include ha ha'

theorem AllOnScreen.ingested (h : AllOnScreen t.shields) (frame : VideoFrame)
    {dets : List BoundingBox} (hdets : ∀ d ∈ dets, OnScreen d) (now : ℕ) :
    AllOnScreen (t.ingested frame dets now) :=
  forall_mem_foldl_ingest (fun d hd => hdets d hd)
    (fun d hd _ hs => (hdets d hd).blend ha ha' hs) (h.anchorStep t.config frame now)

theorem AllOnScreen.processFrame (h : AllOnScreen t.shields) (frame : VideoFrame)
    {dets : List BoundingBox} (hdets : ∀ d ∈ dets, OnScreen d) (now : ℕ) :
    AllOnScreen (t.processFrame frame dets now).1.shields :=
  fun s hs => h.ingested ha ha' frame hdets now s (List.mem_filter.mp hs).1

end Calls

theorem allOnScreen_runFrames {calls : List Call}
    (hdets : ∀ c ∈ calls, ∀ d ∈ c.detections, OnScreen d) {t : VisualAnchorTracker}
    (ha : 0 ≤ t.config.emaAlpha) (ha' : t.config.emaAlpha ≤ 1) (h : AllOnScreen t.shields) :
    AllOnScreen (t.runFrames calls).shields := by
  have hstep (u : VisualAnchorTracker) (hu : u.config = t.config ∧ AllOnScreen u.shields)
      (c : Call) (hc : c ∈ calls) :
      (u.processFrame c.frame c.detections c.time).1.config = t.config ∧
        AllOnScreen (u.processFrame c.frame c.detections c.time).1.shields := by
    obtain ⟨hconfig, hu⟩ := hu
    rw [← hconfig] at ha ha'
    exact ⟨hconfig, hu.processFrame ha ha' c.frame (hdets c hc) c.time⟩
  exact (runFrames_keeps hstep ⟨rfl, h⟩).2

/-- In a call of any run every shield box is on screen before the call, after the
anchor step, after every detection and after the purge, and wherever a shield may be
scrolled the bounds of its clamp are in order. -/
theorem shields_onScreen (config : AnchorTrackerConfig) (ha : 0 ≤ config.emaAlpha)
    (ha' : config.emaAlpha ≤ 1) {calls : List Call} {c : Call}
    (hdets : ∀ c' ∈ calls ++ [c], ∀ d ∈ c'.detections, OnScreen d) :
    let t := runFrames { config } calls
    (∀ s ∈ t.shields, OnScreen s.box ∧ 0 ≤ 1 - s.box.height) ∧
      AllOnScreen (anchorStep config c.frame c.time t.shields) ∧
      (∀ k, AllOnScreen (t.ingested c.frame (c.detections.take k) c.time)) ∧
      AllOnScreen (t.processFrame c.frame c.detections c.time).1.shields := by
  intro t
  obtain ⟨hcalls, hc⟩ := List.forall_mem_append.mp hdets
  have hc := List.forall_mem_singleton.mp hc
  have hconfig : t.config = config := config_runFrames { config } calls
  have hshields : AllOnScreen t.shields :=
    allOnScreen_runFrames hcalls ha ha' fun s hs => absurd hs List.not_mem_nil
  rw [← hconfig] at ha ha' ⊢
  refine ⟨fun s hs => ⟨hshields s hs, (hshields s hs).height_le⟩,
    hshields.anchorStep _ _ _, fun k => ?_, hshields.processFrame ha ha' c.frame hc c.time⟩
  exact hshields.ingested ha ha' c.frame (fun d hd => hc d (List.mem_of_mem_take hd)) c.time

def corner : BoundingBox := { x := 1 / 2, y := 1 / 2, width := 1 / 2, height := 1 / 2 }

def grown : BoundingBox := { corner with x := 2 / 5, width := 3 / 5 }

/-- A box in the corner, and a detection that reaches further to the left. -/
theorem shields_onScreen_corner :
    AllOnScreen ((runFrames {} [⟨{}, [corner], 0⟩]).processFrame {} [grown] 16).1.shields := by
  have hcorner : OnScreen corner := by constructor <;> decide +kernel
  have hgrown : OnScreen grown := by constructor <;> decide +kernel
  refine (shields_onScreen {} (by decide +kernel) (by decide +kernel)
    (c := ⟨{}, [grown], 16⟩) fun c hc d hd => ?_).2.2.2
  rcases List.mem_pair.mp hc with rfl | rfl <;> obtain rfl := List.mem_singleton.mp hd
  · exact hcorner
  · exact hgrown

end Degoonification.VisualAnchorTracker
