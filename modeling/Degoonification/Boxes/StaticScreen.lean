import Degoonification.Boxes.ShieldCover
import Degoonification.Boxes.Similarity

/-! A static screen. Shields whose boxes are the detections of the first frame and
whose anchors were sampled on the same frame are locked by every later call, and
a detection that is seen again is taken in by its own shield, where the EMA with
an equal box changes nothing. -/

namespace Degoonification

namespace BoundingBox

theorem iou_self {b : BoundingBox} (hw : 0 < b.width) (hh : 0 < b.height) : b.iou b = 1 :=
  (iou_eq_one_iff hw hh hw hh).mpr rfl

end BoundingBox

namespace VisualAnchorTracker

open BoundingBox

/-! ### Anchors on the frame they were sampled on -/

/-- An anchor inside the frame with the colour its pixel has there. -/
def Sampled (frame : VideoFrame) (a : AnchorPixel) : Prop :=
  (0 ≤ a.x ∧ a.x < toInt32 frame.width ∧ 0 ≤ a.y ∧ a.y < toInt32 frame.height) ∧
    getPixelRgb frame a.x a.y = (a.r, a.g, a.b)

theorem sampled_of_mem_addPt {frame : VideoFrame} {px py : ℤ} {a : AnchorPixel}
    (h : a ∈ addPt frame px py) : Sampled frame a := by
  rw [addPt] at h
  split_ifs at h with hin
  · obtain rfl := List.mem_singleton.mp h
    exact ⟨hin, rfl⟩
  · exact absurd h List.not_mem_nil

theorem sampled_of_mem_sampleAnchors {config : AnchorTrackerConfig} {frame : VideoFrame}
    {box : BoundingBox} {a : AnchorPixel} (h : a ∈ sampleAnchors config frame box) :
    Sampled frame a := by
  rw [sampleAnchors] at h
  split_ifs at h
  · exact absurd h List.not_mem_nil
  · simp only [List.mem_append, List.mem_flatMap] at h
    obtain ⟨_, _, h | h⟩ | ⟨_, _, h | h⟩ := h <;> exact sampled_of_mem_addPt h

theorem evalAnchor_sampled {frame : VideoFrame} {a : AnchorPixel} (h : Sampled frame a)
    (acc : ℚ × ℕ) : evalAnchor frame 0 acc a = (acc.1, acc.2 + 1) := by
  obtain ⟨⟨hx0, hx, hy0, hy⟩, hcolour⟩ := h
  rw [evalAnchor, add_zero, if_pos ⟨hy0, hy, hx0, hx⟩, hcolour]
  simp [absDiff]

theorem foldl_evalAnchor {frame : VideoFrame} {anchors : List AnchorPixel}
    (h : ∀ a ∈ anchors, Sampled frame a) (acc : ℚ × ℕ) :
    anchors.foldl (evalAnchor frame 0) acc = (acc.1, acc.2 + anchors.length) := by
  induction anchors generalizing acc with
  | nil => rfl
  | cons a anchors ih =>
    rw [List.foldl_cons, evalAnchor_sampled (h a List.mem_cons_self),
      ih fun a ha => h a (List.mem_cons_of_mem _ ha), List.length_cons]
    exact Prod.ext rfl (by omega)

/-- The error of enough anchors on their own frame. -/
theorem evalAnchors_sampled {frame : VideoFrame} {anchors : List AnchorPixel}
    (hdata : frame.data.isSome) (h : ∀ a ∈ anchors, Sampled frame a)
    (hlen : 4 ≤ anchors.length) : evalAnchors frame anchors 0 = 0 := by
  have hne : anchors.isEmpty = false := by cases anchors with
    | nil => exact absurd hlen (by simp)
    | cons => rfl
  have hcond : ¬(frame.data.isNone = true ∨ anchors.isEmpty = true) := by
    simp [Option.isNone_eq_false_iff.mpr hdata, hne]
  rw [evalAnchors, if_neg hcond, foldl_evalAnchor h]
  simp [hlen]

/-! ### Ingestion -/

section Scene

/-- A frame and detections that stand still: the detections have area, do not
take each other in, and are surrounded by enough anchors. -/
structure StaticScene (config : AnchorTrackerConfig) (frame : VideoFrame)
    (dets : List BoundingBox) : Prop where
  positive : ∀ d ∈ dets, 0 < d.width ∧ 0 < d.height
  apart : dets.Pairwise fun d d' => d.iou d' ≤ config.mergeIouThreshold
  threshold : config.mergeIouThreshold < 1
  anchored : ∀ d ∈ dets, 4 ≤ (sampleAnchors config frame d).length
  error : 0 < config.anchorErrorThreshold
  persistence : 0 < config.persistenceWindowMs
  decay : 0 < config.dynamicDecayMs

/-- The shield carries the anchors its box has on the frame. -/
def Anchored (config : AnchorTrackerConfig) (frame : VideoFrame) (s : TrackedShield) : Prop :=
  s.anchors = sampleAnchors config frame s.box

variable {config : AnchorTrackerConfig} {frame : VideoFrame} {dets : List BoundingBox} {now : ℕ}

theorem StaticScene.hasData (hS : StaticScene config frame dets) {d : BoundingBox} (hd : d ∈ dets) :
    frame.data.isSome ∧ 0 < frame.width ∧ 0 < frame.height := by
  have hlen := hS.anchored d hd
  rw [sampleAnchors] at hlen
  split_ifs at hlen with hcond
  · exact absurd hlen (by simp)
  · push Not at hcond
    obtain ⟨hdata, hw, hh⟩ := hcond
    exact ⟨Option.isSome_iff_ne_none.mpr (by simpa using hdata), Nat.pos_of_ne_zero hw,
      Nat.pos_of_ne_zero hh⟩

theorem overlaps_self {d : BoundingBox} (hpos : 0 < d.width ∧ 0 < d.height)
    (hthr : config.mergeIouThreshold < 1) :
    d.overlaps d config.mergeIouThreshold = true := by
  rw [overlaps, iou_self hpos.1 hpos.2]
  exact decide_eq_true hthr

theorem blend_self (a : ℚ) (d : BoundingBox) : blend a d d = d := by
  have hmix (v : ℚ) : a * v + (1 - a) * v = v := by ring
  simp only [blend, hmix]

/-- A detection that is the box of one of the shields is taken in by that shield. -/
theorem ingest_own {shields : List TrackedShield} {d : BoundingBox}
    (hframe : frame.data.isSome ∧ 0 < frame.width) (hthr : config.mergeIouThreshold < 1)
    (hpos : 0 < d.width ∧ 0 < d.height)
    (hapart : (shields.map (·.box)).Pairwise fun b c => b.iou c ≤ config.mergeIouThreshold)
    (hd : d ∈ shields.map (·.box))
    (hseen : ∀ s ∈ shields, Anchored config frame s ∧ s.lastSeenMs = now) :
    (ingest config frame now shields d).map (·.box) = shields.map (·.box) ∧
      ∀ s ∈ ingest config frame now shields d, Anchored config frame s ∧ s.lastSeenMs = now := by
  induction shields with
  | nil => exact absurd hd List.not_mem_nil
  | cons s rest ih =>
    rw [List.map_cons, List.pairwise_cons] at hapart
    obtain ⟨hs, hrest⟩ := List.forall_mem_cons.mp hseen
    rw [ingest]
    split_ifs with hov
    · have hbox : s.box = d := by
        obtain h | h := List.mem_cons.mp hd
        · exact h.symm
        · have hle := hapart.1 d h
          have hlt : config.mergeIouThreshold < s.box.iou d := of_decide_eq_true hov
          exact absurd hlt (not_lt.mpr hle)
      have hsmooth : (smooth config frame now d s).box = d := by
        rw [smooth, hbox]
        exact blend_self _ d
      refine ⟨by rw [List.map_cons, List.map_cons, hsmooth, hbox],
        List.forall_mem_cons.mpr ⟨⟨?_, rfl⟩, hrest⟩⟩
      exact if_pos hframe
    · have hrestd : d ∈ rest.map (·.box) := by
        obtain h | h := List.mem_cons.mp hd
        · have hself : s.box.overlaps d config.mergeIouThreshold = true :=
            (show d = s.box from h) ▸ overlaps_self hpos hthr
          exact absurd hself hov
        · exact h
      obtain ⟨hboxes, hall⟩ := ih hapart.2 hrestd hrest
      exact ⟨by rw [List.map_cons, List.map_cons, hboxes], List.forall_mem_cons.mpr ⟨hs, hall⟩⟩

/-- A detection that overlaps no shield makes a new one at the end. -/
theorem ingest_new {shields : List TrackedShield} {d : BoundingBox}
    (h : ∀ s ∈ shields, s.box.iou d ≤ config.mergeIouThreshold) :
    ingest config frame now shields d = shields ++ [newShield config frame now d] := by
  induction shields with
  | nil => rfl
  | cons s rest ih =>
    obtain ⟨hs, hrest⟩ := List.forall_mem_cons.mp h
    have hov : s.box.overlaps d config.mergeIouThreshold = false :=
      decide_eq_false (not_lt.mpr hs)
    rw [ingest, hov, ih hrest]
    rfl

variable (now) in
/-- The detections of the first frame make one shield each, in order. -/
theorem foldl_ingest_new {rest : List BoundingBox} {shields : List TrackedShield}
    (hframe : rest ≠ [] → frame.data.isSome ∧ 0 < frame.width)
    (hapart : (shields.map (·.box) ++ rest).Pairwise fun b c => b.iou c ≤ config.mergeIouThreshold)
    (hseen : ∀ s ∈ shields, Anchored config frame s ∧ s.lastSeenMs = now) :
    (rest.foldl (ingest config frame now) shields).map (·.box) = shields.map (·.box) ++ rest ∧
      ∀ s ∈ rest.foldl (ingest config frame now) shields,
        Anchored config frame s ∧ s.lastSeenMs = now := by
  induction rest generalizing shields with
  | nil => exact ⟨(List.append_nil _).symm, hseen⟩
  | cons d rest ih =>
    have hnew : ∀ s ∈ shields, s.box.iou d ≤ config.mergeIouThreshold := fun s hs =>
      (List.pairwise_append.mp hapart).2.2 s.box (List.mem_map_of_mem hs) d List.mem_cons_self
    have hboxes : (shields ++ [newShield config frame now d]).map (·.box) ++ rest =
        shields.map (·.box) ++ d :: rest := by
      simp [newShield]
    rw [List.foldl_cons, ingest_new hnew, ← hboxes]
    refine ih (fun _ => hframe (List.cons_ne_nil d rest)) (hboxes ▸ hapart) fun s hs => ?_
    obtain hs | hs := List.mem_append.mp hs
    · exact hseen s hs
    · obtain rfl := List.mem_singleton.mp hs
      exact ⟨if_pos (hframe (List.cons_ne_nil d rest)), rfl⟩

/-- Detections seen again change no box. -/
theorem foldl_ingest_own (hS : StaticScene config frame dets) {again : List BoundingBox}
    (hagain : again ⊆ dets) {shields : List TrackedShield} (hboxes : shields.map (·.box) = dets)
    (hseen : ∀ s ∈ shields, Anchored config frame s ∧ s.lastSeenMs = now) :
    (again.foldl (ingest config frame now) shields).map (·.box) = dets ∧
      ∀ s ∈ again.foldl (ingest config frame now) shields,
        Anchored config frame s ∧ s.lastSeenMs = now := by
  induction again generalizing shields with
  | nil => exact ⟨hboxes, hseen⟩
  | cons d again ih =>
    obtain ⟨hd, hrest⟩ := List.cons_subset.mp hagain
    obtain ⟨hdata, hw, -⟩ := hS.hasData hd
    obtain ⟨hboxes', hseen'⟩ := ingest_own ⟨hdata, hw⟩ hS.threshold (hS.positive d hd)
      (hboxes ▸ hS.apart) (hboxes.symm ▸ hd) hseen
    exact ih hrest (hboxes'.trans hboxes) hseen'

variable (now) in
/-- On its own frame every shield is locked where it is. -/
theorem anchorStep_own (hS : StaticScene config frame dets) {shields : List TrackedShield}
    (hboxes : shields.map (·.box) = dets) (hanchored : ∀ s ∈ shields, Anchored config frame s) :
    (anchorStep config frame now shields).map (·.box) = dets ∧
      ∀ s ∈ anchorStep config frame now shields, Anchored config frame s ∧ s.lastSeenMs = now := by
  have hlocked : ∀ s ∈ shields, anchorShield config frame now s =
      { s with isStatic := true, lastSeenMs := now } := by
    intro s hs
    have hd : s.box ∈ dets := hboxes ▸ List.mem_map_of_mem hs
    have hlen : 4 ≤ s.anchors.length := by
      rw [hanchored s hs]
      exact hS.anchored s.box hd
    have hsampled : ∀ a ∈ s.anchors, Sampled frame a := by
      rw [hanchored s hs]
      exact fun a ha => sampled_of_mem_sampleAnchors ha
    have hne : ¬s.anchors.isEmpty = true := by
      rw [List.isEmpty_iff]
      intro h0
      rw [h0] at hlen
      exact absurd hlen (by simp)
    rw [anchorShield, if_neg hne, evalAnchors_sampled (hS.hasData hd).1 hsampled hlen]
    exact if_pos hS.error
  cases hshields : shields with
  | nil =>
    rw [anchorStep, List.map_nil, ite_self, ← hboxes, hshields]
    exact ⟨rfl, fun s hs => absurd hs List.not_mem_nil⟩
  | cons s₀ rest =>
    have hd : s₀.box ∈ dets := by rw [← hboxes, hshields]; exact List.mem_cons_self
    rw [← hshields, anchorStep, if_pos (hS.hasData hd), List.map_congr_left hlocked]
    refine ⟨by rw [List.map_map, ← hboxes]; rfl, fun s hs => ?_⟩
    obtain ⟨s', hs', rfl⟩ := List.mem_map.mp hs
    exact ⟨hanchored s' hs', rfl⟩

/-! ### Calls -/

/-- The padded and merged detections, which is what every call returns. -/
def steadyBoxes (config : AnchorTrackerConfig) (dets : List BoundingBox) : List BoundingBox :=
  mergeOverlappingBoxes (dets.map fun d => d.expanded config.paddingRatio)
    config.mergeIouThreshold

/-- The tracker has one shield for each detection of the scene. -/
structure Settled (config : AnchorTrackerConfig) (frame : VideoFrame) (dets : List BoundingBox)
    (t : VisualAnchorTracker) : Prop where
  config_eq : t.config = config
  boxes : t.shields.map (·.box) = dets
  anchored : ∀ s ∈ t.shields, Anchored config frame s

/-- A call whose shields were all seen in it keeps all of them. -/
theorem processFrame_seen {t : VisualAnchorTracker} {again : List BoundingBox}
    (hS : StaticScene config frame dets) (hconfig : t.config = config)
    (hboxes : (t.ingested frame again now).map (·.box) = dets)
    (hseen : ∀ s ∈ t.ingested frame again now, Anchored config frame s ∧ s.lastSeenMs = now) :
    Settled config frame dets (t.processFrame frame again now).1 ∧
      (t.processFrame frame again now).2 = steadyBoxes config dets := by
  have hkeep : (t.ingested frame again now).filter (fun s => !isStale t.config now s) =
      t.ingested frame again now := by
    refine List.filter_eq_self.mpr fun s hs => ?_
    rw [hconfig, not_isStale_of_seen hS.persistence hS.decay (hseen s hs).2]
    rfl
  rw [processFrame, hkeep]
  refine ⟨⟨hconfig, hboxes, fun s hs => (hseen s hs).1⟩, ?_⟩
  rw [render, steadyBoxes, ← hboxes, List.map_map, hconfig]
  rfl

variable (now) in
theorem settled_first (hS : StaticScene config frame dets) {t : VisualAnchorTracker}
    (hconfig : t.config = config) (hempty : t.shields = []) :
    Settled config frame dets (t.processFrame frame dets now).1 ∧
      (t.processFrame frame dets now).2 = steadyBoxes config dets := by
  have hstart : t.ingested frame dets now = dets.foldl (ingest config frame now) [] := by
    rw [ingested, hempty, anchorStep, List.map_nil, ite_self, hconfig]
  have hframe : dets ≠ [] → frame.data.isSome ∧ 0 < frame.width := by
    intro hne
    obtain ⟨d, hd⟩ := List.exists_mem_of_ne_nil dets hne
    exact ⟨(hS.hasData hd).1, (hS.hasData hd).2.1⟩
  obtain ⟨hboxes, hseen⟩ := foldl_ingest_new now hframe
    (by rw [List.map_nil, List.nil_append]; exact hS.apart) (fun s hs => absurd hs List.not_mem_nil)
  rw [← hstart] at hboxes hseen
  exact processFrame_seen hS hconfig hboxes hseen

/-- A settled tracker stays settled whatever of the scene is detected again. -/
theorem Settled.processFrame (hS : StaticScene config frame dets) {t : VisualAnchorTracker}
    (h : Settled config frame dets t) {again : List BoundingBox} (hagain : again ⊆ dets) :
    Settled config frame dets (t.processFrame frame again now).1 ∧
      (t.processFrame frame again now).2 = steadyBoxes config dets := by
  obtain ⟨hconfig, hboxes, hanchored⟩ := h
  obtain ⟨hboxes', hseen'⟩ := anchorStep_own now hS hboxes hanchored
  obtain ⟨hboxes'', hseen''⟩ := foldl_ingest_own hS hagain hboxes' hseen'
  rw [← hconfig] at hboxes'' hseen''
  exact processFrame_seen hS hconfig hboxes'' (hconfig ▸ hseen'')

theorem Settled.runFrames (hS : StaticScene config frame dets) {calls : List Call}
    (hcalls : ∀ c ∈ calls, c.frame = frame ∧ c.detections ⊆ dets) {t : VisualAnchorTracker}
    (h : Settled config frame dets t) : Settled config frame dets (t.runFrames calls) := by
  refine runFrames_keeps (fun u hu c hc => ?_) h
  obtain ⟨hframe, hdets⟩ := hcalls c hc
  rw [hframe]
  exact (hu.processFrame hS hdets).1

end Scene

/-- On a static screen every later call returns what the first one did, whatever
part of the detections it is given, at whatever time. -/
theorem returned_static_screen {t : VisualAnchorTracker} {frame : VideoFrame}
    {dets : List BoundingBox} (hS : StaticScene t.config frame dets) (hempty : t.shields = [])
    (first : ℕ) {calls : List Call}
    (hcalls : ∀ c ∈ calls, c.frame = frame ∧ c.detections ⊆ dets) {again : List BoundingBox}
    (hagain : again ⊆ dets) (now : ℕ) :
    (((t.processFrame frame dets first).1.runFrames calls).processFrame frame again now).2 =
      (t.processFrame frame dets first).2 := by
  obtain ⟨hsettled, hfirst⟩ := settled_first first hS rfl hempty
  rw [((hsettled.runFrames hS hcalls).processFrame hS hagain).2, hfirst]

def greyFrame : VideoFrame :=
  { width := 60, height := 60, stride := 240, data := some (List.replicate 14400 127) }

def centre : BoundingBox := { x := 2 / 5, y := 2 / 5, width := 1 / 5, height := 1 / 5 }

/-- A minute later nothing is detected, and the box is still there. -/
theorem centre_returned : (((processFrame {} greyFrame [centre] 0).1.runFrames
    [⟨greyFrame, [], 16⟩]).processFrame greyFrame [] 60000).2 =
      (processFrame {} greyFrame [centre] 0).2 :=
  have hS : StaticScene {} greyFrame [centre] :=
    { positive := fun d hd => by obtain rfl := List.mem_singleton.mp hd; decide +kernel
      apart := List.pairwise_singleton ..
      threshold := by decide +kernel
      anchored := fun d hd => by obtain rfl := List.mem_singleton.mp hd; decide +kernel
      error := by decide +kernel
      persistence := by decide
      decay := by decide }
  returned_static_screen hS rfl 0
    (fun c hc => by obtain rfl := List.mem_singleton.mp hc; exact ⟨rfl, List.nil_subset _⟩)
    (List.nil_subset _) 60000

end VisualAnchorTracker

end Degoonification
