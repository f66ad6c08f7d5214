import Degoonification.Boxes.Merging
import Degoonification.Boxes.ShieldCover
import Degoonification.Boxes.TemporalSmoothing

/-! Rendered boxes against the screen. `expanded` cuts the near edges at 0 and the
far edges at 1 and keeps the near edge where the far edge falls behind it, so the
padded box is on screen exactly if its near edges do not lie beyond 1. Uniting only
moves the near edges back, so a run whose detections all meet this returns boxes on
screen only. -/

namespace Degoonification

open VisualAnchorTracker (OnScreen)

namespace BoundingBox

/-- Padded by the ratio, the box begins before the right and the bottom edge of the
screen. -/
structure Reaches (ratio : ℚ) (b : BoundingBox) : Prop where
  x : b.x - b.width * ratio * (1 / 2) ≤ 1
  y : b.y - b.height * ratio * (1 / 2) ≤ 1

theorem add_max_sub (a b : ℚ) : a + max 0 (b - a) = max a b := by
  rw [← max_add_add_left, add_zero, add_sub_cancel]

theorem expanded_onScreen_iff (b : BoundingBox) (ratio : ℚ) :
    OnScreen (b.expanded ratio) ↔ Reaches ratio b := by
  constructor
  · intro h
    have hr := h.right
    have hb := h.bottom
    simp only [right, bottom, expanded, add_max_sub] at hr hb
    exact ⟨(le_max_right _ _).trans ((le_max_left _ _).trans hr),
      (le_max_right _ _).trans ((le_max_left _ _).trans hb)⟩
  · rintro ⟨hx, hy⟩
    refine ⟨le_max_left _ _, ?_, le_max_left _ _, ?_, le_max_left _ _, le_max_left _ _⟩
    · simp only [right, expanded, add_max_sub]
      exact max_le (max_le zero_le_one hx) (min_le_left _ _)
    · simp only [bottom, expanded, add_max_sub]
      exact max_le (max_le zero_le_one hy) (min_le_left _ _)

/-- Growing a box does not move its padded near edges forward. -/
theorem Reaches.of_inside {ratio : ℚ} {b c : BoundingBox} (hratio : 0 ≤ ratio) (h : Inside b c)
    (hb : Reaches ratio b) : Reaches ratio c := by
  obtain ⟨hl, hr, ht, hbot⟩ := h
  obtain ⟨hx, hy⟩ := hb
  simp only [left, right, top, bottom] at hl hr ht hbot
  have hw : b.width * ratio ≤ c.width * ratio :=
    mul_le_mul_of_nonneg_right (by linarith) hratio
  have hh : b.height * ratio ≤ c.height * ratio :=
    mul_le_mul_of_nonneg_right (by linarith) hratio
  exact ⟨by linarith, by linarith⟩

theorem IsHull.onScreen {group : List BoundingBox} {b : BoundingBox} (h : IsHull group b)
    (hgroup : ∀ c ∈ group, OnScreen c) : OnScreen b := by
  obtain ⟨c, hc, hleft⟩ := h.left.1
  obtain ⟨c', hc', htop⟩ := h.top.1
  obtain ⟨d, hd, hright⟩ := h.right.1
  obtain ⟨d', hd', hbottom⟩ := h.bottom.1
  have hcr : c.right ≤ b.right := h.right.2 (Set.mem_image_of_mem _ hc)
  have hcb : c'.bottom ≤ b.bottom := h.bottom.2 (Set.mem_image_of_mem _ hc')
  refine ⟨?_, ?_, ?_, ?_, ?_, ?_⟩
  · exact hleft ▸ (hgroup c hc).left
  · exact hright ▸ (hgroup d hd).right
  · exact htop ▸ (hgroup c' hc').top
  · exact hbottom ▸ (hgroup d' hd').bottom
  · have hw := (hgroup c hc).width
    simp only [BoundingBox.left, BoundingBox.right] at hleft hcr
    linarith
  · have hh := (hgroup c' hc').height
    simp only [BoundingBox.top, BoundingBox.bottom] at htop hcb
    linarith

end BoundingBox

open BoundingBox

namespace TemporalSmoothingTracker

/-- The boxes rendered for a list of tracked boxes are on screen exactly if every
tracked box reaches the screen. -/
theorem render_onScreen_iff (config : TrackerConfig) (boxes : List BoundingBox) :
    (∀ b ∈ render config boxes, OnScreen b) ↔ ∀ b ∈ boxes, Reaches config.paddingRatio b := by
  simp only [← expanded_onScreen_iff]
  constructor
  · intro h b hb
    obtain ⟨c, hc, hin⟩ := exists_inside_mergeOverlappingBoxes
      (List.mem_map_of_mem (f := fun b => b.expanded config.paddingRatio) hb)
      config.mergeIouThreshold
    exact ⟨le_max_left _ _, hin.right.trans (h c hc).right, le_max_left _ _,
      hin.bottom.trans (h c hc).bottom, le_max_left _ _, le_max_left _ _⟩
  · intro h b hb
    have hmap : ∀ c ∈ boxes.map fun b => b.expanded config.paddingRatio, OnScreen c :=
      List.forall_mem_map.mpr h
    obtain ⟨g, hg, hhull⟩ := exists_isHull_of_mem
      (fun c hc => ⟨(hmap c hc).width, (hmap c hc).height⟩) hb
    exact hhull.onScreen fun c hc => hmap c (hg c hc)

/-! ### Runs -/

theorem reaches_track {t : TemporalSmoothingTracker} (hratio : 0 ≤ t.config.paddingRatio)
    (ht : ∀ b ∈ t.trackedBoxes, Reaches t.config.paddingRatio b) {dets : List BoundingBox}
    (hdets : ∀ d ∈ dets, Reaches t.config.paddingRatio d) (now : ℕ) :
    ∀ b ∈ t.track dets now, Reaches t.config.paddingRatio b := by
  refine forall_mem_foldl_ingest (fun d hd => ?_) (fun d _ b hb => ?_)
    fun b hb => ht b (List.mem_filter.mp hb).1
  · exact ⟨(hdets d hd).x, (hdets d hd).y⟩
  · have hunited := hb.of_inside hratio (inside_united_left b { d with timestampMs := now })
    exact ⟨hunited.x, hunited.y⟩

theorem reaches_runFrames {calls : List Call} {t : TemporalSmoothingTracker}
    (hratio : 0 ≤ t.config.paddingRatio)
    (ht : ∀ b ∈ t.trackedBoxes, Reaches t.config.paddingRatio b)
    (hcalls : ∀ c ∈ calls, ∀ d ∈ c.detections, Reaches t.config.paddingRatio d) :
    ∀ b ∈ (t.runFrames calls).trackedBoxes, Reaches t.config.paddingRatio b := by
  have hstep (u : TemporalSmoothingTracker)
      (hu : u.config = t.config ∧ ∀ b ∈ u.trackedBoxes, Reaches t.config.paddingRatio b)
      (c : Call) (hc : c ∈ calls) :
      (u.processFrame c.detections c.time).1.config = t.config ∧
        ∀ b ∈ (u.processFrame c.detections c.time).1.trackedBoxes,
          Reaches t.config.paddingRatio b := by
    obtain ⟨hconfig, hu⟩ := hu
    have hdets := hcalls c hc
    rw [← hconfig] at hratio hu hdets ⊢
    exact ⟨rfl, reaches_track hratio hu hdets c.time⟩
  exact (runFrames_keeps hstep ⟨rfl, ht⟩).2

/-! ### The C interface -/

/-- The arguments of `dg_tracker_process`: `inBoxes` is empty for a null pointer or a
count that is not positive, and `outBoxes` tells whether that pointer is set. -/
structure ApiCall where
  inBoxes : List BoundingBox
  timestampMs : ℕ
  outBoxes : Bool
  maxOutCount : Int32

def dgTrackerCreate (persistenceWindowMs : ℕ) (paddingRatio mergeIouThreshold : ℚ) :
    TemporalSmoothingTracker where
  config := {
    persistenceWindowMs := if persistenceWindowMs = 0 then 300 else persistenceWindowMs
    paddingRatio := if paddingRatio ≤ 0 then 15 / 100 else paddingRatio
    mergeIouThreshold := if mergeIouThreshold ≤ 0 then 25 / 100 else mergeIouThreshold }

def dgTrackerProcess (t : TemporalSmoothingTracker) (a : ApiCall) :
    TemporalSmoothingTracker × List BoundingBox :=
  if a.outBoxes = false ∨ a.maxOutCount ≤ 0 then (t, [])
  else
    let (tracker, results) := t.processFrame a.inBoxes a.timestampMs
    let count := min (Int32.ofNat results.length).toInt a.maxOutCount.toInt
    (tracker, results.take count.toNat)

def runApi (t : TemporalSmoothingTracker) (calls : List ApiCall) : TemporalSmoothingTracker :=
  calls.foldl (fun t a => (t.dgTrackerProcess a).1) t

theorem dgTrackerCreate_paddingRatio (w : ℕ) (p m : ℚ) :
    0 < (dgTrackerCreate w p m).config.paddingRatio := by
  simp only [dgTrackerCreate]
  split_ifs with hp
  · norm_num
  · exact not_le.mp hp

/-- The call of the tracker behind a call of the interface, if there is one. -/
def ApiCall.frame (a : ApiCall) : Option Call :=
  if a.outBoxes = false ∨ a.maxOutCount ≤ 0 then none else some ⟨a.inBoxes, a.timestampMs⟩

/-- A run through the interface is a run of frames. -/
theorem runApi_eq (t : TemporalSmoothingTracker) (calls : List ApiCall) :
    t.runApi calls = t.runFrames (calls.filterMap ApiCall.frame) := by
  induction calls generalizing t with
  | nil => rfl
  | cons a calls ih =>
    have hstep := ih (t.dgTrackerProcess a).1
    simp only [runApi, List.foldl_cons] at hstep ⊢
    rw [hstep, dgTrackerProcess, List.filterMap_cons, ApiCall.frame]
    split_ifs <;> rfl

/-- What the interface hands out is returned by a call of the tracker. -/
theorem mem_dgTrackerProcess {t : TemporalSmoothingTracker} {a : ApiCall} {b : BoundingBox}
    (hb : b ∈ (t.dgTrackerProcess a).2) : b ∈ (t.processFrame a.inBoxes a.timestampMs).2 := by
  rw [dgTrackerProcess] at hb
  split_ifs at hb
  · exact absurd hb List.not_mem_nil
  · exact List.mem_of_mem_take hb

theorem returned_onScreen {t : TemporalSmoothingTracker} (hfresh : t.trackedBoxes = [])
    (hratio : 0 ≤ t.config.paddingRatio) {calls : List Call} {c : Call}
    (h : ∀ c' ∈ calls ++ [c], ∀ d ∈ c'.detections, Reaches t.config.paddingRatio d) :
    ∀ b ∈ t.returned calls c, OnScreen b := by
  obtain ⟨hcalls, hc⟩ := List.forall_mem_append.mp h
  have hrun := reaches_runFrames hratio (by simp [hfresh]) hcalls
  rw [← config_runFrames t calls] at hrun hratio hc
  exact (render_onScreen_iff _ _).mpr
    (reaches_track hratio hrun (hc c (List.mem_singleton_self c)) c.time)

/-- In a run of a new tracker, by its calls or through the C interface, in which every
detection reaches the screen, every box returned is on screen. -/
theorem rendered_onScreen {t : TemporalSmoothingTracker} (hfresh : t.trackedBoxes = [])
    (hratio : 0 ≤ t.config.paddingRatio) :
    (∀ (calls : List Call) (c : Call),
        (∀ c' ∈ calls ++ [c], ∀ d ∈ c'.detections, Reaches t.config.paddingRatio d) →
          ∀ b ∈ t.returned calls c, OnScreen b) ∧
      ∀ (calls : List ApiCall) (a : ApiCall),
        (∀ a' ∈ calls ++ [a], ∀ d ∈ a'.inBoxes, Reaches t.config.paddingRatio d) →
          ∀ b ∈ ((t.runApi calls).dgTrackerProcess a).2, OnScreen b := by
  refine ⟨fun calls c h => returned_onScreen hfresh hratio h, fun calls a h b hb => ?_⟩
  obtain ⟨hcalls, ha⟩ := List.forall_mem_append.mp h
  have hframes : ∀ c' ∈ calls.filterMap ApiCall.frame ++ [⟨a.inBoxes, a.timestampMs⟩],
      ∀ d ∈ c'.detections, Reaches t.config.paddingRatio d := by
    refine List.forall_mem_append.mpr ⟨fun c' hc' => ?_, ?_⟩
    · obtain ⟨a', ha', hframe⟩ := List.mem_filterMap.mp hc'
      rw [ApiCall.frame] at hframe
      split_ifs at hframe
      obtain rfl := Option.some.inj hframe
      exact hcalls a' ha'
    · exact List.forall_mem_singleton.mpr (ha a (List.mem_singleton_self a))
  have hmem := mem_dgTrackerProcess hb
  rw [runApi_eq] at hmem
  exact returned_onScreen hfresh hratio hframes b hmem

/-- A detection that sticks out of the screen on the right, through the interface. -/
def stickingOut : ApiCall :=
  ⟨[{ x := 9 / 10, width := 3 / 10, height := 1 / 10 }], 0, true, 16⟩

theorem rendered_onScreen_edge :
    (((dgTrackerCreate 0 0 0).runApi []).dgTrackerProcess stickingOut).2.length = 1 ∧
      ∀ b ∈ (((dgTrackerCreate 0 0 0).runApi []).dgTrackerProcess stickingOut).2, OnScreen b := by
  refine ⟨by decide +kernel, ?_⟩
  refine (rendered_onScreen rfl (dgTrackerCreate_paddingRatio 0 0 0).le).2 [] _ fun a ha d hd => ?_
  obtain rfl := List.mem_singleton.mp ha
  obtain rfl := List.mem_singleton.mp hd
  exact ⟨by decide +kernel, by decide +kernel⟩

/-- A detection beyond the right edge is returned beyond the right edge. -/
theorem returned_offScreen :
    ∃ b ∈ returned ⟨{}, []⟩ [] ⟨[{ x := 2, width := 1 / 10, height := 1 / 10 }], 0⟩,
      1 < b.x + b.width := by
  decide +kernel

end TemporalSmoothingTracker

end Degoonification
