import Degoonification.Boxes.Forgetting
import Mathlib.Algebra.BigOperators.Group.List.Basic

/-! How much `TemporalSmoothingTracker` can hold. For any set of times, the tracked
boxes stamped with one of them are at most the detections fed at one of them: a box
created adds one of each, and a box united moves from its old time to the new one,
which the detection pays for. The purge leaves boxes of the last window only. -/

namespace Degoonification.TemporalSmoothingTracker

open BoundingBox

/-- The number of raw detections fed at times in `P`. -/
def fed (P : ℕ → Bool) (calls : List Call) : ℕ :=
  ((calls.filter fun c => P c.time).map fun c => c.detections.length).sum

/-- The number of boxes stamped with times in `P`. -/
def stamped (P : ℕ → Bool) (boxes : List BoundingBox) : ℕ :=
  boxes.countP fun b => P b.timestampMs

section Counting

variable {P : ℕ → Bool} {threshold : ℚ} {now : ℕ}

theorem stamped_cons (b : BoundingBox) (boxes : List BoundingBox) :
    stamped P (b :: boxes) = stamped P boxes + if P b.timestampMs then 1 else 0 :=
  List.countP_cons

/-- One detection adds at most one box, stamped with the current time. -/
theorem stamped_correlate_le {det : BoundingBox} (hdet : det.timestampMs = now)
    (boxes : List BoundingBox) :
    stamped P (correlate threshold now det boxes) ≤ stamped P boxes + if P now then 1 else 0 := by
  induction boxes with
  | nil => rw [correlate, stamped_cons, hdet]
  | cons existing rest ih =>
    by_cases hov : existing.overlaps det threshold = true
    · rw [correlate, if_pos hov, stamped_cons, stamped_cons]
      dsimp only
      omega
    · rw [correlate, if_neg hov, stamped_cons, stamped_cons]
      omega

theorem stamped_foldl_ingest_le (dets boxes : List BoundingBox) :
    stamped P (dets.foldl (ingest threshold now) boxes) ≤
      stamped P boxes + if P now then dets.length else 0 := by
  induction dets generalizing boxes with
  | nil => simp
  | cons det dets ih =>
    have hstamped : ({ det with timestampMs := now } : BoundingBox).timestampMs = now := rfl
    have hstep : stamped P (ingest threshold now boxes det) ≤
        stamped P boxes + if P now then 1 else 0 := stamped_correlate_le hstamped boxes
    have hrest := ih (ingest threshold now boxes det)
    rw [List.foldl_cons, List.length_cons]
    split_ifs at hstep hrest ⊢ <;> omega

/-- One call adds at most its detections. -/
theorem stamped_track_le (t : TemporalSmoothingTracker) (c : Call) :
    stamped P (t.track c.detections c.time) ≤ stamped P t.trackedBoxes + fed P [c] := by
  have hkept : stamped P (t.trackedBoxes.filter fun b =>
      !isStale t.config.persistenceWindowMs c.time b) ≤ stamped P t.trackedBoxes :=
    List.filter_sublist.countP_le
  have hfed : fed P [c] = if P c.time then c.detections.length else 0 := by
    cases hP : P c.time <;> simp [fed, hP]
  rw [hfed]
  exact (stamped_foldl_ingest_le c.detections _).trans (Nat.add_le_add_right hkept _)

theorem fed_cons (c : Call) (calls : List Call) : fed P (c :: calls) = fed P [c] + fed P calls := by
  cases hP : P c.time <;> simp [fed, hP]

theorem stamped_runFrames_le (t : TemporalSmoothingTracker) (calls : List Call) :
    stamped P (t.runFrames calls).trackedBoxes ≤ stamped P t.trackedBoxes + fed P calls := by
  induction calls generalizing t with
  | nil => exact Nat.le_add_right _ _
  | cons c calls ih =>
    have hstep := stamped_track_le (P := P) t c
    have hrest := ih (t.processFrame c.detections c.time).1
    have hboxes : (t.processFrame c.detections c.time).1.trackedBoxes =
        t.track c.detections c.time := rfl
    rw [hboxes] at hrest
    rw [fed_cons]
    exact hrest.trans (by omega)

end Counting

/-! ### Times -/

/-- A call at `now` keeps boxes of this time: now or inside the window before it. -/
def Recent (window now s : ℕ) : Prop := s ≤ now ∧ (now - s < window ∨ s = now)

instance (window now s : ℕ) : Decidable (Recent window now s) :=
  inferInstanceAs (Decidable (_ ∧ _))

theorem recent_of_mem_track (t : TemporalSmoothingTracker) (dets : List BoundingBox) (now : ℕ) :
    ∀ b ∈ t.track dets now, Recent t.config.persistenceWindowMs now b.timestampMs := by
  refine forall_mem_foldl_ingest (fun _ _ => ⟨le_rfl, Or.inr rfl⟩)
    (fun _ _ _ _ => ⟨le_rfl, Or.inr rfl⟩) fun b hb => ?_
  have hfresh := (List.mem_filter.mp hb).2
  simp only [isStale, Bool.not_or, Bool.and_eq_true, Bool.not_eq_true', decide_eq_false_iff_not]
    at hfresh
  exact ⟨by omega, by omega⟩

/-- After a call every tracked box is of that time or of the window before it, and
there are at most as many as detections were fed at such times. -/
theorem activeCount_le_fed (config : TrackerConfig) (calls : List Call) (c : Call) :
    let t := runFrames ⟨config, []⟩ (calls ++ [c])
    (∀ b ∈ t.trackedBoxes, Recent config.persistenceWindowMs c.time b.timestampMs) ∧
      t.activeCount ≤
        fed (fun s => decide (Recent config.persistenceWindowMs c.time s)) (calls ++ [c]) := by
  intro t
  have hrecent : ∀ b ∈ t.trackedBoxes, Recent config.persistenceWindowMs c.time b.timestampMs := by
    have htrack := recent_of_mem_track (runFrames ⟨config, []⟩ calls) c.detections c.time
    rw [config_runFrames] at htrack
    simp only [t, runFrames_append]
    exact htrack
  refine ⟨hrecent, ?_⟩
  have hall : stamped (fun s => decide (Recent config.persistenceWindowMs c.time s))
      t.trackedBoxes = t.activeCount :=
    List.countP_eq_length.mpr fun b hb => decide_eq_true (hrecent b hb)
  rw [← hall]
  exact (stamped_runFrames_le ⟨config, []⟩ (calls ++ [c])).trans (Nat.zero_add _).le

end Degoonification.TemporalSmoothingTracker
