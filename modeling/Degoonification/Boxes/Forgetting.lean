import Degoonification.Boxes.TemporalSmoothing
import Degoonification.Library.Runs

/-! What a call of `TemporalSmoothingTracker` still depends on. Uniting renews the
time of a box and keeps its old extent, so a box that was last seen before the
window of a later call can be carried into it. Where the calls inside the window
unite no detection with such a box, the boxes seen inside the window evolve as if
the earlier calls had never been made. -/

namespace Degoonification.TemporalSmoothingTracker

open BoundingBox

/-- The box was last seen inside the window of a call at `last`. -/
def young (window last : ℕ) (b : BoundingBox) : Bool := last - b.timestampMs < window

/-- The calls inside the window of a call at `last`. -/
def recent (window last : ℕ) (calls : List Call) : List Call :=
  calls.filter fun c => last - c.time < window

/-- No detection of the list, ingested in order, is united with a box that was
last seen before the window of `last`. -/
def revivesNone (window last : ℕ) (threshold : ℚ) (now : ℕ) :
    List BoundingBox → List BoundingBox → Bool
  | _, [] => true
  | boxes, det :: dets =>
    (boxes.find? fun b => b.overlaps det threshold).all (young window last) &&
      revivesNone window last threshold now (ingest threshold now boxes det) dets

/-- The condition on one call of a run: inside the window of `last` it revives
no box from before it. -/
def KeepsApart (last : ℕ) (t : TemporalSmoothingTracker) (c : Call) : Prop :=
  last - c.time < t.config.persistenceWindowMs →
    revivesNone t.config.persistenceWindowMs last t.config.mergeIouThreshold c.time
      (t.trackedBoxes.filter fun b => !isStale t.config.persistenceWindowMs c.time b) c.detections

instance (last : ℕ) (t : TemporalSmoothingTracker) (c : Call) : Decidable (KeepsApart last t c) :=
  inferInstanceAs (Decidable (_ → _))

/-- One call as a step of a run. -/
def call (t : TemporalSmoothingTracker) (c : Call) : Option TemporalSmoothingTracker :=
  some (t.processFrame c.detections c.time).1

section

variable {window last now : ℕ} {threshold : ℚ}

/-- A detection that meets no old box first acts on the young boxes alone. -/
theorem filter_young_correlate (hnow : last - now < window) {det : BoundingBox}
    (hdet : det.timestampMs = now) {boxes : List BoundingBox}
    (h : ∀ b, boxes.find? (fun b => b.overlaps det threshold) = some b → young window last b) :
    (correlate threshold now det boxes).filter (young window last) =
      correlate threshold now det (boxes.filter (young window last)) := by
  have hyoung (b : BoundingBox) (hb : b.timestampMs = now) : young window last b = true := by
    rw [young, hb]
    exact decide_eq_true hnow
  induction boxes with
  | nil => simp [correlate, hyoung det hdet]
  | cons b boxes ih =>
    rw [correlate]
    split_ifs with hov
    · have hb : young window last b = true := h b (by simp [hov])
      have hunited : young window last { b.united det with timestampMs := now } = true :=
        hyoung _ rfl
      rw [List.filter_cons_of_pos hunited, List.filter_cons_of_pos hb, correlate, if_pos hov]
    · have hrest := ih fun c hc => h c (by simpa only [List.find?_cons, hov] using hc)
      cases hb : young window last b with
      | true =>
        rw [List.filter_cons_of_pos hb, List.filter_cons_of_pos hb, correlate, if_neg hov, hrest]
      | false =>
        have hb' : ¬young window last b = true := by simp [hb]
        rw [List.filter_cons_of_neg hb', List.filter_cons_of_neg hb', hrest]

theorem filter_young_foldl_ingest (hnow : last - now < window) {dets boxes : List BoundingBox}
    (h : revivesNone window last threshold now boxes dets) :
    (dets.foldl (ingest threshold now) boxes).filter (young window last) =
      dets.foldl (ingest threshold now) (boxes.filter (young window last)) := by
  induction dets generalizing boxes with
  | nil => rfl
  | cons det dets ih =>
    obtain ⟨hdet, hrest⟩ := Bool.and_eq_true_iff.mp h
    have hstep : (ingest threshold now boxes det).filter (young window last) =
        ingest threshold now (boxes.filter (young window last)) det :=
      filter_young_correlate hnow rfl fun b hb => (Option.all_eq_true _ _).mp hdet b hb
    rw [List.foldl_cons, List.foldl_cons, ih hrest, hstep]

end

/-! ### Runs -/

/-- The tracker without the boxes that were last seen before the window of `last`. -/
def youngPart (last : ℕ) (t : TemporalSmoothingTracker) : TemporalSmoothingTracker :=
  { t with trackedBoxes := t.trackedBoxes.filter (young t.config.persistenceWindowMs last) }

/-- The call at `last` itself looks at young boxes only. -/
theorem track_youngPart (t : TemporalSmoothingTracker) (dets : List BoundingBox) (last : ℕ) :
    (t.youngPart last).track dets last = t.track dets last := by
  simp only [track, youngPart, List.filter_filter]
  congr 1
  refine List.filter_congr fun b _ => ?_
  rw [Bool.eq_iff_iff]
  simp only [isStale, young, Bool.not_or, Bool.and_eq_true, Bool.not_eq_true',
    decide_eq_false_iff_not, decide_eq_true_eq]
  omega

theorem le_of_mem_track {t : TemporalSmoothingTracker} {dets : List BoundingBox} {now : ℕ}
    {b : BoundingBox} (h : b ∈ t.track dets now) : b.timestampMs ≤ now := by
  refine forall_mem_foldl_ingest (Q := fun b => b.timestampMs ≤ now) (fun _ _ => le_rfl)
    (fun _ _ _ _ => le_rfl) (fun b hb => ?_) b h
  have hkept := (List.mem_filter.mp hb).2
  simp only [isStale, Bool.not_or, Bool.and_eq_true, Bool.not_eq_true', decide_eq_false_iff_not]
    at hkept
  exact not_lt.mp hkept.1

/-- A call inside the window that revives nothing acts on the young part alone. -/
theorem youngPart_processFrame {last : ℕ} {t : TemporalSmoothingTracker} {c : Call}
    (hrecent : last - c.time < t.config.persistenceWindowMs) (h : KeepsApart last t c) :
    (t.processFrame c.detections c.time).1.youngPart last =
      ((t.youngPart last).processFrame c.detections c.time).1 := by
  have hfold := filter_young_foldl_ingest hrecent (h hrecent)
  rw [List.filter_comm] at hfold
  simp only [processFrame, youngPart, track]
  rw [hfold]

/-- A call before the window leaves nothing young. -/
theorem youngPart_eq_nil {last now : ℕ} {t : TemporalSmoothingTracker}
    (hold : ¬last - now < t.config.persistenceWindowMs)
    (htime : ∀ b ∈ t.trackedBoxes, b.timestampMs ≤ now) :
    t.youngPart last = { t with trackedBoxes := [] } := by
  rw [youngPart]
  congr 1
  refine List.filter_eq_nil_iff.mpr fun b hb => ?_
  have := htime b hb
  rw [young, decide_eq_true_eq]
  omega

/-- A run that revives nothing is, seen from `last`, the run of its recent calls. -/
theorem youngPart_runFrames {last : ℕ} {calls : List Call} :
    ∀ {t : TemporalSmoothingTracker}, Runs.Along call (KeepsApart last) t calls →
      Chronological calls → (∀ c ∈ calls, ∀ b ∈ t.trackedBoxes, b.timestampMs ≤ c.time) →
      (t.runFrames calls).youngPart last =
        (t.youngPart last).runFrames (recent t.config.persistenceWindowMs last calls) := by
  induction calls with
  | nil =>
    intro t _ _ _
    rfl
  | cons c calls ih =>
    intro t halong hchron htime
    obtain ⟨hkeeps, hrest⟩ := halong _ rfl
    obtain ⟨hle, hchron⟩ := List.pairwise_cons.mp hchron
    have hnext := ih hrest hchron fun c' hc' b hb => (le_of_mem_track hb).trans (hle c' hc')
    have hconfig : (t.processFrame c.detections c.time).1.config = t.config := rfl
    by_cases hrecent : last - c.time < t.config.persistenceWindowMs
    · rw [recent, List.filter_cons_of_pos (by exact decide_eq_true hrecent)]
      rw [youngPart_processFrame hrecent hkeeps, hconfig] at hnext
      exact hnext
    · rw [recent, List.filter_cons_of_neg (by simpa using hrecent)]
      have hbefore := youngPart_eq_nil hrecent (htime c List.mem_cons_self)
      have hafter : (t.processFrame c.detections c.time).1.youngPart last =
          { t with trackedBoxes := [] } :=
        youngPart_eq_nil (by exact hrecent) fun b hb => le_of_mem_track hb
      rw [hafter, hconfig, ← hbefore] at hnext
      exact hnext

/-- Two runs from an empty tracker that agree on the calls inside the window of
the last one, and revive nothing there, return the same boxes at the last call. -/
theorem returned_forgets (config : TrackerConfig) {callsA callsB : List Call} {c : Call}
    (hA : Chronological (callsA ++ [c])) (hB : Chronological (callsB ++ [c]))
    (hsame : recent config.persistenceWindowMs c.time callsA =
      recent config.persistenceWindowMs c.time callsB)
    (hkeepsA : Runs.Along call (KeepsApart c.time) ⟨config, []⟩ callsA)
    (hkeepsB : Runs.Along call (KeepsApart c.time) ⟨config, []⟩ callsB) :
    returned ⟨config, []⟩ callsA c = returned ⟨config, []⟩ callsB c := by
  have hempty (calls : List Call) : ∀ c ∈ calls, ∀ b ∈ (mk config []).trackedBoxes,
      b.timestampMs ≤ c.time := fun _ _ b hb => absurd hb List.not_mem_nil
  have hyoungA := youngPart_runFrames hkeepsA (List.pairwise_append.mp hA).1 (hempty callsA)
  have hyoungB := youngPart_runFrames hkeepsB (List.pairwise_append.mp hB).1 (hempty callsB)
  have hyoung : (runFrames ⟨config, []⟩ callsA).youngPart c.time =
      (runFrames ⟨config, []⟩ callsB).youngPart c.time := by
    rw [hyoungA, hyoungB]
    exact congrArg _ hsame
  simp only [returned, processFrame, config_runFrames]
  rw [← track_youngPart, hyoung, track_youngPart]

def small : BoundingBox := { width := 2 / 5, height := 2 / 5 }

theorem far_forgotten :
    returned ⟨{}, []⟩ [⟨[{ x := 4 / 5, width := 1 / 5, height := 1 / 5 }], 0⟩, ⟨[small], 700⟩]
        ⟨[], 1000⟩ =
      returned ⟨{}, []⟩ [⟨[small], 700⟩] ⟨[], 1000⟩ :=
  returned_forgets {} (by unfold Chronological; decide) (by unfold Chronological; decide) rfl
    (by decide +kernel) (by decide +kernel)

/-- A detection inside the window that meets a larger box from before it. -/
theorem large_remembered :
    Chronological [⟨[{ width := 1 / 2, height := 1 / 2 }], 0⟩, ⟨[small], 700⟩, ⟨[], 1000⟩] ∧
      recent 800 1000 [⟨[{ width := 1 / 2, height := 1 / 2 }], 0⟩, ⟨[small], 700⟩] =
        recent 800 1000 [⟨[small], 700⟩] ∧
      returned ⟨{}, []⟩ [⟨[{ width := 1 / 2, height := 1 / 2 }], 0⟩, ⟨[small], 700⟩] ⟨[], 1000⟩ ≠
        returned ⟨{}, []⟩ [⟨[small], 700⟩] ⟨[], 1000⟩ :=
  ⟨by unfold Chronological; decide, rfl, by decide +kernel⟩

end Degoonification.TemporalSmoothingTracker
