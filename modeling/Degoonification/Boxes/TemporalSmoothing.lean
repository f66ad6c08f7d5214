import Degoonification.Boxes.BoundingBox

/-! `TemporalSmoothingTracker`: purge, ingest with uniting, expansion, merging. A
box that holds a detection, contains it and carries a timestamp between the
detection's time and now, keeps holding it through every call inside the
persistence window, so the detection stays covered by one returned box. -/

namespace Degoonification

open BoundingBox

structure TrackerConfig where
  persistenceWindowMs : ℕ := 800
  paddingRatio : ℚ := 35 / 100
  mergeIouThreshold : ℚ := 15 / 100

structure TemporalSmoothingTracker where
  config : TrackerConfig
  trackedBoxes : List BoundingBox := []

namespace TemporalSmoothingTracker

/-- The predicate of the purge. -/
def isStale (window now : ℕ) (b : BoundingBox) : Bool :=
  now < b.timestampMs || window ≤ now - b.timestampMs

/-- The loop over the tracked boxes for one detection: the first box it overlaps
is united with it, otherwise it is pushed back. -/
def correlate (threshold : ℚ) (now : ℕ) (det : BoundingBox) : List BoundingBox → List BoundingBox
  | [] => [det]
  | existing :: rest =>
    if existing.overlaps det threshold then
      { existing.united det with timestampMs := now } :: rest
    else existing :: correlate threshold now det rest

/-- One raw detection, stamped with the current time. -/
def ingest (threshold : ℚ) (now : ℕ) (boxes : List BoundingBox) (det : BoundingBox) :
    List BoundingBox :=
  correlate threshold now { det with timestampMs := now } boxes

/-- The tracked boxes after one call. -/
def track (t : TemporalSmoothingTracker) (rawDetections : List BoundingBox) (now : ℕ) :
    List BoundingBox :=
  let kept := t.trackedBoxes.filter fun b => !isStale t.config.persistenceWindowMs now b
  rawDetections.foldl (ingest t.config.mergeIouThreshold now) kept

/-- The boxes returned for a list of tracked boxes. -/
def render (config : TrackerConfig) (boxes : List BoundingBox) : List BoundingBox :=
  mergeOverlappingBoxes (boxes.map fun b => b.expanded config.paddingRatio)
    config.mergeIouThreshold

def processFrame (t : TemporalSmoothingTracker) (rawDetections : List BoundingBox) (now : ℕ) :
    TemporalSmoothingTracker × List BoundingBox :=
  let boxes := t.track rawDetections now
  ({ t with trackedBoxes := boxes }, render t.config boxes)

/-- `reset`. -/
def reset (t : TemporalSmoothingTracker) : TemporalSmoothingTracker := { t with trackedBoxes := [] }

def activeCount (t : TemporalSmoothingTracker) : ℕ := t.trackedBoxes.length

/-! ### What every tracked box keeps -/

section ForallMem

variable {Q : BoundingBox → Prop} {threshold : ℚ} {now : ℕ}

theorem forall_mem_correlate {det : BoundingBox} (hdet : Q det)
    (hunite : ∀ b, Q b → Q { b.united det with timestampMs := now }) {boxes : List BoundingBox}
    (hboxes : ∀ b ∈ boxes, Q b) : ∀ b ∈ correlate threshold now det boxes, Q b := by
  induction boxes with
  | nil => exact List.forall_mem_singleton.mpr hdet
  | cons existing rest ih =>
    obtain ⟨hexisting, hrest⟩ := List.forall_mem_cons.mp hboxes
    rw [correlate]
    split_ifs
    · exact List.forall_mem_cons.mpr ⟨hunite existing hexisting, hrest⟩
    · exact List.forall_mem_cons.mpr ⟨hexisting, ih hrest⟩

/-- What the stamped detections have, and uniting with one of them keeps, all boxes
have after ingestion. -/
theorem forall_mem_foldl_ingest {dets : List BoundingBox}
    (hdets : ∀ d ∈ dets, Q { d with timestampMs := now })
    (hunite : ∀ d ∈ dets, ∀ b, Q b →
      Q { b.united { d with timestampMs := now } with timestampMs := now })
    {boxes : List BoundingBox} (hboxes : ∀ b ∈ boxes, Q b) :
    ∀ b ∈ dets.foldl (ingest threshold now) boxes, Q b := by
  induction dets generalizing boxes with
  | nil => exact hboxes
  | cons det dets ih =>
    obtain ⟨hdet, hdets⟩ := List.forall_mem_cons.mp hdets
    obtain ⟨hunite₁, hunite⟩ := List.forall_mem_cons.mp hunite
    exact ih hdets hunite (forall_mem_correlate hdet hunite₁ hboxes)

end ForallMem

/-! ### Runs -/

/-- The arguments of one call. -/
structure Call where
  detections : List BoundingBox
  time : ℕ

/-- The tracker after a run of calls. -/
def runFrames (t : TemporalSmoothingTracker) (calls : List Call) : TemporalSmoothingTracker :=
  calls.foldl (fun t c => (t.processFrame c.detections c.time).1) t

/-- What the last of the calls `calls ++ [c]` returns. -/
def returned (t : TemporalSmoothingTracker) (calls : List Call) (c : Call) : List BoundingBox :=
  ((t.runFrames calls).processFrame c.detections c.time).2

/-- The times of the calls never decrease. -/
def Chronological (calls : List Call) : Prop := calls.Pairwise fun c c' => c.time ≤ c'.time

/-- Some box contains `d` and carries a time between `s` and `now`. -/
def Holds (d : BoundingBox) (s now : ℕ) (boxes : List BoundingBox) : Prop :=
  ∃ b ∈ boxes, Inside d b ∧ s ≤ b.timestampMs ∧ b.timestampMs ≤ now

section Holds

variable {d det : BoundingBox} {s now now' : ℕ} {boxes : List BoundingBox} {threshold : ℚ}

theorem Holds.mono (h : Holds d s now boxes) (hnow : now ≤ now') : Holds d s now' boxes := by
  obtain ⟨b, hb, hin, hs, hn⟩ := h
  exact ⟨b, hb, hin, hs, hn.trans hnow⟩

theorem Holds.cons (h : Holds d s now boxes) (b : BoundingBox) : Holds d s now (b :: boxes) := by
  obtain ⟨c, hc, hin, htime⟩ := h
  exact ⟨c, List.mem_cons_of_mem b hc, hin, htime⟩

/-- The purge keeps a box whose time is inside the window. -/
theorem Holds.filter {window : ℕ} (h : Holds d s now boxes) (hwindow : now - s < window) :
    Holds d s now (boxes.filter fun b => !isStale window now b) := by
  obtain ⟨b, hb, hin, hs, hn⟩ := h
  refine ⟨b, List.mem_filter.mpr ⟨hb, ?_⟩, hin, hs, hn⟩
  simp only [isStale, Bool.not_or, Bool.and_eq_true, Bool.not_eq_true', decide_eq_false_iff_not]
  omega

/-- Uniting only grows the box and renews its time. -/
theorem Holds.correlate (h : Holds d s now boxes) (hs : s ≤ now) :
    Holds d s now (correlate threshold now det boxes) := by
  induction boxes with
  | nil =>
    obtain ⟨b, hb, -⟩ := h
    simp at hb
  | cons existing rest ih =>
    simp only [TemporalSmoothingTracker.correlate]
    obtain ⟨b, hb, hin, htime⟩ := h
    split_ifs
    · rcases List.mem_cons.mp hb with rfl | hb
      · refine ⟨{ b.united det with timestampMs := now }, List.mem_cons_self, ?_, hs, le_rfl⟩
        have hu := hin.trans (inside_united_left b det)
        exact ⟨hu.left, hu.right, hu.top, hu.bottom⟩
      · exact ⟨b, List.mem_cons_of_mem _ hb, hin, htime⟩
    · rcases List.mem_cons.mp hb with rfl | hb
      · exact ⟨b, List.mem_cons_self, hin, htime⟩
      · exact (ih ⟨b, hb, hin, htime⟩).cons existing

theorem Holds.foldl_ingest (dets : List BoundingBox) (h : Holds d s now boxes) (hs : s ≤ now) :
    Holds d s now (dets.foldl (ingest threshold now) boxes) := by
  induction dets generalizing boxes with
  | nil => exact h
  | cons det dets ih => exact ih (h.correlate hs)

/-- A detection just ingested is held. -/
theorem holds_correlate_self (hnow : d.timestampMs = now) (boxes : List BoundingBox) :
    Holds d now now (correlate threshold now d boxes) := by
  induction boxes with
  | nil => exact ⟨d, List.mem_cons_self, Inside.refl d, hnow.ge, hnow.le⟩
  | cons existing rest ih =>
    simp only [TemporalSmoothingTracker.correlate]
    split_ifs
    · refine ⟨{ existing.united d with timestampMs := now }, List.mem_cons_self, ?_, le_rfl, le_rfl⟩
      have hu := inside_united_right existing d
      exact ⟨hu.left, hu.right, hu.top, hu.bottom⟩
    · exact ih.cons existing

theorem holds_foldl_ingest_self {dets : List BoundingBox} (hd : d ∈ dets)
    (boxes : List BoundingBox) : Holds d now now (dets.foldl (ingest threshold now) boxes) := by
  induction dets generalizing boxes with
  | nil => simp at hd
  | cons det dets ih =>
    rcases List.mem_cons.mp hd with rfl | hd
    · refine Holds.foldl_ingest dets ?_ le_rfl
      have hself : Holds { d with timestampMs := now } now now
          (correlate threshold now { d with timestampMs := now } boxes) :=
        holds_correlate_self rfl boxes
      obtain ⟨b, hb, hin, htime⟩ := hself
      exact ⟨b, hb, ⟨hin.left, hin.right, hin.top, hin.bottom⟩, htime⟩
    · exact ih hd _

/-- What is held is covered by one returned box, as far as it is on screen. -/
theorem Holds.exists_render {config : TrackerConfig} (h : Holds d s now boxes)
    (hw : 0 ≤ d.width) (hh : 0 ≤ d.height) (hpad : 0 ≤ config.paddingRatio) :
    ∃ c ∈ render config boxes, d.region ∩ unitSquare ⊆ c.region := by
  obtain ⟨b, hb, hin, -⟩ := h
  obtain ⟨c, hc, hbc⟩ := exists_inside_mergeOverlappingBoxes
    (List.mem_map_of_mem (f := fun b => b.expanded config.paddingRatio) hb)
    config.mergeIouThreshold
  exact ⟨c, hc, (hin.region_subset_expanded hw hh hpad).trans hbc.region_subset⟩

end Holds

/-! ### No blur gap -/

theorem runFrames_append (t : TemporalSmoothingTracker) (calls calls' : List Call) :
    t.runFrames (calls ++ calls') = (t.runFrames calls).runFrames calls' := List.foldl_append

/-- What every call of a run keeps, the run keeps. -/
theorem runFrames_keeps {I : TemporalSmoothingTracker → Prop} {calls : List Call}
    (hstep : ∀ t, I t → ∀ c ∈ calls, I (t.processFrame c.detections c.time).1)
    {t : TemporalSmoothingTracker} (ht : I t) : I (t.runFrames calls) :=
  List.foldlRecOn calls _ ht hstep

theorem config_runFrames (t : TemporalSmoothingTracker) (calls : List Call) :
    (t.runFrames calls).config = t.config :=
  runFrames_keeps (I := fun u => u.config = t.config) (fun _ hu _ _ => hu) rfl

/-- A call at a time inside the window keeps holding. -/
theorem Holds.track {d : BoundingBox} {s now now' : ℕ} {t : TemporalSmoothingTracker}
    (h : Holds d s now t.trackedBoxes) (hs : s ≤ now) (hnow : now ≤ now')
    (hwindow : now' - s < t.config.persistenceWindowMs) (dets : List BoundingBox) :
    Holds d s now' (t.track dets now') :=
  ((h.mono hnow).filter hwindow).foldl_ingest dets (hs.trans hnow)

/-- Through a run of later calls inside the window a detection stays held. -/
theorem Holds.runFrames {d : BoundingBox} {s now last : ℕ} (calls : List Call) :
    ∀ {t : TemporalSmoothingTracker}, Holds d s now t.trackedBoxes → s ≤ now → now ≤ last →
      Chronological calls → (∀ c ∈ calls, now ≤ c.time ∧ c.time ≤ last) →
      last - s < t.config.persistenceWindowMs →
        Holds d s last (t.runFrames calls).trackedBoxes := by
  induction calls generalizing now with
  | nil =>
    intro t h _ hlast _ _ _
    exact h.mono hlast
  | cons c calls ih =>
    intro t h hs _ hchron htimes hwindow
    obtain ⟨hc, hchron⟩ := List.pairwise_cons.mp hchron
    obtain ⟨hnow, hclast⟩ := htimes c List.mem_cons_self
    have hstep := h.track hs hnow (by omega) c.detections
    exact ih (t := (t.processFrame c.detections c.time).1) hstep (by omega) hclast hchron
      (fun c' hc' => ⟨hc c' hc', (htimes c' (List.mem_cons_of_mem c hc')).2⟩) hwindow

/-- What call `j` of a run returns is rendered from the boxes tracked after it. -/
theorem returned_take (t : TemporalSmoothingTracker) {calls : List Call} {j : ℕ} {c : Call}
    (hj : calls[j]? = some c) :
    t.returned (calls.take j) c =
      render t.config (t.runFrames (calls.take (j + 1))).trackedBoxes := by
  rw [List.take_add_one, hj, Option.toList_some, runFrames_append,
    ← config_runFrames t (calls.take j)]
  rfl

theorem Chronological.le {calls : List Call} (h : Chronological calls) {i j : ℕ} {c c' : Call}
    (hij : i < j) (hi : calls[i]? = some c) (hj : calls[j]? = some c') : c.time ≤ c'.time := by
  obtain ⟨hi', rfl⟩ := List.getElem?_eq_some_iff.mp hi
  obtain ⟨hj', rfl⟩ := List.getElem?_eq_some_iff.mp hj
  exact List.pairwise_iff_getElem.mp h i j hi' hj' hij

/-- A detection is held after every call from the one that ingested it on, as
long as the window is open. -/
theorem holds_runFrames_take (t : TemporalSmoothingTracker) {calls : List Call}
    (hchron : Chronological calls) {i j : ℕ} {ci cj : Call} (hij : i ≤ j)
    (hi : calls[i]? = some ci) (hj : calls[j]? = some cj) {d : BoundingBox}
    (hd : d ∈ ci.detections) (hwindow : cj.time - ci.time < t.config.persistenceWindowMs) :
    Holds d ci.time cj.time (t.runFrames (calls.take (j + 1))).trackedBoxes := by
  have hhere : Holds d ci.time ci.time (t.runFrames (calls.take (i + 1))).trackedBoxes := by
    rw [List.take_add_one, hi, Option.toList_some, runFrames_append]
    exact holds_foldl_ingest_self hd _
  have hle : ci.time ≤ cj.time := by
    rcases hij.lt_or_eq with h | rfl
    · exact hchron.le h hi hj
    · exact (congrArg Call.time (Option.some.inj (hi.symm.trans hj))).le
  have hsplit : calls.take (j + 1) = calls.take (i + 1) ++ (calls.take (j + 1)).drop (i + 1) := by
    conv_lhs => rw [← List.take_append_drop (i + 1) (calls.take (j + 1))]
    rw [List.take_take, Nat.min_eq_left (by omega)]
  rw [hsplit, runFrames_append]
  refine hhere.runFrames _ le_rfl hle ?_ ?_ (by rwa [config_runFrames])
  · exact hchron.sublist ((List.drop_sublist _ _).trans (List.take_sublist _ _))
  · intro c hc
    obtain ⟨k, hk, hget⟩ := List.getElem_of_mem hc
    rw [List.length_drop, List.length_take] at hk
    rw [List.getElem_drop, List.getElem_take] at hget
    have hck : calls[i + 1 + k]? = some c := hget ▸ List.getElem?_eq_getElem _
    refine ⟨hchron.le (by omega) hi hck, ?_⟩
    rcases (show i + 1 + k ≤ j by omega).lt_or_eq with h | h
    · exact hchron.le h hck hj
    · rw [h] at hck
      exact (congrArg Call.time (Option.some.inj (hck.symm.trans hj))).le

/-- No blur gap: from the call that ingests a detection on, and as long as the
window is open, every call returns a box that covers the on-screen part of it. -/
theorem exists_returned_covers (t : TemporalSmoothingTracker) (calls : List Call)
    (hchron : Chronological calls) (hpad : 0 ≤ t.config.paddingRatio) {i j : ℕ} {ci cj : Call}
    (hij : i ≤ j) (hi : calls[i]? = some ci) (hj : calls[j]? = some cj) {d : BoundingBox}
    (hd : d ∈ ci.detections) (hw : 0 ≤ d.width) (hh : 0 ≤ d.height)
    (hwindow : cj.time - ci.time < t.config.persistenceWindowMs) :
    ∃ b ∈ t.returned (calls.take j) cj, d.region ∩ unitSquare ⊆ b.region := by
  rw [returned_take t hj]
  exact (holds_runFrames_take t hchron hij hi hj hd hwindow).exists_render hw hh hpad

/-- A detection at 100 ms is still covered by the empty frame at 250 ms. -/
theorem exists_returned_covers_dropped_frame :
    let d : BoundingBox := { x := 1 / 5, y := 1 / 5, width := 3 / 10, height := 3 / 10 }
    let t : TemporalSmoothingTracker := { config := ⟨300, 15 / 100, 1 / 5⟩ }
    ∃ b ∈ t.returned [⟨[d], 100⟩] ⟨[], 250⟩, d.region ∩ unitSquare ⊆ b.region := by
  intro d t
  exact exists_returned_covers t [⟨[d], 100⟩, ⟨[], 250⟩] (by simp [Chronological])
    (by norm_num [t]) (i := 0) (j := 1) (by decide) rfl rfl (List.mem_singleton.mpr rfl)
    (by norm_num [d]) (by norm_num [d]) (by decide)

end TemporalSmoothingTracker

end Degoonification
