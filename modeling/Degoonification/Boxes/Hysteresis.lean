import Degoonification.Boxes.AnchorStep

/-! Which shields a call of `process_frame` keeps. Beside every shield runs the time
at which it was supported last: created, matched by a detection, or past one of the
two anchor tests. The purge of the code looks at `last_seen_ms` and the current flag,
and keeps exactly the shields whose support is recent enough for the flag they had
after the anchor step. -/

namespace Degoonification.VisualAnchorTracker

/-- A shield, the time at which it was supported last, and its flag after the anchor
step of the frame. -/
structure Watched where
  shield : TrackedShield
  support : ℕ
  static : Bool

namespace Watched

/-- The shield passes the static-anchor or the scroll-match test. -/
def passes (config : AnchorTrackerConfig) (frame : VideoFrame) (s : TrackedShield) : Bool :=
  staticTest config frame s || (scrollMatch frame s).isSome

/-- The anchor step; a frame without pixels tests nothing. -/
def anchor (config : AnchorTrackerConfig) (frame : VideoFrame) (now : ℕ) (w : Watched) : Watched :=
  if HasPixels frame then
    { shield := anchorShield config frame now w.shield
      support := if passes config frame w.shield then now else w.support
      static := (anchorShield config frame now w.shield).isStatic }
  else w

/-- One detection matches the first shield it overlaps, or creates one. -/
def ingest (config : AnchorTrackerConfig) (frame : VideoFrame) (now : ℕ) :
    List Watched → BoundingBox → List Watched
  | [], det => [{ shield := newShield config frame now det, support := now, static := false }]
  | w :: rest, det =>
    if w.shield.box.overlaps det config.mergeIouThreshold then
      { w with shield := smooth config frame now det w.shield, support := now } :: rest
    else w :: ingest config frame now rest det

/-- The shields a call decides on: those from before it, then those it creates. -/
def candidates (config : AnchorTrackerConfig) (ws : List Watched) (c : Call) : List Watched :=
  c.detections.foldl (ingest config c.frame c.time) (ws.map (anchor config c.frame c.time))

/-- The latest support is recent enough. -/
def Supported (config : AnchorTrackerConfig) (now : ℕ) (w : Watched) : Prop :=
  now - w.support < if w.static then config.persistenceWindowMs else config.dynamicDecayMs

instance (config : AnchorTrackerConfig) (now : ℕ) (w : Watched) :
    Decidable (Supported config now w) := inferInstanceAs (Decidable (_ < _))

/-- A call that keeps what is supported. -/
def next (config : AnchorTrackerConfig) (ws : List Watched) (c : Call) : List Watched :=
  (candidates config ws c).filter (Supported config c.time)

def run (config : AnchorTrackerConfig) (calls : List Call) : List Watched :=
  calls.foldl (next config) []

/-- What the code records of a shield is what was watched, up to the time `now`. -/
structure Recorded (now : ℕ) (w : Watched) : Prop where
  support : w.shield.lastSeenMs = w.support
  static : w.shield.isStatic = w.static
  le : w.support ≤ now

variable {config : AnchorTrackerConfig} {frame : VideoFrame} {now : ℕ}

theorem Recorded.mono {w : Watched} (h : Recorded now w) {later : ℕ} (hle : now ≤ later) :
    Recorded later w :=
  ⟨h.support, h.static, h.le.trans hle⟩

/-! ### One call -/

/-- The anchor step renews `last_seen_ms` exactly when a test is passed. -/
theorem anchorShield_lastSeenMs (s : TrackedShield) :
    (anchorShield config frame now s).lastSeenMs =
      if passes config frame s then now else s.lastSeenMs := by
  rw [anchorShield_eq, passes]
  cases staticTest config frame s with
  | true => rfl
  | false => cases scrollMatch frame s <;> rfl

theorem anchor_shield (w : Watched) :
    (anchor config frame now w).shield = anchorFrame config frame now w.shield := by
  rw [anchor, anchorFrame]
  split_ifs <;> rfl

theorem Recorded.anchor {w : Watched} (h : Recorded now w) :
    Recorded now (anchor config frame now w) := by
  by_cases hpixels : HasPixels frame
  · rw [Watched.anchor, if_pos hpixels]
    refine ⟨?_, rfl, ?_⟩
    · rw [anchorShield_lastSeenMs, h.support]
    · dsimp only
      split_ifs
      · exact le_rfl
      · exact h.le
  · rw [Watched.anchor, if_neg hpixels]
    exact h

theorem map_shield_ingest (ws : List Watched) (det : BoundingBox) :
    (ingest config frame now ws det).map (·.shield) =
      VisualAnchorTracker.ingest config frame now (ws.map (·.shield)) det := by
  induction ws with
  | nil => rfl
  | cons w rest ih =>
    simp only [ingest, List.map_cons, VisualAnchorTracker.ingest]
    split_ifs
    · rfl
    · rw [List.map_cons, ih]

theorem recorded_ingest {ws : List Watched} (h : ∀ w ∈ ws, Recorded now w) (det : BoundingBox) :
    ∀ w ∈ ingest config frame now ws det, Recorded now w := by
  induction ws with
  | nil => exact List.forall_mem_singleton.mpr ⟨rfl, rfl, le_rfl⟩
  | cons w rest ih =>
    obtain ⟨hw, hrest⟩ := List.forall_mem_cons.mp h
    rw [ingest]
    split_ifs
    · exact List.forall_mem_cons.mpr ⟨⟨rfl, hw.static, le_rfl⟩, hrest⟩
    · exact List.forall_mem_cons.mpr ⟨hw, ih hrest⟩

variable (config frame) in
theorem foldl_ingest (dets : List BoundingBox) {ws : List Watched}
    (h : ∀ w ∈ ws, Recorded now w) :
    (dets.foldl (ingest config frame now) ws).map (·.shield) =
        dets.foldl (VisualAnchorTracker.ingest config frame now) (ws.map (·.shield)) ∧
      ∀ w ∈ dets.foldl (ingest config frame now) ws, Recorded now w := by
  induction dets generalizing ws with
  | nil => exact ⟨rfl, h⟩
  | cons det dets ih =>
    obtain ⟨hmap, hrec⟩ := ih (recorded_ingest h det)
    exact ⟨by rw [List.foldl_cons, List.foldl_cons, hmap, map_shield_ingest], hrec⟩

/-- The purge of the code and the rule on support agree. -/
theorem Recorded.isStale_eq {w : Watched} (h : Recorded now w) :
    (!isStale config now w.shield) = decide (Supported config now w) := by
  rw [Bool.eq_iff_iff, decide_eq_true_iff]
  simp only [Supported, isStale, h.support, h.static, Bool.not_eq_true', Bool.or_eq_false_iff,
    decide_eq_false_iff_not, not_le]
  exact and_iff_right (not_lt.mpr h.le)

/-! ### Runs -/

/-- The tracker holds the shields that are watched, as recorded at `now`. -/
structure Watches (now : ℕ) (t : VisualAnchorTracker) (ws : List Watched) : Prop where
  shields : t.shields = ws.map (·.shield)
  recorded : ∀ w ∈ ws, Recorded now w

theorem Watches.candidates {t : VisualAnchorTracker} {ws : List Watched} (h : Watches now t ws)
    {c : Call} (hle : now ≤ c.time) :
    t.ingested c.frame c.detections c.time = (candidates t.config ws c).map (·.shield) ∧
      ∀ w ∈ Watched.candidates t.config ws c, Recorded c.time w := by
  have hanchor : ∀ w ∈ ws.map (anchor t.config c.frame c.time), Recorded c.time w :=
    List.forall_mem_map.mpr fun w hw => ((h.recorded w hw).mono hle).anchor
  obtain ⟨hmap, hrec⟩ := foldl_ingest t.config c.frame c.detections hanchor
  refine ⟨?_, hrec⟩
  rw [ingested, anchorStep_eq, h.shields, Watched.candidates, hmap, List.map_map, List.map_map]
  congr 2
  exact funext fun w => (anchor_shield w).symm

theorem Watches.processFrame {t : VisualAnchorTracker} {ws : List Watched} (h : Watches now t ws)
    {c : Call} (hle : now ≤ c.time) :
    Watches c.time (t.processFrame c.frame c.detections c.time).1
      ((Watched.candidates t.config ws c).filter (Supported t.config c.time)) := by
  obtain ⟨hmap, hrec⟩ := h.candidates hle
  refine ⟨?_, fun w hw => hrec w (List.mem_filter.mp hw).1⟩
  have hfilter : (Watched.candidates t.config ws c).filter (Supported t.config c.time) =
      (Watched.candidates t.config ws c).filter fun w => !isStale t.config c.time w.shield :=
    List.filter_congr fun w hw => (hrec w hw).isStale_eq.symm
  rw [hfilter]
  simp only [VisualAnchorTracker.processFrame, hmap, List.filter_map]
  rfl

theorem Watches.mono {t : VisualAnchorTracker} {ws : List Watched} (h : Watches now t ws)
    {later : ℕ} (hle : now ≤ later) : Watches later t ws :=
  ⟨h.shields, fun w hw => (h.recorded w hw).mono hle⟩

theorem Watches.runFrames {calls : List Call} {later : ℕ} :
    ∀ {now : ℕ} {t : VisualAnchorTracker} {ws : List Watched}, Watches now t ws →
      (∀ c ∈ calls, now ≤ c.time ∧ c.time ≤ later) → now ≤ later →
      (calls.Pairwise fun c c' => c.time ≤ c'.time) →
      Watches later (t.runFrames calls) (calls.foldl (next t.config) ws) := by
  induction calls with
  | nil =>
    intro now t ws h _ hlater _
    exact h.mono hlater
  | cons c calls ih =>
    intro now t ws h htimes _ hchron
    obtain ⟨hle, hchron⟩ := List.pairwise_cons.mp hchron
    obtain ⟨⟨hnow, hlater⟩, hrest⟩ := List.forall_mem_cons.mp htimes
    exact ih (t := (t.processFrame c.frame c.detections c.time).1) (h.processFrame hnow)
      (fun c' hc' => ⟨hle c' hc', (hrest c' hc').2⟩) hlater hchron

/-! ### Order -/

variable (config frame now) in
theorem ingest_createdMs (ws : List Watched) (det : BoundingBox) :
    ∃ n, (ingest config frame now ws det).map (·.shield.createdMs) =
      ws.map (·.shield.createdMs) ++ List.replicate n now := by
  induction ws with
  | nil => exact ⟨1, rfl⟩
  | cons w rest ih =>
    rw [ingest]
    split_ifs
    · exact ⟨0, (List.append_nil _).symm⟩
    · obtain ⟨n, hn⟩ := ih
      exact ⟨n, by rw [List.map_cons, hn, List.map_cons, List.cons_append]⟩

theorem anchor_createdMs (w : Watched) :
    (anchor config frame now w).shield.createdMs = w.shield.createdMs := by
  rw [anchor_shield, anchorFrame, anchorShield_eq]
  split_ifs
  · rfl
  · cases scrollMatch frame w.shield <;> rfl
  · rfl

/-- The candidates are the shields from before the call, in their order, and then the
ones created in it. -/
theorem candidates_createdMs (config : AnchorTrackerConfig) (ws : List Watched) (c : Call) :
    ∃ n, (candidates config ws c).map (·.shield.createdMs) =
      ws.map (·.shield.createdMs) ++ List.replicate n c.time := by
  have hfold (dets : List BoundingBox) (ws : List Watched) :
      ∃ n, (dets.foldl (ingest config c.frame c.time) ws).map (·.shield.createdMs) =
        ws.map (·.shield.createdMs) ++ List.replicate n c.time := by
    induction dets generalizing ws with
    | nil => exact ⟨0, (List.append_nil _).symm⟩
    | cons det dets ih =>
      obtain ⟨n, hn⟩ := ih (ingest config c.frame c.time ws det)
      obtain ⟨m, hm⟩ := ingest_createdMs config c.frame c.time ws det
      refine ⟨m + n, ?_⟩
      rw [List.foldl_cons, hn, hm, List.append_assoc, List.replicate_append_replicate]
  obtain ⟨n, hn⟩ := hfold c.detections (ws.map (anchor config c.frame c.time))
  refine ⟨n, hn.trans ?_⟩
  rw [List.map_map]
  congr 1
  exact List.map_congr_left fun w _ => anchor_createdMs w

end Watched

open Watched

/-- In every call of a run whose times do not decrease, the shields from before the
call and the ones created in it are kept, in this order, exactly if their latest
support is recent enough for their flag. -/
theorem kept_iff_supported (config : AnchorTrackerConfig) {calls : List Call} {c : Call}
    (hchron : (calls ++ [c]).Pairwise fun c c' => c.time ≤ c'.time) :
    let t := runFrames { config } calls
    let ws := candidates config (Watched.run config calls) c
    (∃ n, ws.map (·.shield.createdMs) =
      t.shields.map (·.createdMs) ++ List.replicate n c.time) ∧
    t.ingested c.frame c.detections c.time = ws.map (·.shield) ∧
    (t.processFrame c.frame c.detections c.time).1.shields =
      (ws.filter fun w => c.time - w.support <
        if w.static then config.persistenceWindowMs else config.dynamicDecayMs).map (·.shield) := by
  intro t ws
  obtain ⟨hcalls, -, hle⟩ := List.pairwise_append.mp hchron
  have hempty : Watches 0 { config } [] := ⟨rfl, fun w hw => absurd hw List.not_mem_nil⟩
  have hwatches : Watches c.time t (Watched.run config calls) :=
    hempty.runFrames (fun c' hc' => ⟨Nat.zero_le _, hle c' hc' c (List.mem_singleton_self c)⟩)
      (Nat.zero_le _) hcalls
  have hconfig : t.config = config := config_runFrames { config } calls
  obtain ⟨hmap, -⟩ := hwatches.candidates le_rfl
  have hkept := (hwatches.processFrame le_rfl).shields
  rw [hconfig] at hmap hkept
  refine ⟨?_, hmap, hkept⟩
  obtain ⟨n, hn⟩ := candidates_createdMs config (Watched.run config calls) c
  exact ⟨n, hn.trans (by rw [hwatches.shields, List.map_map]; rfl)⟩

/-- A shield seen at 0 ms and never again is still kept at 279 ms. -/
theorem kept_iff_supported_dynamic :
    let seen : Call := ⟨{}, [{ width := 1 / 10, height := 1 / 10 }], 0⟩
    ((runFrames {} [seen]).processFrame {} [] 279).1.shields.length = 1 := by
  intro seen
  have h := (@kept_iff_supported {} [seen] ⟨{}, [], 279⟩ (by simp [seen])).2.2
  rw [h]
  decide +kernel

end Degoonification.VisualAnchorTracker
