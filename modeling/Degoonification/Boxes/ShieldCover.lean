import Degoonification.Boxes.VisualAnchor
import Mathlib.Tactic.NormNum
import Mathlib.Tactic.Ring

/-! What one call of `VisualAnchorTracker::process_frame` covers. A detection is
taken in by the first shield it overlaps, or makes a new one; the shield that
took it in survives the purge of the same call and its padded box ends inside a
returned box. The EMA leaves the shield behind the detection by `1 - emaAlpha` of
what the detection sticks out of it, so the detection itself is covered as far as
the padding makes up for that lag. -/

namespace Degoonification.VisualAnchorTracker

open BoundingBox

/-- A detection as `OnnxDetector` emits it: inside the unit square, with
non-negative size. -/
structure OnScreen (d : BoundingBox) : Prop where
  left : 0 ≤ d.left
  right : d.right ≤ 1
  top : 0 ≤ d.top
  bottom : d.bottom ≤ 1
  width : 0 ≤ d.width
  height : 0 ≤ d.height

theorem OnScreen.region_subset {d : BoundingBox} (h : OnScreen d) : d.region ⊆ unitSquare := by
  rintro p ⟨⟨hl, hr⟩, ht, hb⟩
  exact ⟨⟨h.left.trans hl, hr.trans h.right⟩, h.top.trans ht, hb.trans h.bottom⟩

/-- On no side does `d` stick out of `b` by more than half the padding. -/
structure WithinPadding (ratio : ℚ) (d b : BoundingBox) : Prop where
  left : b.left - d.left ≤ b.width * ratio * (1 / 2)
  right : d.right - b.right ≤ b.width * ratio * (1 / 2)
  top : b.top - d.top ≤ b.height * ratio * (1 / 2)
  bottom : d.bottom - b.bottom ≤ b.height * ratio * (1 / 2)

/-- `b` follows `d` from `old` with smoothing factor `a`: on each side it is left
behind by `1 - a` of what `old` was. -/
structure Follows (a : ℚ) (d old b : BoundingBox) : Prop where
  left : b.left - d.left = (1 - a) * (old.left - d.left)
  right : d.right - b.right = (1 - a) * (d.right - old.right)
  top : b.top - d.top = (1 - a) * (old.top - d.top)
  bottom : d.bottom - b.bottom = (1 - a) * (d.bottom - old.bottom)

theorem follows_blend (a : ℚ) (d old : BoundingBox) : Follows a d old (blend a d old) := by
  constructor <;> simp only [BoundingBox.left, BoundingBox.right, BoundingBox.top,
    BoundingBox.bottom, blend] <;> ring

/-! ### Ingestion, shield by shield -/

section Ingest

variable (config : AnchorTrackerConfig) (frame : VideoFrame) (now : ℕ)

/-- The position of the shield that takes a detection in: the first one it
overlaps, else that of the new shield. -/
def takenBy (shields : List TrackedShield) (det : BoundingBox) : ℕ :=
  shields.findIdx fun s => s.box.overlaps det config.mergeIouThreshold

/-- No detection of the list, ingested in order, is taken in at position `j`. -/
def Untouched (j : ℕ) (shields : List TrackedShield) : List BoundingBox → Prop
  | [] => True
  | det :: dets =>
    takenBy config shields det ≠ j ∧ Untouched j (ingest config frame now shields det) dets

/-- Ingestion changes the shields at one position only. -/
theorem getElem?_ingest (shields : List TrackedShield) (det : BoundingBox) (j : ℕ) :
    (ingest config frame now shields det)[j]? =
      if j = takenBy config shields det then
        some ((shields[j]?.map (smooth config frame now det)).getD (newShield config frame now det))
      else shields[j]? := by
  induction shields generalizing j with
  | nil => cases j <;> simp [ingest, takenBy]
  | cons shield rest ih =>
    by_cases hov : shield.box.overlaps det config.mergeIouThreshold = true
    · have htaken : takenBy config (shield :: rest) det = 0 := by
        simp [takenBy, List.findIdx_cons, hov]
      rw [ingest, if_pos hov, htaken]
      cases j <;> simp
    · have htaken : takenBy config (shield :: rest) det = takenBy config rest det + 1 := by
        simp [takenBy, List.findIdx_cons, hov]
      rw [ingest, if_neg hov, htaken]
      cases j with
      | zero => simp
      | succ j =>
        rw [List.getElem?_cons_succ, List.getElem?_cons_succ, ih j]
        exact if_congr Nat.succ_inj.symm rfl rfl

/-- A shield present stays present and is not made older. -/
theorem exists_getElem?_ingest {shields : List TrackedShield} {j : ℕ} {s : TrackedShield}
    (hs : shields[j]? = some s) (hseen : s.lastSeenMs = now) (det : BoundingBox) :
    ∃ s', (ingest config frame now shields det)[j]? = some s' ∧ s'.lastSeenMs = now := by
  rw [getElem?_ingest, hs]
  split_ifs
  · exact ⟨_, rfl, rfl⟩
  · exact ⟨s, rfl, hseen⟩

theorem exists_getElem?_foldl_ingest (dets : List BoundingBox) {j : ℕ} :
    ∀ {shields : List TrackedShield} {s : TrackedShield}, shields[j]? = some s →
      s.lastSeenMs = now →
      ∃ s', (dets.foldl (ingest config frame now) shields)[j]? = some s' ∧ s'.lastSeenMs = now := by
  induction dets with
  | nil => exact fun {shields s} hs hseen => ⟨s, hs, hseen⟩
  | cons det dets ih =>
    intro shields s hs hseen
    obtain ⟨s', hs', hseen'⟩ := exists_getElem?_ingest config frame now hs hseen det
    exact ih hs' hseen'

theorem getElem?_foldl_ingest_of_untouched (dets : List BoundingBox) {j : ℕ} :
    ∀ {shields : List TrackedShield}, Untouched config frame now j shields dets →
      (dets.foldl (ingest config frame now) shields)[j]? = shields[j]? := by
  induction dets with
  | nil => exact fun _ => rfl
  | cons det dets ih =>
    rintro shields ⟨hne, hrest⟩
    rw [List.foldl_cons, ih hrest, getElem?_ingest, if_neg (Ne.symm hne)]

end Ingest

/-! ### Purge and rendering -/

variable {t : VisualAnchorTracker} {frame : VideoFrame} {now : ℕ}

/-- A shield seen in this call is not purged by it. -/
theorem not_isStale_of_seen {config : AnchorTrackerConfig} {s : TrackedShield}
    (hp : 0 < config.persistenceWindowMs) (hd : 0 < config.dynamicDecayMs)
    (hseen : s.lastSeenMs = now) : isStale config now s = false := by
  simp only [isStale, hseen, lt_irrefl, decide_false, Bool.false_or, Nat.sub_self,
    decide_eq_false_iff_not]
  split <;> omega

/-- A shield seen in this call is kept by it. -/
theorem mem_shields_processFrame {dets : List BoundingBox} {s : TrackedShield}
    (hs : s ∈ t.ingested frame dets now) (hp : 0 < t.config.persistenceWindowMs)
    (hd : 0 < t.config.dynamicDecayMs) (hseen : s.lastSeenMs = now) :
    s ∈ (t.processFrame frame dets now).1.shields :=
  List.mem_filter.mpr ⟨hs, by rw [not_isStale_of_seen hp hd hseen, Bool.not_false]⟩

/-- The padded box of a shield that is kept ends inside a returned box. -/
theorem exists_inside_processFrame {dets : List BoundingBox} {s : TrackedShield}
    (hs : s ∈ (t.processFrame frame dets now).1.shields) :
    ∃ b ∈ (t.processFrame frame dets now).2, Inside (s.box.expanded t.config.paddingRatio) b := by
  have hbox := List.mem_map_of_mem (f := fun s => s.box.expanded t.config.paddingRatio) hs
  exact exists_inside_mergeOverlappingBoxes hbox _

/-- Every current detection is covered up to the smoothing lag: the shield that
takes it in survives the call and its padded box ends inside a returned box, which
covers the detection when the final box of that shield is within padding of it, and
that box is the detection or follows it when no later detection of the call is taken
in by the same shield. -/
theorem exists_returned_covers_of_withinPadding (t : VisualAnchorTracker) (frame : VideoFrame)
    (pre post : List BoundingBox) (d : BoundingBox) (now : ℕ) (hd : OnScreen d)
    (hp : 0 < t.config.persistenceWindowMs) (hdecay : 0 < t.config.dynamicDecayMs) :
    let before := t.ingested frame pre now
    let j := takenBy t.config before d
    ∃ s, (t.ingested frame (pre ++ d :: post) now)[j]? = some s ∧
      s ∈ (t.processFrame frame (pre ++ d :: post) now).1.shields ∧
      (∃ b ∈ (t.processFrame frame (pre ++ d :: post) now).2,
        Inside (s.box.expanded t.config.paddingRatio) b ∧
        (WithinPadding t.config.paddingRatio d s.box → d.region ⊆ b.region)) ∧
      (Untouched t.config frame now j (ingest t.config frame now before d) post →
        match before[j]? with
        | none => s.box = d
        | some old => Follows t.config.emaAlpha d old.box s.box) := by
  intro before j
  have hafter : t.ingested frame (pre ++ d :: post) now =
      post.foldl (ingest t.config frame now) (ingest t.config frame now before d) := by
    rw [ingested, List.foldl_append, List.foldl_cons]
    rfl
  have htaken := getElem?_ingest t.config frame now before d j
  rw [if_pos rfl] at htaken
  have hseen : ((before[j]?.map (smooth t.config frame now d)).getD
      (newShield t.config frame now d)).lastSeenMs = now := by cases before[j]? <;> rfl
  obtain ⟨s, hs, hseen⟩ := exists_getElem?_foldl_ingest t.config frame now post htaken hseen
  have hmem : s ∈ t.ingested frame (pre ++ d :: post) now := hafter ▸ List.mem_of_getElem? hs
  have hkept := mem_shields_processFrame hmem hp hdecay hseen
  refine ⟨s, hafter ▸ hs, hkept, ?_, fun hun => ?_⟩
  · obtain ⟨b, hb, hin⟩ := exists_inside_processFrame hkept
    refine ⟨b, hb, hin, fun hpad => Set.Subset.trans ?_ hin.region_subset⟩
    rw [← Set.inter_eq_self_of_subset_left hd.region_subset]
    exact BoundingBox.region_subset_expanded hpad.left hpad.right hpad.top hpad.bottom
  · rw [getElem?_foldl_ingest_of_untouched t.config frame now post hun, htaken] at hs
    obtain rfl := Option.some.inj hs
    cases before[j]? with
    | none => rfl
    | some old => exact follows_blend _ _ _

/-- A detection that moved by a fiftieth of the screen since the call before: the
shield of that call follows it and covers it. -/
theorem exists_returned_covers_second_detection :
    let b₀ : BoundingBox := { x := 1 / 5, y := 1 / 5, width := 3 / 10, height := 3 / 10 }
    let d : BoundingBox := { x := 11 / 50, y := 1 / 5, width := 3 / 10, height := 3 / 10 }
    let t := runFrames {} [⟨{}, [b₀], 0⟩]
    ∃ s ∈ (t.processFrame {} [d] 66).1.shields, Follows (70 / 100) d b₀ s.box ∧
      ∃ b ∈ (t.processFrame {} [d] 66).2, Inside (s.box.expanded (20 / 100)) b ∧
        d.region ⊆ b.region := by
  intro b₀ d t
  have hd : OnScreen d := by
    constructor <;> norm_num [d, BoundingBox.left, BoundingBox.right, BoundingBox.top,
      BoundingBox.bottom]
  obtain ⟨s, -, hkept, ⟨b, hb, hin, hcovers⟩, hbox⟩ :=
    exists_returned_covers_of_withinPadding t {} [] [] d 66 hd (by decide) (by decide)
  have htaken : takenBy t.config (t.ingested {} [] 66) d = 0 := by decide +kernel
  rw [htaken] at hbox
  have hfollows : Follows (70 / 100) d b₀ s.box := hbox trivial
  refine ⟨s, hkept, hfollows, b, hb, hin, hcovers ?_⟩
  obtain ⟨hleft, hright, htop, hbottom⟩ := hfollows
  simp only [b₀, d, BoundingBox.left, BoundingBox.right, BoundingBox.top, BoundingBox.bottom]
    at hleft hright htop hbottom
  constructor <;> simp only [d, t, BoundingBox.left, BoundingBox.right, BoundingBox.top,
    BoundingBox.bottom, config_runFrames] <;> linarith

/-- The smoothing leaves part of a moving detection uncovered, already in the
configuration `main` sets up: the shield of a box at `0` follows a detection at
`3 / 10` only up to `319 / 400`. -/
theorem moving_detection_not_covered :
    ¬ ∀ (config : AnchorTrackerConfig) (calls : List Call) (c : Call),
      0 ≤ config.paddingRatio → 0 < config.emaAlpha → config.emaAlpha ≤ 1 →
      0 ≤ config.mergeIouThreshold → config.mergeIouThreshold < 1 →
      0 < config.persistenceWindowMs → 0 < config.dynamicDecayMs →
      (∀ c' ∈ calls ++ [c], ∀ d ∈ c'.detections, OnScreen d) →
      ∀ d ∈ c.detections, ∀ p ∈ d.region,
        ∃ b ∈ ((runFrames { config } calls).processFrame c.frame c.detections c.time).2,
          p ∈ b.region := by
  intro h
  let frame : VideoFrame := { width := 1, height := 1, stride := 4, data := some [0, 0, 0, 0] }
  let b₀ : BoundingBox := { width := 1 / 2, height := 1 / 2 }
  let d : BoundingBox := { x := 3 / 10, width := 1 / 2, height := 1 / 2 }
  have hright : ((runFrames { config := ⟨1200, 280, 35 / 100, 15 / 100, 22, 7 / 10⟩ }
      [⟨frame, [b₀], 0⟩]).processFrame frame [d] 66).2.all fun b => b.right < 4 / 5 := by
    decide +kernel
  obtain ⟨b, hb, hp⟩ := h ⟨1200, 280, 35 / 100, 15 / 100, 22, 7 / 10⟩ [⟨frame, [b₀], 0⟩]
    ⟨frame, [d], 66⟩ (by norm_num) (by norm_num) (by norm_num) (by norm_num) (by norm_num)
    (by norm_num) (by norm_num) (by
      simp only [List.cons_append, List.nil_append, List.forall_mem_cons, List.not_mem_nil,
        false_implies, implies_true, and_true]
      constructor <;> constructor <;> norm_num [b₀, d, BoundingBox.left, BoundingBox.right,
        BoundingBox.top, BoundingBox.bottom])
    d List.mem_cons_self (4 / 5, 0) (by
      rw [mem_region]
      norm_num [d, BoundingBox.left, BoundingBox.right, BoundingBox.top, BoundingBox.bottom])
  have hb' : b.right < 4 / 5 := by simpa using List.all_eq_true.mp hright b hb
  exact absurd hp.1.2 (not_le.mpr hb')

end Degoonification.VisualAnchorTracker
