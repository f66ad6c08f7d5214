import Degoonification.Boxes.AnchorStep
import Degoonification.Boxes.ShieldCover

/-! Where `VisualAnchorTracker` reads. Anchors outlive the frame they were sampled on and
drift with every scroll, but `add_pt` and `eval_anchors` check each point against the frame
at hand before `get_pixel_rgb` reads it. The checked column is multiplied in signed 32-bit
arithmetic, so the check is enough as long as the last pixel of a row starts below
`2 ^ 31`, and no longer. -/

namespace Degoonification.VisualAnchorTracker

open BoundingBox

/-! ### The reads of a call -/

/-- The bytes `p[0]`, `p[1]` and `p[2]`, which every format reads. -/
def pixelReads (frame : VideoFrame) (px py : ℤ) : List ℤ :=
  let p := frame.pixelOffset px py
  [p, p + 1, p + 2]

/-- A read behind the check that `add_pt` and `eval_anchors` share. -/
def checkedReads (frame : VideoFrame) (px py : ℤ) : List ℤ :=
  if 0 ≤ px ∧ px < toInt32 frame.width ∧ 0 ≤ py ∧ py < toInt32 frame.height then
    pixelReads frame px py
  else []

/-- The points `sample_anchors` hands to `add_pt`. -/
def samplePoints (config : AnchorTrackerConfig) (frame : VideoFrame) (box : BoundingBox) :
    List (ℤ × ℤ) :=
  let exp := box.expanded config.paddingRatio
  let sx1 := clamp (truncToInt (exp.x * frame.width)) 0 ((frame.width : ℤ) - 1)
  let sy1 := clamp (truncToInt (exp.y * frame.height)) 0 ((frame.height : ℤ) - 1)
  let sx2 := clamp (truncToInt ((exp.x + exp.width) * frame.width)) 0 ((frame.width : ℤ) - 1)
  let sy2 := clamp (truncToInt ((exp.y + exp.height) * frame.height)) 0 ((frame.height : ℤ) - 1)
  let horizontal := (List.range' 1 nSamples).flatMap fun i : ℕ =>
    let px := sx1 + (i * (sx2 - sx1)).tdiv (nSamples + 1)
    [(px, sy1 - margin), (px, sy2 + margin)]
  let vertical := (List.range' 1 nSamples).flatMap fun i : ℕ =>
    let py := sy1 + (i * (sy2 - sy1)).tdiv (nSamples + 1)
    [(sx1 - margin, py), (sx2 + margin, py)]
  horizontal ++ vertical

def sampleReads (config : AnchorTrackerConfig) (frame : VideoFrame) (box : BoundingBox) : List ℤ :=
  if frame.data.isNone ∨ frame.width = 0 ∨ frame.height = 0 then []
  else (samplePoints config frame box).flatMap fun q => checkedReads frame q.1 q.2

def evalReads (frame : VideoFrame) (anchors : List AnchorPixel) (dyOffset : ℤ) : List ℤ :=
  if frame.data.isNone ∨ anchors.isEmpty then []
  else anchors.flatMap fun pt => checkedReads frame pt.x (pt.y + dyOffset)

/-- The static test of a shield, and the scroll offsets if it fails. -/
def shieldReads (config : AnchorTrackerConfig) (frame : VideoFrame) (shield : TrackedShield) :
    List ℤ :=
  if shield.anchors.isEmpty then []
  else
    evalReads frame shield.anchors 0 ++
      if evalAnchors frame shield.anchors 0 < config.anchorErrorThreshold then []
      else testOffsets.flatMap (evalReads frame shield.anchors)

def stepReads (config : AnchorTrackerConfig) (frame : VideoFrame) (shields : List TrackedShield) :
    List ℤ :=
  if frame.data.isSome ∧ 0 < frame.width ∧ 0 < frame.height then
    shields.flatMap (shieldReads config frame)
  else []

def resampleReads (config : AnchorTrackerConfig) (frame : VideoFrame) (box : BoundingBox) :
    List ℤ :=
  if frame.data.isSome ∧ 0 < frame.width then sampleReads config frame box else []

/-- The reads of `ingest`: one box is sampled, that of the shield the detection ends in. -/
def ingestReads (config : AnchorTrackerConfig) (frame : VideoFrame) :
    List TrackedShield → BoundingBox → List ℤ
  | [], det => resampleReads config frame det
  | shield :: rest, det =>
    if shield.box.overlaps det config.mergeIouThreshold then
      resampleReads config frame (blend config.emaAlpha det shield.box)
    else ingestReads config frame rest det

def detectionReads (config : AnchorTrackerConfig) (frame : VideoFrame) (now : ℕ) :
    List TrackedShield → List BoundingBox → List ℤ
  | _, [] => []
  | shields, det :: dets => ingestReads config frame shields det ++
      detectionReads config frame now (ingest config frame now shields det) dets

/-- The offsets that a call of `process_frame` reads in its frame. -/
def callReads (t : VisualAnchorTracker) (c : Call) : List ℤ :=
  stepReads t.config c.frame t.shields ++ detectionReads t.config c.frame c.time
    (anchorStep t.config c.frame c.time t.shields) c.detections

/-- The reads of a run, each with the frame it is from. -/
def runReads : VisualAnchorTracker → List Call → List (VideoFrame × ℤ)
  | _, [] => []
  | t, c :: calls => (callReads t c).map (c.frame, ·) ++
      runReads (t.processFrame c.frame c.detections c.time).1 calls

/-! ### Every read is checked -/

/-- The frame has data, and the read is of a point that passes the check against its size. -/
def Checked (frame : VideoFrame) (r : ℤ) : Prop :=
  frame.data.isSome ∧ ∃ px py, r ∈ checkedReads frame px py

section Reads

variable {config : AnchorTrackerConfig} {frame : VideoFrame} {r : ℤ}

/-- The anchors are those of the points that pass the check. -/
theorem sampleAnchors_eq (hdata : frame.data.isSome) (hw : 0 < frame.width)
    (hh : 0 < frame.height) (box : BoundingBox) : sampleAnchors config frame box =
      (samplePoints config frame box).flatMap fun q => addPt frame q.1 q.2 := by
  rw [sampleAnchors, if_neg (VideoFrame.not_empty_iff.mpr ⟨hdata, hw, hh⟩), samplePoints]
  simp only [List.flatMap_append, List.flatMap_assoc, List.flatMap_cons, List.flatMap_nil,
    List.append_nil]

theorem checked_of_mem_sampleReads {box : BoundingBox} (hr : r ∈ sampleReads config frame box) :
    Checked frame r := by
  rw [sampleReads] at hr
  split_ifs at hr with hempty
  · exact absurd hr List.not_mem_nil
  · obtain ⟨q, -, hq⟩ := List.mem_flatMap.mp hr
    exact ⟨(VideoFrame.not_empty_iff.mp hempty).1, q.1, q.2, hq⟩

theorem checked_of_mem_evalReads {anchors : List AnchorPixel} {dyOffset : ℤ}
    (hr : r ∈ evalReads frame anchors dyOffset) : Checked frame r := by
  rw [evalReads] at hr
  split_ifs at hr with hnone
  · exact absurd hr List.not_mem_nil
  · obtain ⟨pt, -, hpt⟩ := List.mem_flatMap.mp hr
    rw [not_or, Bool.not_eq_true, Option.isNone_eq_false_iff] at hnone
    exact ⟨hnone.1, pt.x, pt.y + dyOffset, hpt⟩

/-- Whatever frame the anchors are from and wherever they have drifted. -/
theorem checked_of_mem_stepReads {shields : List TrackedShield}
    (hr : r ∈ stepReads config frame shields) : Checked frame r := by
  rw [stepReads] at hr
  split_ifs at hr
  · obtain ⟨s, -, hs⟩ := List.mem_flatMap.mp hr
    rw [shieldReads] at hs
    split_ifs at hs
    · exact absurd hs List.not_mem_nil
    · exact checked_of_mem_evalReads (List.append_nil _ ▸ hs)
    · obtain hs | hs := List.mem_append.mp hs
      · exact checked_of_mem_evalReads hs
      · obtain ⟨dy, -, hdy⟩ := List.mem_flatMap.mp hs
        exact checked_of_mem_evalReads hdy
  · exact absurd hr List.not_mem_nil

theorem checked_of_mem_resampleReads {box : BoundingBox}
    (hr : r ∈ resampleReads config frame box) : Checked frame r := by
  rw [resampleReads] at hr
  split_ifs at hr
  · exact checked_of_mem_sampleReads hr
  · exact absurd hr List.not_mem_nil

theorem checked_of_mem_ingestReads {shields : List TrackedShield} {det : BoundingBox}
    (hr : r ∈ ingestReads config frame shields det) : Checked frame r := by
  induction shields with
  | nil => exact checked_of_mem_resampleReads hr
  | cons s rest ih =>
    rw [ingestReads] at hr
    split_ifs at hr
    · exact checked_of_mem_resampleReads hr
    · exact ih hr

theorem checked_of_mem_detectionReads {now : ℕ} {dets : List BoundingBox} :
    ∀ {shields : List TrackedShield}, r ∈ detectionReads config frame now shields dets →
      Checked frame r := by
  induction dets with
  | nil => exact fun hr => absurd hr List.not_mem_nil
  | cons det dets ih =>
    intro shields hr
    obtain hr | hr := List.mem_append.mp hr
    · exact checked_of_mem_ingestReads hr
    · exact ih hr

theorem checked_of_mem_callReads {t : VisualAnchorTracker} {c : Call} (hr : r ∈ callReads t c) :
    Checked c.frame r :=
  (List.mem_append.mp hr).elim checked_of_mem_stepReads checked_of_mem_detectionReads

end Reads

/-- The step holds of any tracker, so the run needs no invariant of the anchors. -/
theorem checked_of_mem_runReads {calls : List Call} {q : VideoFrame × ℤ} :
    ∀ {t : VisualAnchorTracker}, q ∈ runReads t calls →
      (∃ c ∈ calls, c.frame = q.1) ∧ Checked q.1 q.2 := by
  induction calls with
  | nil => exact fun hq => absurd hq List.not_mem_nil
  | cons c calls ih =>
    intro t hq
    obtain hq | hq := List.mem_append.mp hq
    · obtain ⟨r, hr, rfl⟩ := List.mem_map.mp hq
      exact ⟨⟨c, List.mem_cons_self, rfl⟩, checked_of_mem_callReads hr⟩
    · obtain ⟨⟨c', hc', hframe⟩, hchecked⟩ := ih hq
      exact ⟨⟨c', List.mem_cons_of_mem c hc', hframe⟩, hchecked⟩

/-! ### Where a checked read is inside -/

/-- The read is of a byte below `stride * height`. -/
def InFrame (frame : VideoFrame) (r : ℤ) : Prop := 0 ≤ r ∧ r < frame.stride * frame.height

/-- In a frame with pixels to compare, whose size is not negative as an `int`, the last pixel
of a row starts below `2 ^ 31`. -/
def RowsFit (frame : VideoFrame) : Prop :=
  frame.data.isSome → 0 < frame.height → frame.width < 2 ^ 31 → frame.height < 2 ^ 31 →
    (frame.width - 1) * frame.bytesPerPixel < 2 ^ 31

/-- From `2 ^ 31` on, a 32-bit number is negative as an `int`. -/
theorem toInt32_of_ge {n : ℕ} (h : 2 ^ 31 ≤ n) (h32 : n < 2 ^ 32) :
    toInt32 n = (n : ℤ) - 2 ^ 32 := by
  have hshift : ((n : ℤ) - 2 ^ 32).bmod (2 ^ 32) = (n : ℤ).bmod (2 ^ 32) :=
    Int.sub_bmod_right n (2 ^ 32)
  rw [toInt32, ← hshift]
  exact Int.bmod_eq_of_le (by omega) (by omega)

theorem lt_of_lt_toInt32 {n : ℕ} {a : ℤ} (h32 : n < 2 ^ 32) (h0 : 0 ≤ a) (h : a < toInt32 n) :
    n < 2 ^ 31 ∧ a < n := by
  by_cases hn : n < 2 ^ 31
  · exact ⟨hn, toInt32_natCast hn ▸ h⟩
  · rw [toInt32_of_ge (not_lt.mp hn) h32] at h
    omega

section Frame

variable {frame : VideoFrame} {px py r : ℤ}

theorem Checked.inFrame (h : Checked frame r) (hvalid : frame.Valid) (hfit : RowsFit frame) :
    InFrame frame r := by
  obtain ⟨hdata, px, py, hr⟩ := h
  obtain ⟨d, hd⟩ := Option.isSome_iff_exists.mp hdata
  rw [checkedReads] at hr
  split_ifs at hr with hcheck
  · obtain ⟨hx0, hx, hy0, hy⟩ := hcheck
    obtain ⟨hw31, hx⟩ := lt_of_lt_toInt32 hvalid.width_lt hx0 hx
    obtain ⟨hh31, hy⟩ := lt_of_lt_toInt32 hvalid.height_lt hy0 hy
    have hcol : px.toNat < frame.width := by omega
    have hrow : py.toNat < frame.height := by omega
    have hlast : px.toNat * frame.bytesPerPixel ≤ (frame.width - 1) * frame.bytesPerPixel :=
      Nat.mul_le_mul_right _ (by omega)
    have hstart : frame.pixelOffset px py =
        (py.toNat * frame.stride % 2 ^ 32 + px.toNat * frame.bytesPerPixel : ℕ) :=
      VideoFrame.pixelOffset_eq hx0 (hlast.trans_lt (hfit hdata (by omega) hw31 hh31)) py
    have hend := VideoFrame.pixel_end_le (hvalid.row d hd) hcol hrow
    have hwrap := Nat.mod_le (py.toNat * frame.stride) (2 ^ 32)
    have hoffset : py.toNat * frame.stride % 2 ^ 32 + px.toNat * frame.bytesPerPixel + 3 ≤
        frame.stride * frame.height := by omega
    have hoffset : ((py.toNat * frame.stride % 2 ^ 32 + px.toNat * frame.bytesPerPixel : ℕ) : ℤ) +
        3 ≤ frame.stride * frame.height := by exact_mod_cast hoffset
    simp only [pixelReads, hstart, List.mem_cons, List.not_mem_nil, or_false] at hr
    rw [InFrame]
    omega
  · exact absurd hr List.not_mem_nil

/-- Where a row is too long, the first bytes of its last pixels lie before the data. -/
theorem pixelOffset_neg {x : ℕ} (h31 : 2 ^ 31 ≤ x * frame.bytesPerPixel)
    (h32 : x * frame.bytesPerPixel < 2 ^ 32) : frame.pixelOffset x 0 < 0 := by
  have hcast : (x : ℤ) * frame.bytesPerPixel = (x * frame.bytesPerPixel : ℕ) :=
    (Int.natCast_mul _ _).symm
  rw [VideoFrame.pixelOffset, hcast, toInt32_of_ge h31 h32, Int.toNat_zero, Nat.zero_mul,
    Nat.zero_mod]
  omega

end Frame

/-! ### Nothing else of the frame is looked at -/

section Congr

variable {config : AnchorTrackerConfig} {frame : VideoFrame} {d : Bytes}

/-- At these offsets, `d` has the bytes of the frame. -/
def SameAt (frame : VideoFrame) (d : Bytes) (reads : List ℤ) : Prop :=
  ∀ r ∈ reads, VideoFrame.byteAt { frame with data := some d } r = frame.byteAt r

theorem getPixelRgb_congr {px py : ℤ} (h : SameAt frame d (pixelReads frame px py)) :
    getPixelRgb { frame with data := some d } px py = getPixelRgb frame px py := by
  simp only [SameAt, pixelReads, List.forall_mem_cons] at h
  obtain ⟨h0, h1, h2, -⟩ := h
  exact ite_congr rfl (fun _ => Prod.ext h0 (Prod.ext h1 h2)) fun _ =>
    Prod.ext h2 (Prod.ext h1 h0)

theorem addPt_congr {px py : ℤ} (h : SameAt frame d (checkedReads frame px py)) :
    addPt { frame with data := some d } px py = addPt frame px py := by
  unfold addPt
  rw [checkedReads] at h
  split_ifs at h ⊢
  · rw [getPixelRgb_congr h]
  · rfl

variable (hdata : frame.data.isSome)
include hdata

/-- A test for missing data comes out the same. -/
theorem isNone_withData : (some d : Option Bytes).isNone = frame.data.isNone := by
  rw [Option.isNone_some, Option.isNone_eq_false_iff.mpr hdata]

theorem sampleAnchors_congr {box : BoundingBox} (hw : 0 < frame.width) (hh : 0 < frame.height)
    (h : SameAt frame d (sampleReads config frame box)) :
    sampleAnchors config { frame with data := some d } box = sampleAnchors config frame box := by
  rw [sampleReads, if_neg (VideoFrame.not_empty_iff.mpr ⟨hdata, hw, hh⟩)] at h
  have hdata' : ({ frame with data := some d } : VideoFrame).data.isSome := rfl
  rw [sampleAnchors_eq hdata hw hh, sampleAnchors_eq hdata' hw hh]
  exact List.flatMap_congr fun q hq =>
    addPt_congr fun r hr => h r (List.mem_flatMap.mpr ⟨q, hq, hr⟩)

theorem evalAnchors_congr {anchors : List AnchorPixel} {dyOffset : ℤ}
    (h : SameAt frame d (evalReads frame anchors dyOffset)) :
    evalAnchors { frame with data := some d } anchors dyOffset =
      evalAnchors frame anchors dyOffset := by
  have hanchor (acc : ℚ × ℕ) (pt : AnchorPixel) (hpt : pt ∈ anchors) :
      evalAnchor { frame with data := some d } dyOffset acc pt =
        evalAnchor frame dyOffset acc pt := by
    unfold evalAnchor
    rw [evalReads, if_neg (by
      rw [Option.isNone_eq_false_iff.mpr hdata, List.isEmpty_eq_false_iff.mpr
        (List.ne_nil_of_mem hpt)]
      decide)] at h
    have hreads : SameAt frame d (checkedReads frame pt.x (pt.y + dyOffset)) :=
      fun r hr => h r (List.mem_flatMap.mpr ⟨pt, hpt, hr⟩)
    rw [checkedReads] at hreads
    dsimp only
    split_ifs with hin
    · rw [if_pos ⟨hin.2.2.1, hin.2.2.2, hin.1, hin.2.1⟩] at hreads
      rw [getPixelRgb_congr hreads]
    · rfl
  unfold evalAnchors
  rw [isNone_withData hdata, List.foldl_ext _ _ _ hanchor]

theorem anchorShield_congr {now : ℕ} {shield : TrackedShield}
    (h : SameAt frame d (shieldReads config frame shield)) :
    anchorShield config { frame with data := some d } now shield =
      anchorShield config frame now shield := by
  unfold anchorShield
  rw [shieldReads] at h
  by_cases hempty : shield.anchors.isEmpty = true
  · rw [if_pos hempty, if_pos hempty]
  rw [if_neg hempty] at h ⊢
  have hstatic : evalAnchors { frame with data := some d } shield.anchors 0 =
      evalAnchors frame shield.anchors 0 :=
    evalAnchors_congr hdata fun r hr => h r (List.mem_append_left _ hr)
  rw [if_neg hempty]
  simp only [hstatic]
  by_cases hsmall : evalAnchors frame shield.anchors 0 < config.anchorErrorThreshold
  · rw [if_pos hsmall, if_pos hsmall]
  rw [if_neg hsmall] at h
  have hbest : bestOffset { frame with data := some d } shield.anchors
      (evalAnchors frame shield.anchors 0) =
      bestOffset frame shield.anchors (evalAnchors frame shield.anchors 0) := by
    refine List.foldl_ext _ _ _ fun best dy hdy => ?_
    rw [evalAnchors_congr hdata fun r hr =>
      h r (List.mem_append_right _ (List.mem_flatMap.mpr ⟨dy, hdy, hr⟩))]
  rw [if_neg hsmall, if_neg hsmall, hbest]

theorem anchorStep_congr {now : ℕ} {shields : List TrackedShield}
    (h : SameAt frame d (stepReads config frame shields)) :
    anchorStep config { frame with data := some d } now shields =
      anchorStep config frame now shields := by
  unfold anchorStep
  rw [stepReads] at h
  by_cases hpixels : 0 < frame.width ∧ 0 < frame.height
  · rw [if_pos ⟨hdata, hpixels⟩] at h
    rw [if_pos ⟨rfl, hpixels⟩, if_pos ⟨hdata, hpixels⟩]
    exact List.map_congr_left fun s hs =>
      anchorShield_congr hdata fun r hr => h r (List.mem_flatMap.mpr ⟨s, hs, hr⟩)
  · rw [if_neg fun h => hpixels h.2, if_neg fun h => hpixels h.2]

theorem resample_congr {box : BoundingBox} {old : List AnchorPixel}
    (h : SameAt frame d (resampleReads config frame box)) :
    resample config { frame with data := some d } box old = resample config frame box old := by
  unfold resample
  rw [resampleReads] at h
  by_cases hw : 0 < frame.width
  · rw [if_pos ⟨hdata, hw⟩] at h
    rw [if_pos ⟨rfl, hw⟩, if_pos ⟨hdata, hw⟩]
    rcases Nat.eq_zero_or_pos frame.height with hh | hh
    · rw [sampleAnchors, sampleAnchors, if_pos (Or.inr (Or.inr hh)), if_pos (Or.inr (Or.inr hh))]
    · exact sampleAnchors_congr hdata hw hh h
  · rw [if_neg fun h => hw h.2, if_neg fun h => hw h.2]

theorem ingest_congr {now : ℕ} {shields : List TrackedShield} {det : BoundingBox}
    (h : SameAt frame d (ingestReads config frame shields det)) :
    ingest config { frame with data := some d } now shields det =
      ingest config frame now shields det := by
  induction shields with
  | nil => rw [ingest, ingest, newShield, newShield, resample_congr hdata h]
  | cons shield rest ih =>
    rw [ingestReads] at h
    rw [ingest, ingest]
    split_ifs at h ⊢
    · rw [smooth, smooth, resample_congr hdata h]
    · rw [ih h]

theorem foldl_ingest_congr {now : ℕ} {dets : List BoundingBox} :
    ∀ {shields : List TrackedShield},
      SameAt frame d (detectionReads config frame now shields dets) →
      dets.foldl (ingest config { frame with data := some d } now) shields =
        dets.foldl (ingest config frame now) shields := by
  induction dets with
  | nil => exact fun _ => rfl
  | cons det dets ih =>
    intro shields h
    rw [List.foldl_cons, List.foldl_cons,
      ingest_congr hdata fun r hr => h r (List.mem_append_left _ hr)]
    exact ih fun r hr => h r (List.mem_append_right _ hr)

/-- A call depends on no bytes of its frame but those it reads. -/
theorem processFrame_congr {t : VisualAnchorTracker} {dets : List BoundingBox} {now : ℕ}
    (h : SameAt frame d (callReads t ⟨frame, dets, now⟩)) :
    t.processFrame { frame with data := some d } dets now = t.processFrame frame dets now := by
  have hingested : t.ingested { frame with data := some d } dets now =
      t.ingested frame dets now := by
    unfold ingested
    rw [anchorStep_congr hdata fun r hr => h r (List.mem_append_left _ hr),
      foldl_ingest_congr hdata fun r hr => h r (List.mem_append_right _ hr)]
  unfold processFrame
  rw [hingested]

end Congr

/-! ### A run that reads the last pixel of a row -/

/-- An empty detection on the upper edge, `margin` pixels before the last column. -/
def cornerPoint (frame : VideoFrame) : BoundingBox :=
  { x := ((frame.width : ℚ) - 15) / frame.width }

/-- A call that detects nothing. -/
def quiet (frame : VideoFrame) : Call := ⟨frame, [], 0⟩

theorem truncToInt_intCast (n : ℤ) : truncToInt n = n := by
  rw [truncToInt, Rat.num_intCast, Rat.den_intCast, Nat.cast_one, Int.tdiv_one]

section Corner

variable {frame : VideoFrame} (hw : 15 ≤ frame.width)
include hw

/-- The corner on screen. -/
theorem cornerPoint_x_mem : 0 ≤ (cornerPoint frame).x ∧ (cornerPoint frame).x ≤ 1 := by
  have hw' : (15 : ℚ) ≤ frame.width := by exact_mod_cast hw
  exact ⟨div_nonneg (by linarith) (by linarith), div_le_one_of_le₀ (by linarith) (by linarith)⟩

theorem onScreen_cornerPoint : OnScreen (cornerPoint frame) where
  left := (cornerPoint_x_mem hw).1
  right := (add_zero (cornerPoint frame).x).trans_le (cornerPoint_x_mem hw).2
  top := le_rfl
  bottom := (add_zero (0 : ℚ)).trans_le zero_le_one
  width := le_rfl
  height := le_rfl

/-- Padding adds nothing to an empty box. -/
theorem expanded_cornerPoint (ratio : ℚ) :
    (cornerPoint frame).expanded ratio = cornerPoint frame := by
  obtain ⟨h0, h1⟩ := cornerPoint_x_mem hw
  have hwidth : (cornerPoint frame).width = 0 := rfl
  have hheight : (cornerPoint frame).height = 0 := rfl
  have hy : (cornerPoint frame).y = 0 := rfl
  simp only [expanded, hwidth, hheight, hy, zero_mul, sub_zero, add_zero, max_eq_right h0,
    min_eq_right h1, sub_self, max_self, min_eq_right zero_le_one]
  rfl

/-- The last pixel of the first row is among its sample points. -/
theorem mem_samplePoints_cornerPoint (config : AnchorTrackerConfig) (hh : 1 ≤ frame.height) :
    (((frame.width - 1 : ℕ) : ℤ), 0) ∈ samplePoints config frame (cornerPoint frame) := by
  have hcol : truncToInt ((cornerPoint frame).x * frame.width) = (frame.width : ℤ) - 15 := by
    have hw' : (frame.width : ℚ) ≠ 0 := by exact_mod_cast (by omega : frame.width ≠ 0)
    have hx : (cornerPoint frame).x * frame.width = (((frame.width : ℤ) - 15 : ℤ) : ℚ) := by
      rw [cornerPoint, div_mul_cancel₀ _ hw']
      push_cast
      rfl
    rw [hx, truncToInt_intCast]
  have hrow : truncToInt ((cornerPoint frame).y * frame.height) = 0 := by
    rw [show (cornerPoint frame).y = 0 from rfl, zero_mul]
    rfl
  have hwidth : (cornerPoint frame).width = 0 := rfl
  have hheight : (cornerPoint frame).height = 0 := rfl
  simp only [samplePoints, expanded_cornerPoint hw, hwidth, hheight, add_zero, hcol, hrow, sub_self,
    mul_zero, Int.zero_tdiv, clamp_eq_self (by omega : (0 : ℤ) ≤ (frame.width : ℤ) - 15)
      (by omega : (frame.width : ℤ) - 15 ≤ (frame.width : ℤ) - 1),
    clamp_eq_self le_rfl (by omega : (0 : ℤ) ≤ (frame.height : ℤ) - 1)]
  refine List.mem_append_right _ (List.mem_flatMap.mpr ⟨1, by decide, ?_⟩)
  refine List.mem_cons_of_mem _ (List.mem_singleton.mpr (Prod.ext ?_ rfl))
  simp only [margin]
  omega

end Corner

/-! ### Runs -/

theorem runReads_append (t : VisualAnchorTracker) (calls more : List Call) :
    runReads t (calls ++ more) = runReads t calls ++ runReads (t.runFrames calls) more := by
  induction calls generalizing t with
  | nil => rfl
  | cons c calls ih =>
    rw [List.cons_append, runReads, ih, runReads, List.append_assoc]
    rfl

theorem anchorStep_nil (config : AnchorTrackerConfig) (frame : VideoFrame) (now : ℕ) :
    anchorStep config frame now [] = [] := by
  rw [anchorStep_eq, List.map_nil]

/-- Without detections, a tracker without shields stays as it is. -/
theorem runFrames_quiet (config : AnchorTrackerConfig) (frames : List VideoFrame) :
    runFrames { config } (frames.map quiet) = { config } := by
  induction frames with
  | nil => rfl
  | cons frame frames ih =>
    have hcall : (processFrame { config } frame [] 0).1 = { config } := by
      simp only [processFrame, ingested, List.foldl_nil, anchorStep_nil, List.filter_nil]
    exact (congrArg (fun t => runFrames t (frames.map quiet)) hcall).trans ih

/-- The reads of a fresh tracker's call with one detection. -/
theorem callReads_single (config : AnchorTrackerConfig) (frame : VideoFrame) (d : BoundingBox) :
    callReads { config } ⟨frame, [d], 0⟩ = resampleReads config frame d := by
  have hnone : stepReads config frame [] = [] := by
    rw [stepReads, List.flatMap_nil, ite_self]
  simp only [callReads, hnone, anchorStep_nil, detectionReads, ingestReads, List.nil_append,
    List.append_nil]

/-- A fresh tracker that is shown the corner of a frame whose rows are too long reads before
its data. -/
theorem exists_read_of_not_rowsFit (config : AnchorTrackerConfig) {frame : VideoFrame}
    (hvalid : frame.Valid) (hfit : ¬RowsFit frame) :
    OnScreen (cornerPoint frame) ∧
      ∃ r ∈ callReads { config } ⟨frame, [cornerPoint frame], 0⟩, ¬InFrame frame r := by
  simp only [RowsFit, Classical.not_imp, not_lt] at hfit
  obtain ⟨hdata, hh, hw31, hh31, hlast⟩ := hfit
  obtain ⟨d, hd⟩ := Option.isSome_iff_exists.mp hdata
  have hbpp : frame.bytesPerPixel ≤ 4 := by
    rw [VideoFrame.bytesPerPixel]
    split_ifs <;> omega
  have hw : 15 ≤ frame.width := by
    have hfour := hlast.trans (Nat.mul_le_mul_left (frame.width - 1) hbpp)
    omega
  have hrow : (frame.width - 1) * frame.bytesPerPixel < 2 ^ 32 :=
    (Nat.mul_le_mul_right _ (Nat.sub_le _ 1)).trans_lt ((hvalid.row d hd).trans_lt hvalid.stride_lt)
  refine ⟨onScreen_cornerPoint hw, frame.pixelOffset (frame.width - 1 : ℕ) 0, ?_,
    fun hin => not_lt.mpr hin.1 (pixelOffset_neg hlast hrow)⟩
  have hcheck : (0 : ℤ) ≤ (frame.width - 1 : ℕ) ∧
      ((frame.width - 1 : ℕ) : ℤ) < toInt32 frame.width ∧ (0 : ℤ) ≤ 0 ∧
      0 < toInt32 frame.height := by
    rw [toInt32_natCast hw31, toInt32_natCast hh31]
    omega
  have hpixels := VideoFrame.not_empty_iff.mpr ⟨hdata, (by omega : 0 < frame.width), hh⟩
  rw [callReads_single, resampleReads, if_pos ⟨hdata, by omega⟩, sampleReads, if_neg hpixels]
  refine List.mem_flatMap.mpr ⟨_, mem_samplePoints_cornerPoint hw config hh, ?_⟩
  rw [checkedReads, if_pos hcheck]
  exact List.mem_cons_self

/-- Whatever shields a tracker has, in a run over frames whose rows fit it reads inside them. -/
theorem inFrame_of_mem_runReads {t : VisualAnchorTracker} {calls : List Call}
    (hcalls : ∀ c ∈ calls, c.frame.Valid ∧ RowsFit c.frame) :
    ∀ q ∈ runReads t calls, InFrame q.1 q.2 := by
  intro q hq
  obtain ⟨⟨c, hc, hframe⟩, hchecked⟩ := checked_of_mem_runReads hq
  obtain ⟨hvalid, hfit⟩ := hframe ▸ hcalls c hc
  exact hchecked.inFrame hvalid hfit

/-- Every run over the frames, with any detections on screen, reads inside the frame at hand. -/
def ReadsInside (config : AnchorTrackerConfig) (frames : List VideoFrame) : Prop :=
  ∀ calls : List Call, calls.map Call.frame = frames →
    (∀ c ∈ calls, ∀ d ∈ c.detections, OnScreen d) →
      ∀ q ∈ runReads { config } calls, InFrame q.1 q.2

/-- The reads of the runs over a sequence of frames are inside exactly when the rows of every
frame fit; and whatever the tracker, a call depends on no byte of its frame that is not
among its reads. -/
theorem readsInside_iff_rowsFit (config : AnchorTrackerConfig) (frames : List VideoFrame)
    (hvalid : ∀ f ∈ frames, f.Valid) :
    (ReadsInside config frames ↔ ∀ f ∈ frames, RowsFit f) ∧
      ∀ f ∈ frames, f.data.isSome → ∀ (t : VisualAnchorTracker) (dets : List BoundingBox)
        (now : ℕ) (d : Bytes), SameAt f d (callReads t ⟨f, dets, now⟩) →
          t.processFrame { f with data := some d } dets now = t.processFrame f dets now := by
  refine ⟨⟨?_, ?_⟩, fun f _ hdata t dets now d h => processFrame_congr hdata h⟩
  · intro h f hf
    by_contra hfit
    obtain ⟨hscreen, r, hr, hout⟩ := exists_read_of_not_rowsFit config (hvalid f hf) hfit
    obtain ⟨before, after, rfl⟩ := List.append_of_mem hf
    have hquiet (fs : List VideoFrame) : (fs.map quiet).map Call.frame = fs := by
      rw [List.map_map]
      exact List.map_id fs
    -- nothing is detected but the corner of the frame at fault
    refine hout (h (before.map quiet ++ ⟨f, [cornerPoint f], 0⟩ :: after.map quiet) ?_ ?_ (f, r) ?_)
    · rw [List.map_append, List.map_cons, hquiet, hquiet]
    · have hnone (fs : List VideoFrame) : ∀ c ∈ fs.map quiet, ∀ d ∈ c.detections, OnScreen d :=
        List.forall_mem_map.mpr fun _ _ _ hd => absurd hd List.not_mem_nil
      exact List.forall_mem_append.mpr ⟨hnone before, List.forall_mem_cons.mpr
        ⟨List.forall_mem_singleton.mpr hscreen, hnone after⟩⟩
    · rw [runReads_append, runFrames_quiet]
      exact List.mem_append_right _ (List.mem_append_left _ (List.mem_map_of_mem hr))
  · rintro h calls rfl -
    exact inFrame_of_mem_runReads fun c hc =>
      ⟨hvalid _ (List.mem_map_of_mem hc), h _ (List.mem_map_of_mem hc)⟩

/-- A frame of four pixels, and one of a single pixel in the 24-bit format. -/
def shrinking : List VideoFrame :=
  [{ width := 4, height := 1, stride := 16, data := some (List.replicate 16 0) },
    { width := 1, height := 1, stride := 3, format := .rgb, data := some [0, 0, 0] }]

theorem readsInside_shrinking : ReadsInside {} shrinking := by
  refine (readsInside_iff_rowsFit {} shrinking ?_).1.mpr ?_
  · refine List.forall_mem_cons.mpr ⟨?_, List.forall_mem_singleton.mpr ?_⟩ <;>
      exact ⟨by decide, by decide, by decide, fun _ _ => by decide, by rintro _ ⟨⟩; decide⟩
  · exact List.forall_mem_cons.mpr ⟨fun _ _ _ _ => by decide,
      List.forall_mem_singleton.mpr fun _ _ _ _ => by decide⟩

/-- A row of 600000000 pixels. -/
def longRow : VideoFrame :=
  { width := 600000000, height := 1, stride := 2400000000
    data := some (List.replicate 2400000000 0) }

theorem valid_longRow : longRow.Valid where
  width_lt := by decide
  height_lt := by decide
  stride_lt := by decide
  row := fun _ _ => by decide
  size := by
    rintro _ ⟨⟩
    exact List.length_replicate.ge

/-- A box near the right edge. -/
def nearEdge : BoundingBox := { x := 9 / 10, y := 0, width := 1 / 20, height := 1 }

/-- One call over the row is enough: the points left of the box are read before the data. -/
theorem longRow_read_outside :
    ¬∀ (config : AnchorTrackerConfig) (frames : List VideoFrame), (∀ f ∈ frames, f.Valid) →
      ReadsInside config frames := by
  intro h
  have hscreen : OnScreen nearEdge := by constructor <;> decide +kernel
  have hread : -2146967352 ∈ callReads {} ⟨longRow, [nearEdge], 0⟩ := by decide +kernel
  have hin := h {} [longRow] (List.forall_mem_singleton.mpr valid_longRow)
    [⟨longRow, [nearEdge], 0⟩] rfl
    (List.forall_mem_singleton.mpr (List.forall_mem_singleton.mpr hscreen))
    (longRow, -2146967352) (List.mem_append_left _ (List.mem_map_of_mem hread))
  exact absurd hin.1 (by decide)

end Degoonification.VisualAnchorTracker
