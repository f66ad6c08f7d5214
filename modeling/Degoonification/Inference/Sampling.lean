import Degoonification.Inference.Detector
import Degoonification.Overlay.Coverage
import Mathlib.Algebra.Order.Round
import Mathlib.Tactic.FieldSimp
import Mathlib.Tactic.Ring

/-! Sampling against un-mapping. `preprocess` divides by the exact scale and
truncates, `detect` divides by the rounded size of the scaled area. The rounding
moves the far edge by at most half a pixel, so the two agree up to one source pixel
and half a scaled one. A size rounded up to 1 has only the pixel 0, where both are 0. -/

namespace Degoonification.ImagePreprocessor

open OnnxDetector (normCenter scaledOr unmap)
open Overlay (truncToUInt32)

variable {scale : ℚ} {size target x : ℕ} {scaled : ℤ}

/-! ### The pixel at hand -/

/-- Which byte of a pixel a plane gets: blue is the first in the BGRA formats. -/
def channel (frame : VideoFrame) (plane : ℕ) : ℕ :=
  if frame.format = .bgra ∨ frame.format = .bgrx then 2 - plane else plane

/-- The number a plane gets for the pixel that starts at `px`. -/
def sample (frame : VideoFrame) (px plane : ℕ) : ℚ :=
  ((frame.data.getD []).getD (px + channel frame plane) 0).toNat * (1 / 255)

/-- The place of column `x` and row `y` of the scaled area in one of the planes. -/
def planeIndex (p : ImagePreprocessor) (info : LetterboxInfo) (plane x y : ℕ) : ℕ :=
  plane * (p.targetWidth * p.targetHeight) +
    ((info.padY + y).toNat * p.targetWidth + (info.padX + x).toNat)

/-- The offset of the pixel sampled for column `x` and row `y` of the scaled area. -/
def pixelStart (frame : VideoFrame) (info : LetterboxInfo) (x y : ℕ) : ℕ :=
  sourceOffset frame (sourceIndex info.scale frame.width x) (sourceIndex info.scale frame.height y)

/-- A round of the inner loop, whatever the format: one write for each plane. -/
theorem pixelWrites_eq (p : ImagePreprocessor) (frame : VideoFrame) (info : LetterboxInfo)
    (x y : ℕ) : p.pixelWrites frame info x y = (List.range 3).map fun plane =>
      (planeIndex p info plane x y, sample frame (pixelStart frame info x y) plane) := by
  rw [pixelWrites]
  split_ifs with hformat <;>
    simp [List.range_succ, planeIndex, sample, channel, pixelStart, two_mul, hformat]

/-! ### Rounding -/

theorem roundToInt_eq_round {q : ℚ} (h : 0 ≤ q) : roundToInt q = round q := by
  rw [roundToInt, if_neg (not_lt.mpr h), round_eq]

theorem scale_pos (p : ImagePreprocessor) {frame : VideoFrame} (hw : 1 ≤ p.targetWidth)
    (hh : 1 ≤ p.targetHeight) (hfw : 1 ≤ frame.width) (hfh : 1 ≤ frame.height) :
    0 < p.scale frame := by
  rw [scale]
  exact lt_min (div_pos (Nat.cast_pos.mpr hw) (Nat.cast_pos.mpr hfw))
    (div_pos (Nat.cast_pos.mpr hh) (Nat.cast_pos.mpr hfh))

/-- The scaled frame is no wider than the target. -/
theorem width_fits (p : ImagePreprocessor) {frame : VideoFrame} (hfw : 1 ≤ frame.width) :
    frame.width * p.scale frame ≤ p.targetWidth := by
  rw [scale, mul_comm, ← le_div_iff₀ (Nat.cast_pos.mpr hfw)]
  exact min_le_left _ _

theorem height_fits (p : ImagePreprocessor) {frame : VideoFrame} (hfh : 1 ≤ frame.height) :
    frame.height * p.scale frame ≤ p.targetHeight := by
  rw [scale, mul_comm, ← le_div_iff₀ (Nat.cast_pos.mpr hfh)]
  exact min_le_right _ _

/-- The result for a frame that has pixels. -/
theorem preprocess_eq {p : ImagePreprocessor} {frame : VideoFrame} (hdata : frame.data.isSome)
    (hfw : 1 ≤ frame.width) (hfh : 1 ≤ frame.height) :
    p.preprocess frame = (p.letterbox frame, (p.writes frame (p.letterbox frame)).foldl
      (fun out w => Function.update out w.1 w.2) fun _ => 447 / 1000) := by
  rw [preprocess, if_neg (VideoFrame.not_empty_iff.mpr ⟨hdata, hfw, hfh⟩)]

/-- The rounded size is the exact one up to half a pixel, unless it is 1. -/
theorem scaledSize_near (hscale : 0 < scale) (hfits : size * scale ≤ target) :
    scaledSize scale size target = 1 ∨
      |(scaledSize scale size target : ℚ) - size * scale| ≤ 1 / 2 := by
  have hpos : 0 ≤ size * scale := mul_nonneg (Nat.cast_nonneg size) hscale.le
  have hround : round (size * scale) ≤ (target : ℤ) := by
    rw [round_eq, Int.floor_le_iff]
    push_cast
    linarith
  rw [scaledSize, roundToInt_eq_round hpos, clamp]
  split_ifs with hlo hhi
  · exact Or.inl rfl
  · exact absurd hround (not_le.mpr hhi)
  · exact Or.inr (abs_sub_comm (size * scale) _ ▸ abs_sub_round (size * scale))

/-- A pixel of the scaled area lies at most `1 / 2 / scale` source pixels from where its
share of the scaled size puts it. -/
theorem abs_drift_le (hscale : 0 < scale) (hx : (x : ℤ) < scaled)
    (hscaled : scaled = 1 ∨ |(scaled : ℚ) - size * scale| ≤ 1 / 2) :
    |x * (1 / scale) - x * size / scaled| ≤ 1 / 2 / scale := by
  have hx' : (x : ℚ) ≤ scaled := by exact_mod_cast hx.le
  rcases Nat.eq_zero_or_pos x with rfl | hpos
  · rw [Nat.cast_zero, zero_mul, zero_mul, zero_div, sub_zero, abs_zero]
    exact div_nonneg (by norm_num) hscale.le
  · have hsc : (0 : ℚ) < scaled := lt_of_lt_of_le (Nat.cast_pos.mpr hpos) hx'
    have hnear : |(scaled : ℚ) - size * scale| ≤ 1 / 2 := by
      rcases hscaled with h | h
      · omega
      · exact h
    have hsplit : x * (1 / scale) - x * size / scaled =
        x / scaled * ((scaled - size * scale) / scale) := by
      field_simp
    rw [hsplit, abs_mul, abs_div _ scale, abs_of_pos hscale,
      abs_of_nonneg (div_nonneg (Nat.cast_nonneg x) hsc.le)]
    calc (x : ℚ) / scaled * (|(scaled : ℚ) - size * scale| / scale)
        ≤ 1 * (1 / 2 / scale) :=
          mul_le_mul ((div_le_one hsc).mpr hx') (div_le_div_of_nonneg_right hnear hscale.le)
            (div_nonneg (abs_nonneg _) hscale.le) zero_le_one
      _ = 1 / 2 / scale := one_mul _

/-- The exact source position of a pixel of the scaled area lies in the frame. -/
theorem position_lt (hscale : 0 < scale) (hsize : 1 ≤ size) (hx : (x : ℤ) < scaled)
    (hscaled : scaled = 1 ∨ |(scaled : ℚ) - size * scale| ≤ 1 / 2) :
    x * (1 / scale) < size := by
  rcases Nat.eq_zero_or_pos x with rfl | hpos
  · rw [Nat.cast_zero, zero_mul]
    exact Nat.cast_pos.mpr hsize
  · rw [mul_one_div, div_lt_iff₀ hscale]
    rcases hscaled with h | h
    · omega
    · have hx' : (x : ℚ) + 1 ≤ scaled := by exact_mod_cast hx
      linarith [(abs_le.mp h).2]

/-- In the frame, the cap of `src_x` and `src_y` has no effect. -/
theorem toNat_sourceIndex (hscale : 0 < scale) (h32 : size < 2 ^ 32)
    (hlt : x * (1 / scale) < size) :
    (sourceIndex scale size x).toNat = ⌊x * (1 / scale)⌋₊ := by
  have hpos : 0 ≤ x * (1 / scale) :=
    mul_nonneg (Nat.cast_nonneg x) (one_div_nonneg.mpr hscale.le)
  have hfloor : ⌊x * (1 / scale)⌋₊ < size := (Nat.floor_lt hpos).mpr hlt
  have hof : (UInt32.ofNat size).toNat = size := UInt32.toNat_ofNat_of_lt' h32
  have h32' : (size : ℚ) < 2 ^ 32 := by exact_mod_cast h32
  rw [sourceIndex, Loops.toNat_min, Overlay.toNat_truncToUInt32 hpos (hlt.trans h32'),
    Overlay.toNat_sub_one (by omega), hof]
  omega

/-- One axis: the sampled index is in the frame and close to the un-mapped one. -/
theorem sourceIndex_near (hscale : 0 < scale) (hsize : 1 ≤ size) (h32 : size < 2 ^ 32)
    (hx : (x : ℤ) < scaled)
    (hscaled : scaled = 1 ∨ |(scaled : ℚ) - size * scale| ≤ 1 / 2) (pad : ℤ) :
    (sourceIndex scale size x).toNat < size ∧
      |(sourceIndex scale size x).toNat - normCenter pad scaled (pad + x) * size| <
        1 + 1 / 2 / scale := by
  have hlt := position_lt hscale hsize hx hscaled
  have hpos : 0 ≤ x * (1 / scale) :=
    mul_nonneg (Nat.cast_nonneg x) (one_div_nonneg.mpr hscale.le)
  rw [toNat_sourceIndex hscale h32 hlt]
  refine ⟨(Nat.floor_lt hpos).mpr hlt, ?_⟩
  have hunmap : normCenter pad scaled (pad + x) * size = x * size / scaled := by
    rw [normCenter, add_sub_cancel_left, div_mul_eq_mul_div]
  have htrunc : |(⌊x * (1 / scale)⌋₊ : ℚ) - x * (1 / scale)| < 1 := by
    rw [abs_lt]
    constructor
    · linarith [Nat.lt_floor_add_one (x * (1 / scale))]
    · linarith [Nat.floor_le hpos]
  calc |(⌊x * (1 / scale)⌋₊ : ℚ) - normCenter pad scaled (pad + x) * size|
      ≤ |(⌊x * (1 / scale)⌋₊ : ℚ) - x * (1 / scale)| +
          |x * (1 / scale) - x * size / scaled| := hunmap ▸ abs_sub_le _ _ _
    _ < 1 + 1 / 2 / scale := add_lt_add_of_lt_of_le htrunc (abs_drift_le hscale hx hscaled)

/-- `detect` takes a point of the scaled area to the center that `normCenter` names: its
share of the scaled size is between 0 and 1, so the clamps do nothing. -/
theorem unmap_center {config : DetectorConfig} {info : LetterboxInfo} {x y : ℕ}
    (hx : (x : ℤ) < info.scaledW) (hy : (y : ℤ) < info.scaledH) :
    (unmap config info (info.padX + x) (info.padY + y) 0 0).x =
        normCenter info.padX info.scaledW (info.padX + x) ∧
      (unmap config info (info.padX + x) (info.padY + y) 0 0).y =
        normCenter info.padY info.scaledH (info.padY + y) := by
  have hcenter {pad scaled input : ℤ} {c : ℕ} (hc : (c : ℤ) < scaled) :
      clamp (normCenter pad (scaledOr scaled input) (pad + c) - 0 / scaledOr scaled input *
        (1 / 2)) 0 1 = normCenter pad scaled (pad + c) := by
    have hc' : (c : ℚ) < scaled := by exact_mod_cast hc
    have hpos : (0 : ℚ) < scaled := lt_of_le_of_lt (Nat.cast_nonneg c) hc'
    rw [scaledOr, if_pos (by omega), zero_div, zero_mul, sub_zero, normCenter,
      add_sub_cancel_left]
    exact clamp_eq_self (div_nonneg (Nat.cast_nonneg c) hpos.le) ((div_le_one hpos).mpr hc'.le)
  exact ⟨hcenter hx, hcenter hy⟩

/-- Every pixel of the scaled area is sampled inside the frame, less than one source
pixel and half a scaled one from where `detect` puts that pixel; what is sampled there is
what the round of that pixel writes. -/
theorem preprocess_near_unmap (p : ImagePreprocessor) (frame : VideoFrame)
    (hdata : frame.data.isSome) (hw : 1 ≤ p.targetWidth) (hh : 1 ≤ p.targetHeight)
    (hfw : 1 ≤ frame.width) (hfh : 1 ≤ frame.height) (hw32 : frame.width < 2 ^ 32)
    (hh32 : frame.height < 2 ^ 32) :
    let info := (p.preprocess frame).1
    ∀ x y : ℕ, x < info.scaledW → y < info.scaledH →
      let srcX := (sourceIndex info.scale frame.width x).toNat
      let srcY := (sourceIndex info.scale frame.height y).toNat
      (srcX < frame.width ∧ srcY < frame.height) ∧
        |srcX - normCenter info.padX info.scaledW (info.padX + x) * frame.width| <
          1 + 1 / 2 / info.scale ∧
        |srcY - normCenter info.padY info.scaledH (info.padY + y) * frame.height| <
          1 + 1 / 2 / info.scale ∧
        (p.pixelWrites frame info x y = (List.range 3).map fun plane =>
          (planeIndex p info plane x y, sample frame (pixelStart frame info x y) plane)) ∧
        ∀ config : DetectorConfig,
          (unmap config info (info.padX + x) (info.padY + y) 0 0).x =
              normCenter info.padX info.scaledW (info.padX + x) ∧
            (unmap config info (info.padX + x) (info.padY + y) 0 0).y =
              normCenter info.padY info.scaledH (info.padY + y) := by
  have hinfo : (p.preprocess frame).1 = p.letterbox frame := by
    rw [preprocess_eq hdata hfw hfh]
  have hscale := p.scale_pos hw hh hfw hfh
  intro info x y hx hy
  rw [show info = p.letterbox frame from hinfo] at hx hy ⊢
  have hX := sourceIndex_near hscale hfw hw32 hx (scaledSize_near hscale (p.width_fits hfw))
    (p.letterbox frame).padX
  have hY := sourceIndex_near hscale hfh hh32 hy (scaledSize_near hscale (p.height_fits hfh))
    (p.letterbox frame).padY
  exact ⟨⟨hX.1, hY.1⟩, hX.2, hY.2, p.pixelWrites_eq frame _ x y, fun _ => unmap_center hx hy⟩

/-- A single row of pixels, scaled to less than half a row. -/
def strip : VideoFrame :=
  { width := 4000, height := 1, stride := 16000, data := some (List.replicate 16000 0) }

/-- The letterbox of the row in a target of 640 by 640. -/
def stripInfo : LetterboxInfo := (({} : ImagePreprocessor).preprocess strip).1

theorem preprocess_near_unmap_strip :
    ((sourceIndex stripInfo.scale 4000 639).toNat < 4000 ∧
        (sourceIndex stripInfo.scale 1 0).toNat < 1) ∧
      |((sourceIndex stripInfo.scale 4000 639).toNat : ℚ) -
          normCenter stripInfo.padX stripInfo.scaledW (stripInfo.padX + (639 : ℕ)) *
            (4000 : ℕ)| < 1 + 1 / 2 / stripInfo.scale ∧
      |((sourceIndex stripInfo.scale 1 0).toNat : ℚ) -
          normCenter stripInfo.padY stripInfo.scaledH (stripInfo.padY + (0 : ℕ)) * (1 : ℕ)| <
        1 + 1 / 2 / stripInfo.scale := by
  obtain ⟨hin, hX, hY, -, -⟩ := preprocess_near_unmap {} strip rfl (by decide) (by decide)
    (by decide) (by decide) (by decide) (by decide) 639 0 (by decide +kernel) (by decide +kernel)
  exact ⟨hin, hX, hY⟩

end Degoonification.ImagePreprocessor
