import Degoonification.Inference.Sampling
import Degoonification.Library.Raster

/-! The buffers of `preprocess`. Every sampled pixel is one of the frame, whatever the
rounding of the scale makes of its index, because the index is capped; and the scaled area
lies in the target, so the three planes are written on that area cell by cell, each cell
once, and nowhere else. -/

namespace Degoonification.ImagePreprocessor

open Overlay (toNat_min_last toNat_mul_le)

variable {p : ImagePreprocessor} {frame : VideoFrame} {info : LetterboxInfo}

/-! ### Reads -/

/-- `src_x` and `src_y` in unbounded integers. -/
def exactIndex (scale : ℚ) (size i : ℕ) : ℕ := min (truncToInt (i * (1 / scale))).toNat (size - 1)

/-- The offset of a sampled pixel in unbounded integers. -/
def exactOffset (frame : VideoFrame) (srcX srcY : ℕ) : ℕ :=
  let stride := if 0 < frame.stride then frame.stride else frame.width * frame.bytesPerPixel
  srcY * stride + srcX * frame.bytesPerPixel

def exactPixelStart (frame : VideoFrame) (info : LetterboxInfo) (x y : ℕ) : ℕ :=
  exactOffset frame (exactIndex info.scale frame.width x) (exactIndex info.scale frame.height y)

/-- The bytes `px[0]`, `px[1]` and `px[2]` of every round, from where `start` puts `px`. -/
def reads (start : ℕ → ℕ → ℕ) (info : LetterboxInfo) : List ℕ :=
  (List.range info.scaledH.toNat).flatMap fun y =>
    (List.range info.scaledW.toNat).flatMap fun x => [start x y, start x y + 1, start x y + 2]

/-- The reads are inside if every pixel ends inside. -/
theorem lt_of_mem_reads {start : ℕ → ℕ → ℕ} {n r : ℕ} (hend : ∀ x y, start x y + 3 ≤ n)
    (hr : r ∈ reads start info) : r < n := by
  obtain ⟨y, -, hr⟩ := List.mem_flatMap.mp hr
  obtain ⟨x, -, hr⟩ := List.mem_flatMap.mp hr
  have hxy := hend x y
  simp only [List.mem_cons, List.not_mem_nil, or_false] at hr
  omega

theorem exactIndex_lt {size : ℕ} (hsize : 1 ≤ size) (scale : ℚ) (i : ℕ) :
    exactIndex scale size i < size := by
  rw [exactIndex]
  omega

theorem sourceIndex_lt {size : ℕ} (hsize : 1 ≤ size) (h32 : size < 2 ^ 32) (scale : ℚ) (i : ℕ) :
    (sourceIndex scale size i).toNat < size :=
  toNat_min_last hsize h32 _

/-- A frame with pixels and long enough rows has a stride. -/
theorem stride_pos (hfw : 1 ≤ frame.width)
    (hrow : frame.width * frame.bytesPerPixel ≤ frame.stride) : 0 < frame.stride := by
  have hbpp := frame.three_le_bytesPerPixel
  have hpixel := Nat.le_mul_of_pos_left frame.bytesPerPixel hfw
  omega

theorem exactPixelStart_end_le (hfw : 1 ≤ frame.width) (hfh : 1 ≤ frame.height)
    (hrow : frame.width * frame.bytesPerPixel ≤ frame.stride) (x y : ℕ) :
    exactPixelStart frame info x y + 3 ≤ frame.stride * frame.height := by
  rw [exactPixelStart, exactOffset, if_pos (stride_pos hfw hrow)]
  exact VideoFrame.pixel_end_le hrow (exactIndex_lt hfw _ x) (exactIndex_lt hfh _ y)

/-- A 32-bit product is at most the exact one, so wrapping keeps an offset inside. -/
theorem pixelStart_end_le (hfw : 1 ≤ frame.width) (hfh : 1 ≤ frame.height)
    (hw32 : frame.width < 2 ^ 32) (hh32 : frame.height < 2 ^ 32) (hs32 : frame.stride < 2 ^ 32)
    (hrow : frame.width * frame.bytesPerPixel ≤ frame.stride) (x y : ℕ) :
    pixelStart frame info x y + 3 ≤ frame.stride * frame.height := by
  have hbpp : frame.bytesPerPixel < 2 ^ 32 := by
    rw [VideoFrame.bytesPerPixel]
    split_ifs <;> omega
  rw [pixelStart, sourceOffset, if_pos (stride_pos hfw hrow)]
  set srcX := sourceIndex info.scale frame.width x with hX
  set srcY := sourceIndex info.scale frame.height y with hY
  have hoffY := toNat_mul_le srcY (UInt32.ofNat frame.stride)
  have hoffX := toNat_mul_le srcX (UInt32.ofNat frame.bytesPerPixel)
  rw [UInt32.toNat_ofNat_of_lt' hs32] at hoffY
  rw [UInt32.toNat_ofNat_of_lt' hbpp] at hoffX
  have hpixel := VideoFrame.pixel_end_le hrow (hX ▸ sourceIndex_lt hfw hw32 _ x)
    (hY ▸ sourceIndex_lt hfh hh32 _ y)
  omega

theorem forall_reads {start : ℕ → ℕ → ℕ} {P : ℕ → Prop} (h : ∀ r ∈ reads start info, P r)
    {x y : ℕ} (hx : x < info.scaledW.toNat) (hy : y < info.scaledH.toNat) :
    P (start x y) ∧ P (start x y + 1) ∧ P (start x y + 2) := by
  have hmem (r) (hr : r ∈ [start x y, start x y + 1, start x y + 2]) : P r :=
    h r (List.mem_flatMap.mpr ⟨y, List.mem_range.mpr hy,
      List.mem_flatMap.mpr ⟨x, List.mem_range.mpr hx, hr⟩⟩)
  exact ⟨hmem _ (by simp), hmem _ (by simp), hmem _ (by simp)⟩

theorem channel_lt {plane : ℕ} (h : plane < 3) : channel frame plane < 3 := by
  rw [channel]
  split_ifs <;> omega

/-- The result depends on no bytes but those read. -/
theorem preprocess_congr {d' : Bytes} (hdata : frame.data.isSome) (hfw : 1 ≤ frame.width)
    (hfh : 1 ≤ frame.height)
    (h : ∀ r ∈ reads (pixelStart frame (p.letterbox frame)) (p.letterbox frame),
      (frame.data.getD []).getD r 0 = d'.getD r 0) :
    p.preprocess { frame with data := some d' } = p.preprocess frame := by
  have hsame : p.writes { frame with data := some d' } (p.letterbox frame) =
      p.writes frame (p.letterbox frame) := by
    refine List.flatMap_congr fun y hy => List.flatMap_congr fun x hx => ?_
    obtain ⟨h0, h1, h2⟩ := forall_reads h (List.mem_range.mp hx) (List.mem_range.mp hy)
    rw [pixelWrites_eq, pixelWrites_eq]
    refine List.map_congr_left fun plane hplane => congrArg (Prod.mk _) ?_
    have hchannel : channel frame plane < 3 := channel_lt (List.mem_range.mp hplane)
    have hbyte : (frame.data.getD []).getD
        (pixelStart frame (p.letterbox frame) x y + channel frame plane) 0 =
        d'.getD (pixelStart frame (p.letterbox frame) x y + channel frame plane) 0 := by
      obtain hc | hc | hc : channel frame plane = 0 ∨ channel frame plane = 1 ∨
        channel frame plane = 2 := by omega
      · exact hc ▸ h0
      · exact hc ▸ h1
      · exact hc ▸ h2
    exact (congrArg (fun b : UInt8 => (b.toNat : ℚ) * (1 / 255)) hbyte).symm
  have hdata' : ({ frame with data := some d' } : VideoFrame).data.isSome := rfl
  rw [preprocess_eq hdata hfw hfh, preprocess_eq hdata' hfw hfh]
  exact congrArg (fun ws => (p.letterbox frame, List.foldl _ _ ws)) hsame

/-! ### Writes -/

/-- The writes in order: cell by cell, and for each cell plane by plane. -/
theorem writes_eq : p.writes frame info =
    (Raster.cells info.scaledH.toNat info.scaledW.toNat ×ˢ List.range 3).map fun c =>
      (planeIndex p info c.2 c.1.2 c.1.1,
        sample frame (pixelStart frame info c.1.2 c.1.1) c.2) := by
  rw [writes, Raster.flatMap_flatMap_range]
  change _ = ((Raster.cells _ _).flatMap fun c => (List.range 3).map (Prod.mk c)).map _
  simp only [pixelWrites_eq, List.map_flatMap, List.map_map, Function.comp_def]

/-- The writes on the scaled area. -/
theorem mem_writes {w : ℕ × ℚ} : w ∈ p.writes frame info ↔ ∃ plane < 3,
    ∃ x < info.scaledW.toNat, ∃ y < info.scaledH.toNat,
      w = (planeIndex p info plane x y, sample frame (pixelStart frame info x y) plane) := by
  rw [writes_eq, List.mem_map]
  constructor
  · rintro ⟨⟨⟨y, x⟩, plane⟩, hc, rfl⟩
    obtain ⟨hcell, hplane⟩ := List.mem_product.mp hc
    obtain ⟨hy, hx⟩ := Raster.mem_cells.mp hcell
    exact ⟨plane, List.mem_range.mp hplane, x, hx, y, hy, rfl⟩
  · rintro ⟨plane, hplane, x, hx, y, hy, rfl⟩
    exact ⟨((y, x), plane), List.mem_product.mpr ⟨Raster.mem_cells.mpr ⟨hy, hx⟩,
      List.mem_range.mpr hplane⟩, rfl⟩

/-- The scaled area lies in the target. -/
structure Fits (p : ImagePreprocessor) (info : LetterboxInfo) : Prop where
  padX : 0 ≤ info.padX
  padY : 0 ≤ info.padY
  right : info.padX + info.scaledW ≤ p.targetWidth
  bottom : info.padY + info.scaledH ≤ p.targetHeight

/-- One axis: the rounded size is clamped to the target, and the padding is half of what is
left. -/
theorem pad_fits {scale : ℚ} {size target : ℕ} (htarget : 1 ≤ target) :
    0 ≤ pad target (scaledSize scale size target) ∧
      pad target (scaledSize scale size target) + scaledSize scale size target ≤ target := by
  have hclamp : 1 ≤ scaledSize scale size target ∧ scaledSize scale size target ≤ target :=
    clamp_mem (by exact_mod_cast htarget)
  rw [pad, Int.tdiv_eq_ediv_of_nonneg (by omega)]
  omega

theorem fits_letterbox (hw : 1 ≤ p.targetWidth) (hh : 1 ≤ p.targetHeight) :
    Fits p (p.letterbox frame) where
  padX := (pad_fits hw).1
  padY := (pad_fits hh).1
  right := (pad_fits hw).2
  bottom := (pad_fits hh).2

section Area

variable {plane plane' x x' y y' : ℕ}

/-- A cell of the scaled area lies in the rows and columns of its plane. -/
theorem Fits.cell_lt (h : Fits p info) (hx : x < info.scaledW.toNat)
    (hy : y < info.scaledH.toNat) :
    (info.padX + x).toNat < p.targetWidth ∧ (info.padY + y).toNat < p.targetHeight := by
  obtain ⟨hpx, hpy, hr, hb⟩ := h
  omega

theorem Fits.index_lt (h : Fits p info) (hx : x < info.scaledW.toNat)
    (hy : y < info.scaledH.toNat) :
    (info.padY + y).toNat * p.targetWidth + (info.padX + x).toNat <
      p.targetWidth * p.targetHeight := by
  obtain ⟨hcol, hrow⟩ := h.cell_lt hx hy
  exact mul_comm p.targetHeight _ ▸ Raster.index_lt hrow hcol

theorem Fits.planeIndex_lt (h : Fits p info) (hplane : plane < 3) (hx : x < info.scaledW.toNat)
    (hy : y < info.scaledH.toNat) :
    planeIndex p info plane x y < 3 * (p.targetWidth * p.targetHeight) :=
  Raster.index_lt hplane (h.index_lt hx hy)

/-- No two cells share a place: the place names the plane, and in it the row and column. -/
theorem Fits.planeIndex_inj (h : Fits p info) (hx : x < info.scaledW.toNat)
    (hy : y < info.scaledH.toNat) (hx' : x' < info.scaledW.toNat) (hy' : y' < info.scaledH.toNat)
    (heq : planeIndex p info plane x y = planeIndex p info plane' x' y') :
    plane = plane' ∧ x = x' ∧ y = y' := by
  obtain ⟨hplane, hcell⟩ := Raster.row_col_eq (h.index_lt hx hy) (h.index_lt hx' hy') heq
  obtain ⟨hrow, hcol⟩ := Raster.row_col_eq (h.cell_lt hx hy).1 (h.cell_lt hx' hy').1 hcell
  have hpx := h.padX
  have hpy := h.padY
  exact ⟨hplane, by omega, by omega⟩

end Area

/-- No cell is written twice. -/
theorem Fits.nodup_writes (h : Fits p info) : ((p.writes frame info).map Prod.fst).Nodup := by
  rw [writes_eq, List.map_map]
  refine List.Nodup.map_on ?_ ((Raster.nodup_cells _ _).product List.nodup_range)
  rintro ⟨⟨y, x⟩, plane⟩ hc ⟨⟨y', x'⟩, plane'⟩ hc' heq
  obtain ⟨hy, hx⟩ := Raster.mem_cells.mp (List.mem_product.mp hc).1
  obtain ⟨hy', hx'⟩ := Raster.mem_cells.mp (List.mem_product.mp hc').1
  obtain ⟨rfl, rfl, rfl⟩ := h.planeIndex_inj hx hy hx' hy' heq
  rfl

/-! ### The planes -/

/-- A cell of the scaled area holds the sample of its pixel. -/
theorem Fits.foldl_writes (h : Fits p info) {plane x y : ℕ} (hplane : plane < 3)
    (hx : x < info.scaledW.toNat) (hy : y < info.scaledH.toNat) (ground : ℕ → ℚ) :
    (p.writes frame info).foldl (fun out w => Function.update out w.1 w.2) ground
        (planeIndex p info plane x y) = sample frame (pixelStart frame info x y) plane := by
  obtain ⟨w, hw, hindex, hvalue⟩ | ⟨hnone, -⟩ := Raster.foldl_update_cases
    (p.writes frame info) ground (planeIndex p info plane x y)
  · obtain ⟨plane', -, x', hx', y', hy', rfl⟩ := mem_writes.mp hw
    obtain ⟨rfl, rfl, rfl⟩ := h.planeIndex_inj hx' hy' hx hy hindex
    exact hvalue
  · exact absurd rfl (hnone _ (mem_writes.mpr ⟨plane, hplane, x, hx, y, hy, rfl⟩))

/-- A cell outside the scaled area keeps the ground. -/
theorem foldl_writes_of_forall_ne {i : ℕ} (ground : ℕ → ℚ)
    (hnone : ∀ plane < 3, ∀ x y : ℕ, x < info.scaledW → y < info.scaledH →
      planeIndex p info plane x y ≠ i) :
    (p.writes frame info).foldl (fun out w => Function.update out w.1 w.2) ground i =
      ground i := by
  obtain ⟨w, hw, hindex, -⟩ | ⟨-, hvalue⟩ := Raster.foldl_update_cases
    (p.writes frame info) ground i
  · obtain ⟨plane, hplane, x, hx, y, hy, rfl⟩ := mem_writes.mp hw
    exact absurd hindex (hnone plane hplane x y (Int.lt_toNat.mp hx) (Int.lt_toNat.mp hy))
  · exact hvalue

/-- `preprocess` reads inside the frame, in unbounded and in 32-bit integers, and nothing
it computes depends on a byte it does not read; it fills the scaled area of each plane with
the samples of the frame, cell by cell, each once, on a gray ground. -/
theorem preprocess_fills_letterbox (p : ImagePreprocessor) (frame : VideoFrame)
    (hdata : frame.data.isSome) (hw : 1 ≤ p.targetWidth) (hh : 1 ≤ p.targetHeight)
    (hfw : 1 ≤ frame.width) (hfh : 1 ≤ frame.height)
    (hrow : frame.width * frame.bytesPerPixel ≤ frame.stride) :
    let info := (p.preprocess frame).1
    let out := (p.preprocess frame).2
    let indices := (p.writes frame info).map Prod.fst
    (∀ r ∈ reads (exactPixelStart frame info) info, r < frame.stride * frame.height) ∧
      (frame.width < 2 ^ 32 → frame.height < 2 ^ 32 → frame.stride < 2 ^ 32 →
        ∀ r ∈ reads (pixelStart frame info) info, r < frame.stride * frame.height) ∧
      (∀ d', (∀ r ∈ reads (pixelStart frame info) info,
          (frame.data.getD []).getD r 0 = d'.getD r 0) →
        p.preprocess { frame with data := some d' } = p.preprocess frame) ∧
      Fits p info ∧
      (∀ i ∈ indices, i < 3 * (p.targetWidth * p.targetHeight)) ∧
      (∀ plane < 3, ∀ x y : ℕ, x < info.scaledW → y < info.scaledH →
        indices.count (planeIndex p info plane x y) = 1 ∧
          out (planeIndex p info plane x y) = sample frame (pixelStart frame info x y) plane) ∧
      ∀ i, (∀ plane < 3, ∀ x y : ℕ, x < info.scaledW → y < info.scaledH →
        planeIndex p info plane x y ≠ i) → out i = 447 / 1000 := by
  have hfits : Fits p (p.letterbox frame) := fits_letterbox hw hh
  have hcongr : ∀ d' : Bytes,
      (∀ r ∈ reads (pixelStart frame (p.letterbox frame)) (p.letterbox frame),
        (frame.data.getD []).getD r 0 = d'.getD r 0) →
      p.preprocess { frame with data := some d' } = p.preprocess frame :=
    fun _ => preprocess_congr hdata hfw hfh
  rw [preprocess_eq hdata hfw hfh] at hcongr ⊢
  refine ⟨fun r => lt_of_mem_reads (exactPixelStart_end_le hfw hfh hrow),
    fun hw32 hh32 hs32 r => lt_of_mem_reads (pixelStart_end_le hfw hfh hw32 hh32 hs32 hrow),
    hcongr, hfits, ?_, ?_, fun i => foldl_writes_of_forall_ne _⟩
  · intro i hi
    obtain ⟨w, hw, rfl⟩ := List.mem_map.mp hi
    obtain ⟨plane, hplane, x, hx, y, hy, rfl⟩ := mem_writes.mp hw
    exact hfits.planeIndex_lt hplane hx hy
  · intro plane hplane x y hx hy
    have hx' : x < (p.letterbox frame).scaledW.toNat := Int.lt_toNat.mpr hx
    have hy' : y < (p.letterbox frame).scaledH.toNat := Int.lt_toNat.mpr hy
    have hmem : planeIndex p (p.letterbox frame) plane x y ∈
        (p.writes frame (p.letterbox frame)).map Prod.fst :=
      List.mem_map.mpr ⟨_, mem_writes.mpr ⟨plane, hplane, x, hx', y, hy', rfl⟩, rfl⟩
    exact ⟨List.count_eq_one_of_mem hfits.nodup_writes hmem,
      hfits.foldl_writes hplane hx' hy' _⟩

/-- Two pixels in one row, for a target of 4 by 4: they fill its two middle rows. -/
def pair : VideoFrame :=
  { width := 2, height := 1, stride := 8, data := some [10, 20, 30, 255, 40, 50, 60, 255] }

/-- The red plane gets the third byte of the second pixel, below a gray row. -/
theorem preprocess_fills_letterbox_pair :
    let p : ImagePreprocessor := { targetWidth := 4, targetHeight := 4 }
    let info := (p.preprocess pair).1
    ((p.writes pair info).map Prod.fst).count 7 = 1 ∧
      (p.preprocess pair).2 7 = 60 * (1 / 255) ∧ (p.preprocess pair).2 0 = 447 / 1000 := by
  intro p info
  obtain ⟨-, -, -, -, -, hcell, hgray⟩ := preprocess_fills_letterbox p pair rfl (by decide)
    (by decide) (by decide) (by decide) (by decide)
  have hindex : planeIndex p info 0 3 0 = 7 := by decide +kernel
  have hsample : sample pair (pixelStart pair info 3 0) 0 = 60 * (1 / 255) := by decide +kernel
  obtain ⟨honce, hvalue⟩ := hcell 0 (by decide) 3 0 (by decide +kernel) (by decide +kernel)
  refine ⟨hindex ▸ honce, hsample ▸ hindex ▸ hvalue, hgray 0 ?_⟩
  intro plane _ x y _ _ hzero
  have hpad : info.padY = 1 := by decide +kernel
  have hzero : plane * (4 * 4) + ((info.padY + y).toNat * 4 + (info.padX + x).toNat) = 0 := hzero
  rw [hpad] at hzero
  omega

end Degoonification.ImagePreprocessor
