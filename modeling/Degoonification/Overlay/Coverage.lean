import Degoonification.Overlay.Reconfigure

/-! What one call of `render_boxes` writes and reads. As long as no 32-bit value
of the paint loops wraps, the mosaic tiling and the flat fill write the same
pixels, those of the boxes' rectangles, and every sample is taken inside the
frame. -/

namespace Degoonification.Overlay

open Loops

/-! ### Reads -/

/-- The bytes a block samples: `px[0]`, `px[1]` and `px[2]`. -/
def blockReads (frame : VideoFrame) (x y curBw curBh : UInt32) : List ℕ :=
  let px := sampleOffset frame x y curBw curBh
  [px, px + 1, px + 2]

def mosaicReads (n : ℕ) (block : UInt32) (frame : VideoFrame) (r : PixelRect) : List ℕ :=
  (visits r.y2 block n r.y1).flatMap fun y =>
    (visits r.x2 block n r.x1).flatMap fun x =>
      blockReads frame x y (min block (r.x2 - x)) (min block (r.y2 - y))

/-- The offsets a call reads in the frame it samples. -/
def paintReads (config : OverlayConfig) (n : ℕ) (w h : UInt32) (frame : Option VideoFrame)
    (boxes : List BoundingBox) : List ℕ :=
  match mosaicSource config frame with
  | some f => boxes.flatMap fun box => mosaicReads n (blockSize config) f (pixelRect w h box)
  | none => []

/-- A coordinate cut off at the last pixel. -/
theorem toNat_min_last {m : ℕ} (hm : 0 < m) (hlt : m < 2 ^ 32) (a : UInt32) :
    (min a (UInt32.ofNat m - 1)).toNat + 1 ≤ m := by
  have hof : (UInt32.ofNat m).toNat = m := UInt32.toNat_ofNat_of_lt' hlt
  have hlast : (UInt32.ofNat m - 1).toNat = m - 1 := by
    rw [toNat_sub_one (by omega), hof]
  rw [toNat_min, hlast]
  omega

theorem toNat_mul_le (a b : UInt32) : (a * b).toNat ≤ a.toNat * b.toNat := by
  rw [UInt32.toNat_mul]
  exact Nat.mod_le _ _

/-- The sampled pixel is one of the frame. -/
theorem sampleOffset_lt {frame : VideoFrame} {d : Bytes} (hvalid : frame.Valid)
    (hdata : frame.data = some d) (hw : 0 < frame.width) (hh : 0 < frame.height)
    (x y curBw curBh : UInt32) : sampleOffset frame x y curBw curBh + 2 < d.length := by
  have hbpp := frame.three_le_bytesPerPixel
  have hbppLt : frame.bytesPerPixel < 2 ^ 32 := by
    rw [VideoFrame.bytesPerPixel]
    split_ifs <;> omega
  have hrow := hvalid.row d hdata
  have hstride : frame.bytesPerPixel ≤ frame.stride := (Nat.le_mul_of_pos_left _ hw).trans hrow
  have hX := toNat_min_last hw hvalid.width_lt (x + curBw / 2)
  have hY := toNat_min_last hh hvalid.height_lt (y + curBh / 2)
  rw [sampleOffset, if_pos (by omega)]
  set sampleX := min (x + curBw / 2) (UInt32.ofNat frame.width - 1)
  set sampleY := min (y + curBh / 2) (UInt32.ofNat frame.height - 1)
  have hoffY := toNat_mul_le sampleY (UInt32.ofNat frame.stride)
  have hoffX := toNat_mul_le sampleX (UInt32.ofNat frame.bytesPerPixel)
  rw [UInt32.toNat_ofNat_of_lt' hvalid.stride_lt] at hoffY
  rw [UInt32.toNat_ofNat_of_lt' hbppLt] at hoffX
  have hpixel := VideoFrame.pixel_end_le hrow hX hY
  have hsize := hvalid.size d hdata
  omega

theorem mosaicSource_eq_some {config : OverlayConfig} {frame : Option VideoFrame} {f : VideoFrame}
    (h : mosaicSource config frame = some f) :
    frame = some f ∧ (∃ d, f.data = some d) ∧ 0 < f.width ∧ 0 < f.height := by
  obtain ⟨hframe, hf⟩ := Option.filter_eq_some_iff.mp h
  simp only [Bool.and_eq_true, decide_eq_true_eq, Option.isSome_iff_exists] at hf
  obtain ⟨⟨⟨-, hdata⟩, hw⟩, hh⟩ := hf
  exact ⟨hframe, hdata, hw, hh⟩

/-- Every read is inside the data of a valid frame, also where offsets wrap. -/
theorem paintReads_lt {config : OverlayConfig} {n : ℕ} {w h : UInt32} {frame : Option VideoFrame}
    {boxes : List BoundingBox} (hvalid : ∀ f, frame = some f → f.Valid) {o : ℕ}
    (ho : o ∈ paintReads config n w h frame boxes) :
    ∃ f d, frame = some f ∧ f.data = some d ∧ o < d.length := by
  rw [paintReads] at ho
  split at ho
  · next f hsource =>
    obtain ⟨hframe, ⟨d, hdata⟩, hw, hh⟩ := mosaicSource_eq_some hsource
    refine ⟨f, d, hframe, hdata, ?_⟩
    obtain ⟨box, -, ho⟩ := List.mem_flatMap.mp ho
    obtain ⟨y, -, ho⟩ := List.mem_flatMap.mp ho
    obtain ⟨x, -, ho⟩ := List.mem_flatMap.mp ho
    simp only [blockReads, List.mem_cons, List.not_mem_nil, or_false] at ho
    have hlt := sampleOffset_lt (hvalid f hframe) hdata hw hh x y
      (min (blockSize config) ((pixelRect w h box).x2 - x))
      (min (blockSize config) ((pixelRect w h box).y2 - y))
    omega
  · exact absurd ho List.not_mem_nil

/-! ### Writes -/

def PixelRect.Contains (r : PixelRect) (x y : UInt32) : Prop :=
  (r.x1 ≤ x ∧ x < r.x2) ∧ r.y1 ≤ y ∧ y < r.y2

/-- The word `i` belongs to a pixel of the rectangle. -/
def PixelRect.Owns (w : UInt32) (r : PixelRect) (i : ℕ) : Prop :=
  ∃ x y, r.Contains x y ∧ pixelIndex w y x = i

section Rect

variable {n : ℕ} {w block color : UInt32} {frame : VideoFrame} {r : PixelRect} {i : ℕ}

theorem exists_mem_flatWrites_iff (hn : 2 ^ 32 ≤ n) :
    (∃ p ∈ flatWrites n w color r, p.1 = i) ↔ r.Owns w i := by
  constructor
  · rintro ⟨p, hp, rfl⟩
    obtain ⟨y, hy, hp⟩ := List.mem_flatMap.mp hp
    obtain ⟨x, hx, rfl⟩ := List.mem_map.mp hp
    exact ⟨x, y, ⟨(mem_visits_one_iff hn).mp hx, (mem_visits_one_iff hn).mp hy⟩, rfl⟩
  · rintro ⟨x, y, ⟨hx, hy⟩, rfl⟩
    refine ⟨(pixelIndex w y x, color), List.mem_flatMap.mpr ⟨y, ?_, List.mem_map.mpr ⟨x, ?_, rfl⟩⟩,
      rfl⟩
    · exact (mem_visits_one_iff hn).mpr hy
    · exact (mem_visits_one_iff hn).mpr hx

/-- The ragged blocks of the mosaic make up the rectangle. -/
theorem exists_mem_mosaicWrites_iff (hn : 2 ^ 32 ≤ n) (hblock : 0 < block.toNat)
    (hy : NoWrap r.y2 block r.y1) (hx : r.y1 < r.y2 → NoWrap r.x2 block r.x1) :
    (∃ p ∈ mosaicWrites n w block frame r, p.1 = i) ↔ r.Owns w i := by
  constructor
  · rintro ⟨p, hp, rfl⟩
    obtain ⟨y, hyv, hp⟩ := List.mem_flatMap.mp hp
    obtain ⟨x, hxv, hp⟩ := List.mem_flatMap.mp hp
    obtain ⟨dy, hdy, hp⟩ := List.mem_flatMap.mp hp
    obtain ⟨dx, hdx, rfl⟩ := List.mem_map.mp hp
    have hrow := (hy.mem_blocks_iff hblock hn).mp ⟨y, hyv, dy, hdy, rfl⟩
    have hx := hx (UInt32.lt_of_le_of_lt hrow.1 hrow.2)
    exact ⟨x + dx, y + dy, ⟨(hx.mem_blocks_iff hblock hn).mp ⟨x, hxv, dx, hdx, rfl⟩, hrow⟩, rfl⟩
  · rintro ⟨x, y, ⟨hcol, hrow⟩, rfl⟩
    have hx := hx (UInt32.lt_of_le_of_lt hrow.1 hrow.2)
    obtain ⟨y, hyv, dy, hdy, rfl⟩ := (hy.mem_blocks_iff hblock hn).mpr hrow
    obtain ⟨x, hxv, dx, hdx, rfl⟩ := (hx.mem_blocks_iff hblock hn).mpr hcol
    exact ⟨_, List.mem_flatMap.mpr ⟨y, hyv, List.mem_flatMap.mpr ⟨x, hxv,
      List.mem_flatMap.mpr ⟨dy, hdy, List.mem_map.mpr ⟨dx, hdx, rfl⟩⟩⟩⟩, rfl⟩

end Rect

theorem blockSize_bounds (config : OverlayConfig) :
    8 ≤ (blockSize config).toNat ∧ (blockSize config).toNat < 2 ^ 31 := by
  have hmax : (8 : Int32) ≤ max 8 config.mosaicBlockSize := by
    rw [show max 8 config.mosaicBlockSize =
      if 8 ≤ config.mosaicBlockSize then config.mosaicBlockSize else 8 from rfl]
    split_ifs with h
    · exact h
    · exact Int32.le_refl 8
  have h8 : (8 : Int32).toInt = 8 := rfl
  rw [blockSize]
  generalize max 8 config.mosaicBlockSize = b at hmax
  have hle := Int32.le_iff_toInt_le.mp hmax
  have h0 : 0 ≤ b := Int32.le_trans (by decide) hmax
  have hcast := Int32.cast_toNatClampNeg b h0
  rw [Int32.toNat_toUInt32_of_le h0]
  exact ⟨by omega, b.toNatClampNeg_lt⟩

theorem blockSize_pos (config : OverlayConfig) : 0 < (blockSize config).toNat :=
  Nat.lt_of_lt_of_le (by decide) (blockSize_bounds config).1

/-- No 32-bit value of the paint loops wraps for a box: the offsets of its rows,
and the counters of the mosaic's outer loops. -/
structure Unwrapped (config : OverlayConfig) (w h : UInt32) (frame : Option VideoFrame)
    (box : BoundingBox) : Prop where
  offset : ∀ x y, (pixelRect w h box).Contains x y → y.toNat * w.toNat < 2 ^ 32
  rows : (mosaicSource config frame).isSome →
    NoWrap (pixelRect w h box).y2 (blockSize config) (pixelRect w h box).y1
  columns : (mosaicSource config frame).isSome → (pixelRect w h box).y1 < (pixelRect w h box).y2 →
    NoWrap (pixelRect w h box).x2 (blockSize config) (pixelRect w h box).x1

section Call

variable {config : OverlayConfig} {w h : UInt32} {frame : Option VideoFrame}
  {boxes : List BoundingBox}

/-- On a screen of up to `2 ^ 32` pixels no row offset wraps. -/
theorem offset_lt_of_area (harea : w.toNat * h.toNat ≤ 2 ^ 32) {box : BoundingBox} {x y : UInt32}
    (hin : (pixelRect w h box).Contains x y) : y.toNat * w.toNat < 2 ^ 32 := by
  obtain ⟨⟨-, hx⟩, -, hy⟩ := hin
  have hx2 : (pixelRect w h box).x2 ≤ w := min_le_end _ _
  have hy2 : (pixelRect w h box).y2 ≤ h := min_le_end _ _
  rw [UInt32.le_iff_toNat_le] at hx2 hy2
  rw [UInt32.lt_iff_toNat_lt] at hx hy
  have hrow : (y.toNat + 1) * w.toNat ≤ h.toNat * w.toNat := Nat.mul_le_mul_right _ (by omega)
  rw [Nat.add_mul, Nat.one_mul, Nat.mul_comm h.toNat] at hrow
  omega

/-- On screens of up to `2 ^ 32` pixels and sides of up to `2 ^ 31` nothing wraps. -/
theorem unwrapped_of_small (harea : w.toNat * h.toNat ≤ 2 ^ 32) (hw : w.toNat ≤ 2 ^ 31)
    (hh : h.toNat ≤ 2 ^ 31) (box : BoundingBox) : Unwrapped config w h frame box := by
  obtain ⟨-, hblock⟩ := blockSize_bounds config
  have hx2 : (pixelRect w h box).x2 ≤ w := min_le_end _ _
  have hy2 : (pixelRect w h box).y2 ≤ h := min_le_end _ _
  rw [UInt32.le_iff_toNat_le] at hx2 hy2
  exact ⟨fun _ _ => offset_lt_of_area harea, fun _ => noWrap_of_le (by omega),
    fun _ _ => noWrap_of_le (by omega)⟩

/-- With the mosaic off the sides of the screen do not matter. -/
theorem unwrapped_of_flat (harea : w.toNat * h.toNat ≤ 2 ^ 32)
    (hmosaic : config.enableFrostedMosaic = false) (box : BoundingBox) :
    Unwrapped config w h frame box := by
  have hnone : ¬ (mosaicSource config frame).isSome := by simp [mosaicSource, hmosaic]
  exact ⟨fun _ _ => offset_lt_of_area harea, fun hsome => absurd hsome hnone,
    fun hsome => absurd hsome hnone⟩

/-- In both modes a call writes exactly the words of the rectangles. -/
theorem exists_mem_paintWrites_iff (hboxes : ∀ box ∈ boxes, Unwrapped config w h frame box)
    {i : ℕ} : (∃ p ∈ paintWrites config (2 ^ 32) w h frame boxes, p.1 = i) ↔
      ∃ box ∈ boxes, (pixelRect w h box).Owns w i := by
  have hbox : ∀ box ∈ boxes, ((∃ p ∈ boxWrites config (2 ^ 32) w h frame box, p.1 = i) ↔
      (pixelRect w h box).Owns w i) := by
    intro box hb
    have hun := hboxes box hb
    rw [boxWrites]
    cases hsource : mosaicSource config frame with
    | none => exact exists_mem_flatWrites_iff le_rfl
    | some f =>
      have hsome : (mosaicSource config frame).isSome := by rw [hsource]; rfl
      exact exists_mem_mosaicWrites_iff le_rfl (blockSize_pos config) (hun.rows hsome)
        (hun.columns hsome)
  constructor
  · rintro ⟨p, hp, hpi⟩
    obtain ⟨box, hb, hp⟩ := List.mem_flatMap.mp hp
    exact ⟨box, hb, (hbox box hb).mp ⟨p, hp, hpi⟩⟩
  · rintro ⟨box, hb, howns⟩
    obtain ⟨p, hp, hpi⟩ := (hbox box hb).mpr howns
    exact ⟨p, List.mem_flatMap.mpr ⟨box, hb, hp⟩, hpi⟩

/-- Every paint loop ends. -/
theorem paintEnds_of_unwrapped (hboxes : ∀ box ∈ boxes, Unwrapped config w h frame box) :
    paintEnds config w h frame boxes = true := by
  refine List.all_eq_true.mpr fun box hb => ?_
  have hun := hboxes box hb
  cases hsource : mosaicSource config frame with
  | none => rfl
  | some f =>
    have hsome : (mosaicSource config frame).isSome := by rw [hsource]; rfl
    have hpos := blockSize_pos config
    have hx2 := (pixelRect w h box).x2.toNat_lt
    have hy2 := (pixelRect w h box).y2.toNat_lt
    by_cases hy : (pixelRect w h box).y1 < (pixelRect w h box).y2
    · have hrows := (hun.rows hsome).endsWithin (n := 2 ^ 32) hpos (by omega)
      have hcolumns := (hun.columns hsome hy).endsWithin (n := 2 ^ 32) hpos (by omega)
      rw [mosaicEnds, hrows, hcolumns]
      exact Bool.or_true _
    · simp [mosaicEnds, hy]

end Call

end Degoonification.Overlay
