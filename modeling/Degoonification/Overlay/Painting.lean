import Degoonification.Boxes.VisualAnchor
import Degoonification.Library.Loops
import Mathlib.Data.Rat.Floor

/-! The paint loops of `WaylandOverlay::render_boxes`, as the list of the pixels
they write. A pixel is the index of a 32-bit word from the start of the mapping;
the offset of a row is a 32-bit product, which wraps on screens of `2 ^ 32`
pixels and more. Every loop is cut off after a number of rounds, so that a loop
that never ends still has its writes. -/

namespace Degoonification.Overlay

open Loops

structure OverlayConfig where
  frostedColorArgb : UInt32 := 0xFF0F172A
  enableFrostedMosaic : Bool := true
  mosaicBlockSize : Int32 := 18

/-- `static_cast<uint32_t>` of a number in its range. -/
def truncToUInt32 (q : ℚ) : UInt32 := UInt32.ofNat (truncToInt q).toNat

theorem toNat_truncToUInt32 {q : ℚ} (h0 : 0 ≤ q) (hlt : q < 2 ^ 32) :
    (truncToUInt32 q).toNat = ⌊q⌋₊ := by
  have htrunc : (truncToInt q).toNat = ⌊q⌋₊ := by
    rw [truncToInt, Int.tdiv_eq_ediv_of_nonneg (Rat.num_nonneg.mpr h0), ← Rat.floor_def]
    exact Int.floor_toNat q
  rw [truncToUInt32, htrunc, UInt32.toNat_ofNat_of_lt']
  exact (Nat.floor_lt h0).mpr (by exact_mod_cast hlt)

/-- The rectangle of pixels a box is painted on: columns `x1 ≤ x < x2`, rows
`y1 ≤ y < y2`. -/
structure PixelRect where
  x1 : UInt32
  y1 : UInt32
  x2 : UInt32
  y2 : UInt32
  deriving DecidableEq

def pixelRect (w h : UInt32) (box : BoundingBox) : PixelRect where
  x1 := min (truncToUInt32 (box.left * w.toNat)) w
  y1 := min (truncToUInt32 (box.top * h.toNat)) h
  x2 := min (truncToUInt32 (box.right * w.toNat)) w
  y2 := min (truncToUInt32 (box.bottom * h.toNat)) h

/-- The word a write to row `y`, column `x` goes to: `(buf.data + y * w)[x]`. -/
def pixelIndex (w y x : UInt32) : ℕ := (y * w).toNat + x.toNat

/-! ### The mosaic -/

/-- The frame the mosaic samples, or none when the flat color is used. -/
def mosaicSource (config : OverlayConfig) (frame : Option VideoFrame) : Option VideoFrame :=
  frame.filter fun f =>
    config.enableFrostedMosaic && f.data.isSome && 0 < f.width && 0 < f.height

def blockSize (config : OverlayConfig) : UInt32 := (max 8 config.mosaicBlockSize).toUInt32

/-- `(sample_y * src_stride) + (sample_x * bpp)`, two 32-bit products. -/
def sampleOffset (frame : VideoFrame) (x y curBw curBh : UInt32) : ℕ :=
  let srcW := UInt32.ofNat frame.width
  let srcH := UInt32.ofNat frame.height
  let bpp := UInt32.ofNat frame.bytesPerPixel
  let srcStride := if 0 < frame.stride then UInt32.ofNat frame.stride else srcW * bpp
  let sampleX := min (x + curBw / 2) (srcW - 1)
  let sampleY := min (y + curBh / 2) (srcH - 1)
  (sampleY * srcStride).toNat + (sampleX * bpp).toNat

/-- A quarter of dark tint over the color of the scene. -/
def frosted (r g b : UInt8) : UInt32 :=
  let fr := (r.toUInt32 * 3 + 15) / 4
  let fg := (g.toUInt32 * 3 + 23) / 4
  let fb := (b.toUInt32 * 3 + 42) / 4
  (0xFF000000 : UInt32) ||| (fr <<< 16) ||| (fg <<< 8) ||| fb

def blockColor (frame : VideoFrame) (x y curBw curBh : UInt32) : UInt32 :=
  let data := frame.data.getD []
  let px := sampleOffset frame x y curBw curBh
  if frame.format = .rgb then frosted (data.getD px 0) (data.getD (px + 1) 0) (data.getD (px + 2) 0)
  else frosted (data.getD (px + 2) 0) (data.getD (px + 1) 0) (data.getD px 0)

/-- One block of one color, the inner two loops. -/
def blockWrites (n : ℕ) (w x y curBw curBh color : UInt32) : List (ℕ × UInt32) :=
  (visits curBh 1 n 0).flatMap fun dy =>
    (visits curBw 1 n 0).map fun dx => (pixelIndex w (y + dy) (x + dx), color)

def mosaicWrites (n : ℕ) (w block : UInt32) (frame : VideoFrame) (r : PixelRect) :
    List (ℕ × UInt32) :=
  (visits r.y2 block n r.y1).flatMap fun y =>
    let curBh := min block (r.y2 - y)
    (visits r.x2 block n r.x1).flatMap fun x =>
      let curBw := min block (r.x2 - x)
      blockWrites n w x y curBw curBh (blockColor frame x y curBw curBh)

/-- The outer two loops of the mosaic end; the other loops count by one. -/
def mosaicEnds (block : UInt32) (r : PixelRect) : Bool :=
  !(r.y1 < r.y2) ||
    endsWithin r.x2 block (2 ^ 32) r.x1 && endsWithin r.y2 block (2 ^ 32) r.y1

/-! ### One call -/

def flatWrites (n : ℕ) (w color : UInt32) (r : PixelRect) : List (ℕ × UInt32) :=
  (visits r.y2 1 n r.y1).flatMap fun y =>
    (visits r.x2 1 n r.x1).map fun x => (pixelIndex w y x, color)

def boxWrites (config : OverlayConfig) (n : ℕ) (w h : UInt32) (frame : Option VideoFrame)
    (box : BoundingBox) : List (ℕ × UInt32) :=
  let r := pixelRect w h box
  match mosaicSource config frame with
  | some f => mosaicWrites n w (blockSize config) f r
  | none => flatWrites n w config.frostedColorArgb r

/-- The writes of a call in order, with the first `n` rounds of every loop. -/
def paintWrites (config : OverlayConfig) (n : ℕ) (w h : UInt32) (frame : Option VideoFrame)
    (boxes : List BoundingBox) : List (ℕ × UInt32) :=
  boxes.flatMap (boxWrites config n w h frame)

def paintEnds (config : OverlayConfig) (w h : UInt32) (frame : Option VideoFrame)
    (boxes : List BoundingBox) : Bool :=
  boxes.all fun box =>
    (mosaicSource config frame).isNone || mosaicEnds (blockSize config) (pixelRect w h box)

/-! ### Where the writes go -/

/-- A write to a row and a column of the screen. -/
def OnPixel (w h : UInt32) (p : ℕ × UInt32) : Prop := ∃ y < h, ∃ x < w, p.1 = pixelIndex w y x

theorem onPixel_of_mem_blockWrites {n : ℕ} {w h x y curBw curBh color : UInt32}
    {p : ℕ × UInt32} (hy : ∀ dy < curBh, y + dy < h) (hx : ∀ dx < curBw, x + dx < w)
    (hp : p ∈ blockWrites n w x y curBw curBh color) : OnPixel w h p := by
  obtain ⟨dy, hdy, hp⟩ := List.mem_flatMap.mp hp
  obtain ⟨dx, hdx, rfl⟩ := List.mem_map.mp hp
  exact ⟨y + dy, hy dy (lt_of_mem_visits hdy), x + dx, hx dx (lt_of_mem_visits hdx), rfl⟩

section Rect

variable {n : ℕ} {w h : UInt32} {r : PixelRect} {p : ℕ × UInt32}

theorem onPixel_of_mem_flatWrites {color : UInt32} (hx2 : r.x2 ≤ w) (hy2 : r.y2 ≤ h)
    (hp : p ∈ flatWrites n w color r) : OnPixel w h p := by
  obtain ⟨y, hy, hp⟩ := List.mem_flatMap.mp hp
  obtain ⟨x, hx, rfl⟩ := List.mem_map.mp hp
  exact ⟨y, UInt32.lt_of_lt_of_le (lt_of_mem_visits hy) hy2,
    x, UInt32.lt_of_lt_of_le (lt_of_mem_visits hx) hx2, rfl⟩

/-- Also where a counter of the outer loops wraps: it is compared with the end of
the rectangle before every block. -/
theorem onPixel_of_mem_mosaicWrites {block : UInt32} {frame : VideoFrame} (hx2 : r.x2 ≤ w)
    (hy2 : r.y2 ≤ h) (hp : p ∈ mosaicWrites n w block frame r) : OnPixel w h p := by
  obtain ⟨y, hy, hp⟩ := List.mem_flatMap.mp hp
  obtain ⟨x, hx, hp⟩ := List.mem_flatMap.mp hp
  refine onPixel_of_mem_blockWrites (fun dy hdy => ?_) (fun dx hdx => ?_) hp
  · exact UInt32.lt_of_lt_of_le (add_lt_of_lt_block (lt_of_mem_visits hy) hdy) hy2
  · exact UInt32.lt_of_lt_of_le (add_lt_of_lt_block (lt_of_mem_visits hx) hdx) hx2

end Rect

/-- Whatever the boxes are, the corners are clamped to the screen. -/
theorem onPixel_of_mem_paintWrites {config : OverlayConfig} {n : ℕ} {w h : UInt32}
    {frame : Option VideoFrame} {boxes : List BoundingBox} {p : ℕ × UInt32}
    (hp : p ∈ paintWrites config n w h frame boxes) : OnPixel w h p := by
  obtain ⟨box, -, hp⟩ := List.mem_flatMap.mp hp
  have hx2 : (pixelRect w h box).x2 ≤ w := min_le_end _ _
  have hy2 : (pixelRect w h box).y2 ≤ h := min_le_end _ _
  simp only [boxWrites] at hp
  split at hp
  · exact onPixel_of_mem_mosaicWrites hx2 hy2 hp
  · exact onPixel_of_mem_flatWrites hx2 hy2 hp

/-! ### The whole screen -/

def fullScreen : BoundingBox := { x := 0, y := 0, width := 1, height := 1 }

theorem truncToUInt32_natCast (a : UInt32) : truncToUInt32 (a.toNat : ℚ) = a := by
  rw [truncToUInt32, truncToInt]
  simp

theorem pixelRect_fullScreen (w h : UInt32) : pixelRect w h fullScreen = ⟨0, 0, w, h⟩ := by
  have hmin : ∀ a : UInt32, min a a = a := fun a => by
    rw [← UInt32.toNat_inj, toNat_min, Nat.min_self]
  have hzero : ∀ a : UInt32, min 0 a = 0 := fun a => by
    rw [← UInt32.toNat_inj, toNat_min, UInt32.toNat_zero, Nat.zero_min]
  have h0 : truncToUInt32 0 = 0 := truncToUInt32_natCast 0
  simp only [pixelRect, fullScreen, BoundingBox.left, BoundingBox.top, BoundingBox.right,
    BoundingBox.bottom, zero_mul, zero_add, one_mul, truncToUInt32_natCast, h0, hmin, hzero]

/-- The flat fill of the whole screen reaches every pixel. -/
theorem mem_paintWrites_fullScreen {config : OverlayConfig} {w h x y : UInt32}
    {frame : Option VideoFrame} (hframe : mosaicSource config frame = none) (hy : y < h)
    (hx : x < w) :
    (pixelIndex w y x, config.frostedColorArgb) ∈
      paintWrites config (2 ^ 32) w h frame [fullScreen] := by
  have hreach : ∀ {a b : UInt32}, a < b → a ∈ visits b 1 (2 ^ 32) 0 := fun {a b} hab =>
    mem_visits_one hab UInt32.zero_le (by rw [UInt32.toNat_zero, Nat.zero_add]; exact a.toNat_lt)
  refine List.mem_flatMap.mpr ⟨fullScreen, List.mem_singleton_self _, ?_⟩
  rw [boxWrites, hframe, pixelRect_fullScreen]
  exact List.mem_flatMap.mpr ⟨y, hreach hy, List.mem_map.mpr ⟨x, hreach hx, rfl⟩⟩

end Degoonification.Overlay
