import Degoonification.Bytes
import Mathlib.Algebra.Group.Nat.Defs

/-! `VideoFrame`: the captured picture, with the bytes behind its `data` pointer,
`none` for a null pointer, and `int`, which the code casts its numbers from and to. -/

namespace Degoonification

/-- A number as an `int`. Casts keep it modulo `2 ^ 32`. -/
def toInt32 (v : ℤ) : ℤ := v.bmod (2 ^ 32)

theorem toInt32_natCast {n : ℕ} (h : n < 2 ^ 31) : toInt32 n = n := by
  rw [toInt32, Int.bmod_eq_of_le] <;> omega

inductive PixelFormat where
  | rgba | bgra | rgbx | bgrx | rgb | unknown
  deriving DecidableEq

structure VideoFrame where
  width : ℕ := 0
  height : ℕ := 0
  stride : ℕ := 0
  format : PixelFormat := .bgra
  data : Option Bytes := none

namespace VideoFrame

def bytesPerPixel (frame : VideoFrame) : ℕ := if frame.format = .rgb then 3 else 4

/-- The offset of a pixel from `data`: `py * frame.stride` is 32-bit unsigned arithmetic,
`px * bpp` is `int` arithmetic. An overflow of the latter, which the language leaves
undefined, is read as wrapping. -/
def pixelOffset (frame : VideoFrame) (px py : ℤ) : ℤ :=
  (py.toNat * frame.stride % 2 ^ 32 : ℕ) + toInt32 (px * frame.bytesPerPixel)

/-- `data[i]`. Outside the data, where the language leaves a read undefined, it is 0. -/
def byteAt (frame : VideoFrame) (i : ℤ) : UInt8 :=
  if 0 ≤ i then (frame.data.getD []).getD i.toNat 0 else 0

/-- The fields are 32-bit numbers, and data comes with `stride * height` bytes and
rows that are long enough. -/
structure Valid (frame : VideoFrame) : Prop where
  width_lt : frame.width < 2 ^ 32
  height_lt : frame.height < 2 ^ 32
  stride_lt : frame.stride < 2 ^ 32
  row : ∀ d, frame.data = some d → frame.width * frame.bytesPerPixel ≤ frame.stride
  size : ∀ d, frame.data = some d → frame.stride * frame.height ≤ d.length

theorem three_le_bytesPerPixel (frame : VideoFrame) : 3 ≤ frame.bytesPerPixel := by
  rw [bytesPerPixel]
  split_ifs <;> omega

/-- Without overflow, the bytes are those of the pixel. -/
theorem pixelOffset_eq {frame : VideoFrame} {px : ℤ} (h0 : 0 ≤ px)
    (h : px.toNat * frame.bytesPerPixel < 2 ^ 31) (py : ℤ) : frame.pixelOffset px py =
      (py.toNat * frame.stride % 2 ^ 32 + px.toNat * frame.bytesPerPixel : ℕ) := by
  have hcast : px * frame.bytesPerPixel = (px.toNat * frame.bytesPerPixel : ℕ) := by
    rw [Int.natCast_mul, Int.toNat_of_nonneg h0]
  rw [pixelOffset, hcast, toInt32_natCast h, Int.natCast_add]

/-- What a frame has that passes the check for an empty one. -/
theorem not_empty_iff {frame : VideoFrame} :
    ¬(frame.data.isNone ∨ frame.width = 0 ∨ frame.height = 0) ↔
      frame.data.isSome ∧ 0 < frame.width ∧ 0 < frame.height := by
  rw [not_or, not_or, Bool.not_eq_true, Option.isNone_eq_false_iff, Nat.pos_iff_ne_zero,
    Nat.pos_iff_ne_zero]

/-- Where rows are long enough, the bytes of a pixel lie below `stride * height`. -/
theorem pixel_end_le {frame : VideoFrame} {x y : ℕ}
    (hrow : frame.width * frame.bytesPerPixel ≤ frame.stride) (hx : x < frame.width)
    (hy : y < frame.height) :
    y * frame.stride + x * frame.bytesPerPixel + 3 ≤ frame.stride * frame.height := by
  have hbpp := frame.three_le_bytesPerPixel
  have hpixel : x * frame.bytesPerPixel + frame.bytesPerPixel ≤
      frame.width * frame.bytesPerPixel := by
    rw [← Nat.succ_mul]
    exact Nat.mul_le_mul_right _ hx
  have hrows : y * frame.stride + frame.stride ≤ frame.stride * frame.height := by
    rw [← Nat.succ_mul, Nat.mul_comm]
    exact Nat.mul_le_mul_left _ hy
  omega

end VideoFrame

end Degoonification
