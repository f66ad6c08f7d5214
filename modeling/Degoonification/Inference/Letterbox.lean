import Degoonification.Overlay.Painting

/-! `ImagePreprocessor` over exact rational arithmetic: a frame is scaled into the
target with its aspect ratio kept, centred, and written as three planes of numbers
between 0 and 1 on a gray ground. -/

namespace Degoonification

open Overlay (truncToUInt32)

structure LetterboxInfo where
  scale : ℚ := 1
  padX : ℤ := 0
  padY : ℤ := 0
  scaledW : ℤ := 640
  scaledH : ℤ := 640
  origW : ℕ := 0
  origH : ℕ := 0

structure ImagePreprocessor where
  targetWidth : ℕ := 640
  targetHeight : ℕ := 640

/-- `static_cast<int>(std::round(q))`: halves go away from zero. -/
def roundToInt (q : ℚ) : ℤ := if q < 0 then ⌈q - 1 / 2⌉ else ⌊q + 1 / 2⌋

namespace ImagePreprocessor

def scale (p : ImagePreprocessor) (frame : VideoFrame) : ℚ :=
  min (p.targetWidth / frame.width) (p.targetHeight / frame.height)

/-- `scaled_w` and `scaled_h`. -/
def scaledSize (scale : ℚ) (size target : ℕ) : ℤ := clamp (roundToInt (size * scale)) 1 target

/-- `pad_x` and `pad_y`. -/
def pad (target : ℕ) (scaled : ℤ) : ℤ := ((target : ℤ) - scaled).tdiv 2

/-- The letterbox of a frame that has pixels. -/
def letterbox (p : ImagePreprocessor) (frame : VideoFrame) : LetterboxInfo :=
  let scaledW := scaledSize (p.scale frame) frame.width p.targetWidth
  let scaledH := scaledSize (p.scale frame) frame.height p.targetHeight
  { scale := p.scale frame
    padX := pad p.targetWidth scaledW
    padY := pad p.targetHeight scaledH
    scaledW, scaledH
    origW := frame.width
    origH := frame.height }

/-- `src_x` and `src_y`: the column or row of the frame sampled for index `i` of the
scaled area. -/
def sourceIndex (scale : ℚ) (size i : ℕ) : UInt32 :=
  min (truncToUInt32 (i * (1 / scale))) (UInt32.ofNat size - 1)

/-- The offset of a sampled pixel, the sum of two 32-bit products. -/
def sourceOffset (frame : VideoFrame) (srcX srcY : UInt32) : ℕ :=
  let bpp := UInt32.ofNat frame.bytesPerPixel
  let stride := if 0 < frame.stride then UInt32.ofNat frame.stride
    else UInt32.ofNat frame.width * bpp
  (srcY * stride).toNat + (srcX * bpp).toNat

/-- The body of the inner loop: one number for each plane. -/
def pixelWrites (p : ImagePreprocessor) (frame : VideoFrame) (info : LetterboxInfo) (x y : ℕ) :
    List (ℕ × ℚ) :=
  let data := frame.data.getD []
  let channelSize := p.targetWidth * p.targetHeight
  let srcX := sourceIndex info.scale frame.width x
  let srcY := sourceIndex info.scale frame.height y
  let px := sourceOffset frame srcX srcY
  let c : ℕ → ℚ := fun i => (data.getD (px + i) 0).toNat * (1 / 255)
  let idx := (info.padY + y).toNat * p.targetWidth + (info.padX + x).toNat
  if frame.format = .bgra ∨ frame.format = .bgrx then
    [(idx, c 2), (channelSize + idx, c 1), (channelSize + channelSize + idx, c 0)]
  else [(idx, c 0), (channelSize + idx, c 1), (channelSize + channelSize + idx, c 2)]

def writes (p : ImagePreprocessor) (frame : VideoFrame) (info : LetterboxInfo) : List (ℕ × ℚ) :=
  (List.range info.scaledH.toNat).flatMap fun y =>
    (List.range info.scaledW.toNat).flatMap fun x => p.pixelWrites frame info x y

/-- The letterbox, and the values of `out_planar_rgb`. -/
def preprocess (p : ImagePreprocessor) (frame : VideoFrame) : LetterboxInfo × (ℕ → ℚ) :=
  if frame.data.isNone ∨ frame.width = 0 ∨ frame.height = 0 then
    ({ origW := frame.width, origH := frame.height }, fun _ => 447 / 1000)
  else
    let info := p.letterbox frame
    (info, (p.writes frame info).foldl (fun out w => Function.update out w.1 w.2) fun _ =>
      447 / 1000)

end ImagePreprocessor

end Degoonification
