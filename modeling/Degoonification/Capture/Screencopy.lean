import Degoonification.Capture.VideoFrame
import Degoonification.Library.Decimal
import Mathlib.Algebra.Order.Ring.Int

/-! `ScreencopyCapture::capture_frame` on the file that `grim` leaves. The header is
looked for in the first 127 bytes, up to a NUL like any C string; a pointer into it is
the text from there on. The buffer of the pixels is kept between calls and only grows,
and `out_frame` points into it. -/

namespace Degoonification

/-! ### The header -/

/-- The characters that `capture_frame` skips in front of a number. -/
def isPpmBlank (c : UInt8) : Bool := c == 32 || c == 9 || c == 10 || c == 13

def isSign (c : UInt8) : Bool := c == 45 || c == 43

/-- The number a text opens with, in the range of `long`. -/
def longValue (negative : Bool) (digits : Bytes) : ℤ :=
  if negative then max (-2 ^ 63) (-Decimal.value digits)
  else min (2 ^ 63 - 1) (Decimal.value digits)

/-- `std::strtol(ptr, &ptr, 10)`: the value and the new `ptr`, the old one where there
is no number. -/
def strtol (s : Bytes) : ℤ × Bytes :=
  let t := s.dropWhile isspace
  let u := if t.head?.any isSign then t.tail else t
  let digits := u.takeWhile Decimal.isDigit
  if digits = [] then (0, s) else (longValue (t.head? = some 45) digits, u.drop digits.length)

/-- `w`, `h` and the text behind the header, from the text behind `P6`. -/
def ppmSize (s : Bytes) : ℤ × ℤ × Bytes :=
  let w := strtol (s.dropWhile isPpmBlank)
  let h := strtol (w.2.dropWhile isPpmBlank)
  let maxval := strtol (h.2.dropWhile isPpmBlank)
  let ends := maxval.2.head?.any fun c => c == 32 || c == 10 || c == 13
  (toInt32 w.1, toInt32 h.1, if ends then maxval.2.tail else maxval.2)

/-! ### The capture -/

/-- `VideoFrame` with its pointer: an address, `none` for a null pointer. -/
structure OutFrame where
  width : ℕ := 0
  height : ℕ := 0
  stride : ℕ := 0
  format : PixelFormat := .bgra
  timestampUs : ℕ := 0
  dmabufFd : ℤ := -1
  data : Option ℕ := none
  dataSize : ℕ := 0

/-- `buffer_` with the address of its first byte, and the size of the last frame. -/
structure ScreencopyCapture where
  buffer : Bytes := []
  address : ℕ := 0
  lastWidth : ℕ := 0
  lastHeight : ℕ := 0

/-- What a call meets: the file, `none` when `grim` or `open` fails; how many bytes
more than one a `read` at each offset delivers at most; and where `resize` puts the
buffer. -/
structure Surroundings where
  file : Option Bytes
  chunk : ℕ → ℕ
  address : ℕ

namespace ScreencopyCapture

/-- `buffer_.resize(data_size)` when the buffer is smaller. -/
def grown (c : ScreencopyCapture) (run : Surroundings) (dataSize : ℕ) : ScreencopyCapture :=
  if c.buffer.length < dataSize then
    { c with
      buffer := c.buffer ++ List.replicate (dataSize - c.buffer.length) 0
      address := run.address }
  else c

/-- The `read` loop over what is left of the file: the buffer and `total_read`. -/
def readLoop (chunk : ℕ → ℕ) (rest : Bytes) (dataSize : ℕ) (buffer : Bytes) (totalRead : ℕ) :
    Bytes × ℕ :=
  if totalRead < dataSize then
    let bytes := ((rest.drop totalRead).take (dataSize - totalRead)).take (chunk totalRead + 1)
    if bytes = [] then (buffer, totalRead)
    else
      readLoop chunk rest dataSize
        (buffer.take totalRead ++ bytes ++ buffer.drop (totalRead + bytes.length))
        (totalRead + bytes.length)
  else (buffer, totalRead)
termination_by dataSize - totalRead
decreasing_by
  have hpos := List.length_pos_of_ne_nil ‹_›
  exact Nat.sub_lt_sub_left ‹_› (Nat.lt_add_of_pos_right hpos)

/-- `capture_frame`: the result, the capture and `out_frame` afterwards. -/
def captureFrame (c : ScreencopyCapture) (run : Surroundings) (out : OutFrame) :
    Bool × ScreencopyCapture × OutFrame :=
  match run.file with
  | none => (false, c, out)
  | some file =>
    let header := file.take 127
    if header.length < 4 ∨ header[0]? ≠ some 80 ∨ header[1]? ≠ some 54 then (false, c, out)
    else
      let text := header ++ [0]
      let (w, h, rest) := ppmSize (text.drop 2)
      let headerLen := text.length - rest.length
      let dataSize := ((w % 2 ^ 64) * (h % 2 ^ 64) * 3 % 2 ^ 64).toNat
      let c := c.grown run dataSize
      let (buffer, totalRead) := readLoop run.chunk (file.drop headerLen) dataSize c.buffer 0
      let c := { c with buffer }
      if totalRead ≠ dataSize then (false, c, out)
      else
        let width := (w % 2 ^ 32).toNat
        let height := (h % 2 ^ 32).toNat
        (true, { c with lastWidth := width, lastHeight := height },
          { out with
            width, height
            stride := (w * 3 % 2 ^ 32).toNat
            format := .rgb
            data := some c.address
            dataSize
            dmabufFd := -1 })

/-- The bytes behind the pointer of a frame, if it points into the buffer. -/
def pixels (c : ScreencopyCapture) (frame : OutFrame) : Option Bytes :=
  if frame.data = some c.address then some (c.buffer.take frame.dataSize) else none

end ScreencopyCapture

end Degoonification
