import Degoonification.Capture.Screencopy
import Mathlib.Tactic.Linarith
import Mathlib.Tactic.Ring

/-! Frames as binary PPM. The tokenizer finds the byte behind the header whatever the
pixels look like, since a number ends at the first blank and only one blank is taken
behind `maxval`; the read loop fills the buffer in pieces of any size and stops short
only at the end of the file. So a whole file comes back as the frame it encodes, from
any earlier state, and a cut one leaves the frame alone. -/

namespace Degoonification

open Decimal (digits isDigit)

/-! ### Numbers -/

variable {n w h : ℕ} {c e : UInt8} {rest b₁ b₂ b₃ : Bytes}

theorem exists_digits_eq_cons (n : ℕ) :
    ∃ d ds, digits n = d :: ds ∧ 48 ≤ d.toNat ∧ d.toNat ≤ 57 := by
  obtain ⟨d, ds, hds⟩ := List.exists_cons_of_ne_nil (Decimal.digits_ne_nil n)
  have hd : isDigit d = true := Decimal.isDigit_of_mem_digits (hds ▸ List.mem_cons_self)
  simp only [isDigit, UInt8.le_iff_toNat_le, UInt8.reduceToNat, Bool.and_eq_true,
    decide_eq_true_eq] at hd
  exact ⟨d, ds, hds, hd.1, hd.2⟩

/-- A skipping loop stops at a number. -/
theorem dropWhile_digits {p : UInt8 → Bool} (hp : ∀ d : UInt8, 48 ≤ d.toNat → d.toNat ≤ 57 → ¬ p d)
    (n : ℕ) (rest : Bytes) : (digits n ++ rest).dropWhile p = digits n ++ rest := by
  obtain ⟨d, ds, hds, hlo, hhi⟩ := exists_digits_eq_cons n
  rw [hds, List.cons_append]
  exact List.dropWhile_cons_of_neg (hp d hlo hhi)

theorem strtol_digits (hn : n < 2 ^ 63) (hc : isDigit c = false) :
    strtol (digits n ++ c :: rest) = ((n : ℤ), c :: rest) := by
  obtain ⟨d, ds, hds, hlo, hhi⟩ := exists_digits_eq_cons n
  have hspace : (digits n ++ c :: rest).dropWhile isspace = digits n ++ c :: rest :=
    dropWhile_digits (fun d hlo hhi h => by rw [isspace_iff] at h; omega) n _
  have hhead : (digits n ++ c :: rest).head? = some d := by rw [hds]; rfl
  have hne : ∀ k : UInt8, k.toNat < 48 → d ≠ k := fun k hk heq => by
    rw [heq] at hlo
    omega
  have hsign : isSign d = false := by
    rw [isSign, beq_eq_false_iff_ne.mpr (hne 45 (by decide)),
      beq_eq_false_iff_ne.mpr (hne 43 (by decide))]
    rfl
  have htake : (digits n ++ c :: rest).takeWhile isDigit = digits n := by
    rw [List.takeWhile_append_of_pos fun _ => Decimal.isDigit_of_mem_digits,
      List.takeWhile_cons_of_neg (Bool.eq_false_iff.mp hc), List.append_nil]
  have hplus : ¬ (some d = some (45 : UInt8)) := fun h =>
    hne 45 (by decide) (Option.some.inj h)
  rw [strtol, hspace, hhead, Option.any_some, hsign, if_neg Bool.false_ne_true, htake,
    if_neg (Decimal.digits_ne_nil n), decide_eq_false hplus, List.drop_left, longValue,
    if_neg Bool.false_ne_true, Decimal.value_digits]
  rw [min_eq_right (by omega)]

theorem not_isDigit_of_isPpmBlank (h : isPpmBlank c) : isDigit c = false := by
  simp only [isPpmBlank, Bool.or_eq_true, beq_iff_eq] at h
  rcases h with ((rfl | rfl) | rfl) | rfl <;> decide

/-- The blanks a header may have between its tokens. -/
def IsPpmGap (b : Bytes) : Prop := b ≠ [] ∧ ∀ c ∈ b, isPpmBlank c

/-- Behind blanks, a number is read up to the next gap. -/
theorem strtol_gap {gap : Bytes} (hn : n < 2 ^ 63) (hb : ∀ c ∈ b₁, isPpmBlank c)
    (hgap : IsPpmGap gap) :
    strtol ((b₁ ++ (digits n ++ (gap ++ rest))).dropWhile isPpmBlank) =
      ((n : ℤ), gap ++ rest) := by
  have hskip : ∀ d : UInt8, 48 ≤ d.toNat → d.toNat ≤ 57 → ¬ isPpmBlank d := fun d hlo hhi h => by
    have hdigit : isDigit d = true := by
      simp only [isDigit, UInt8.le_iff_toNat_le, UInt8.reduceToNat, Bool.and_eq_true,
        decide_eq_true_eq]
      exact ⟨hlo, hhi⟩
    exact Bool.false_ne_true ((not_isDigit_of_isPpmBlank h).symm.trans hdigit)
  obtain ⟨c, gap, rfl⟩ := List.exists_cons_of_ne_nil hgap.1
  have hc := not_isDigit_of_isPpmBlank (hgap.2 c List.mem_cons_self)
  rw [List.dropWhile_append_of_pos hb, dropWhile_digits hskip, List.cons_append,
    strtol_digits hn hc]

/-! ### The read loop -/

namespace ScreencopyCapture

theorem readLoop_spec (chunk : ℕ → ℕ) (rest : Bytes) (dataSize : ℕ) (buffer : Bytes)
    (totalRead : ℕ) (hbuffer : dataSize ≤ buffer.length)
    (htotal : totalRead ≤ min dataSize rest.length)
    (hread : buffer.take totalRead = rest.take totalRead) :
    (readLoop chunk rest dataSize buffer totalRead).2 = min dataSize rest.length ∧
      (readLoop chunk rest dataSize buffer totalRead).1.take (min dataSize rest.length) =
        rest.take (min dataSize rest.length) := by
  fun_induction readLoop chunk rest dataSize buffer totalRead with
  | case1 buffer totalRead hlt bytes hnil =>
    -- the file is at its end
    have hend : rest.length ≤ totalRead := by
      have hlength := congrArg List.length hnil
      simp only [bytes, List.length_take, List.length_drop, List.length_nil] at hlength
      omega
    have heq : totalRead = min dataSize rest.length := by omega
    exact ⟨heq, heq ▸ hread⟩
  | case2 buffer totalRead hlt bytes hne ih =>
    have hlength : bytes.length ≤ min dataSize rest.length - totalRead := by
      simp only [bytes, List.length_take, List.length_drop]
      omega
    have hbytes : bytes = (rest.drop totalRead).take bytes.length :=
      List.prefix_iff_eq_take.mp ((List.take_prefix _ _).trans (List.take_prefix _ _))
    have htake : (buffer.take totalRead ++ bytes).length = totalRead + bytes.length := by
      rw [List.length_append, List.length_take_of_le (by omega)]
    refine ih ?_ (by omega) ?_
    · rw [List.length_append, htake, List.length_drop]
      omega
    · rw [List.take_left' htake, hread, List.take_add, ← hbytes]
  | case3 buffer totalRead hge =>
    have heq : totalRead = min dataSize rest.length := by omega
    exact ⟨heq, heq ▸ hread⟩

end ScreencopyCapture

/-! ### Files -/

/-- `P6`, blanks, the width, blanks, the height, blanks, `255` and one more blank. -/
def ppmHeader (b₁ b₂ b₃ : Bytes) (e : UInt8) (w h : ℕ) : Bytes :=
  [80, 54] ++ (b₁ ++ (digits w ++ (b₂ ++ (digits h ++ (b₃ ++ (digits 255 ++ [e]))))))

/-- The tokenizer stops at the first byte behind the header. -/
theorem ppmSize_header (h₁ : IsPpmGap b₁) (h₂ : IsPpmGap b₂) (h₃ : IsPpmGap b₃)
    (he : e ∈ ([32, 10, 13] : List UInt8)) (hw : w < 2 ^ 31) (hh : h < 2 ^ 31) (text : Bytes) :
    ppmSize ((ppmHeader b₁ b₂ b₃ e w h ++ text).drop 2) = ((w : ℤ), (h : ℤ), text) := by
  have hdrop : (ppmHeader b₁ b₂ b₃ e w h ++ text).drop 2 =
      b₁ ++ (digits w ++ (b₂ ++ (digits h ++ (b₃ ++ (digits 255 ++ ([e] ++ text)))))) := by
    simp [ppmHeader]
  have hends : (e == 32 || e == 10 || e == 13) = true := by
    simp only [List.mem_cons, List.not_mem_nil, or_false] at he
    rcases he with rfl | rfl | rfl <;> rfl
  have hlast : IsPpmGap [e] := by
    simp only [List.mem_cons, List.not_mem_nil, or_false] at he
    refine ⟨List.cons_ne_nil _ _, List.forall_mem_singleton.mpr ?_⟩
    rcases he with rfl | rfl | rfl <;> rfl
  simp only [hdrop, ppmSize, strtol_gap (show w < 2 ^ 63 by omega) h₁.2 h₂,
    strtol_gap (show h < 2 ^ 63 by omega) h₂.2 h₃,
    strtol_gap (show 255 < 2 ^ 63 by omega) h₃.2 hlast, toInt32_natCast hw, toInt32_natCast hh]
  rw [List.singleton_append, List.head?_cons, Option.any_some, hends, if_pos rfl, List.tail_cons]

namespace ScreencopyCapture

variable {c : ScreencopyCapture} {run : Surroundings} {out : OutFrame}

/-- The buffer has room for the frame, whatever frames it held before. -/
theorem le_length_grown (c : ScreencopyCapture) (run : Surroundings) (dataSize : ℕ) :
    dataSize ≤ (c.grown run dataSize).buffer.length := by
  rw [grown]
  split_ifs with h
  · rw [List.length_append, List.length_replicate]
    omega
  · omega

/-- A number below the modulus is not changed by an unsigned conversion. -/
theorem toNat_emod {k : ℕ} (hn : n < 2 ^ k) : ((n : ℤ) % 2 ^ k).toNat = n := by
  have hlt : (n : ℤ) < 2 ^ k := by exact_mod_cast hn
  rw [Int.emod_eq_of_lt (Int.natCast_nonneg n) hlt, Int.toNat_natCast]

theorem dataSize_eq (hw : w < 2 ^ 31) (hh : h < 2 ^ 31) :
    ((w : ℤ) % 2 ^ 64 * ((h : ℤ) % 2 ^ 64) * 3 % 2 ^ 64).toNat = 3 * w * h := by
  have hproduct : w * h ≤ 2 ^ 31 * 2 ^ 31 := Nat.mul_le_mul hw.le hh.le
  have hcast : (w : ℤ) * h * 3 = (3 * w * h : ℕ) := by
    push_cast
    ring
  have hw' : (w : ℤ) % 2 ^ 64 = w := Int.emod_eq_of_lt (by omega) (by omega)
  have hh' : (h : ℤ) % 2 ^ 64 = h := Int.emod_eq_of_lt (by omega) (by omega)
  rw [hw', hh', hcast]
  refine toNat_emod ?_
  rw [Nat.mul_assoc]
  omega

/-- What `capture_frame` does with a file whose header it takes for `w` by `h`. -/
theorem captureFrame_of_ppmSize {header data : Bytes} (h0 : header[0]? = some 80)
    (h1 : header[1]? = some 54) (hfour : 4 ≤ header.length) (hlen : header.length ≤ 127)
    (hsize : ∀ text, ppmSize ((header ++ text).drop 2) = ((w : ℤ), (h : ℤ), text))
    (hw : 3 * w < 2 ^ 31) (hh : h < 2 ^ 31) (hfile : run.file = some (header ++ data)) :
    c.captureFrame run out =
      let c := c.grown run (3 * w * h)
      let r := readLoop run.chunk data (3 * w * h) c.buffer 0
      let c := { c with buffer := r.1 }
      if r.2 ≠ 3 * w * h then (false, c, out)
      else
        (true, { c with lastWidth := w, lastHeight := h },
          { out with
            width := w
            height := h
            stride := 3 * w
            format := .rgb
            data := some c.address
            dataSize := 3 * w * h
            dmabufFd := -1 }) := by
  have htake : (header ++ data).take 127 = header ++ data.take (127 - header.length) := by
    rw [List.take_append, List.take_of_length_le hlen]
  generalize data.take (127 - header.length) = text at htake
  have hgood : ¬ ((header ++ text).length < 4 ∨ (header ++ text)[0]? ≠ some 80 ∨
      (header ++ text)[1]? ≠ some 54) := by
    rw [List.getElem?_append_left (by omega), List.getElem?_append_left (by omega), h0, h1,
      List.length_append]
    rintro (hshort | hother | hother)
    · omega
    · exact hother rfl
    · exact hother rfl
  have hback : (header ++ (text ++ [0])).length - (text ++ [0]).length = header.length := by
    rw [List.length_append, Nat.add_sub_cancel]
  have hwidth : ((w : ℤ) % 2 ^ 32).toNat = w := toNat_emod (by omega)
  have hheight : ((h : ℤ) % 2 ^ 32).toNat = h := toNat_emod (by omega)
  have hstride : ((w : ℤ) * 3 % 2 ^ 32).toNat = 3 * w := by
    rw [show (w : ℤ) * 3 = (3 * w : ℕ) by push_cast; ring]
    exact toNat_emod (by omega)
  have hdata := dataSize_eq (show w < 2 ^ 31 by omega) hh
  simp only [captureFrame, hfile, htake, if_neg hgood, List.append_assoc, hsize, hback,
    List.drop_left, hdata, hwidth, hheight, hstride]

/-- The call returned true, and the frame is the encoded one. -/
structure Decoded (w h : ℕ) (data : Bytes) (out : OutFrame)
    (r : Bool × ScreencopyCapture × OutFrame) : Prop where
  result : r.1 = true
  frame : r.2.2 =
    { out with
      width := w
      height := h
      stride := 3 * w
      format := .rgb
      data := some r.2.1.address
      dataSize := 3 * w * h
      dmabufFd := -1 }
  pixels : r.2.1.pixels r.2.2 = some data

/-- The call returned false and left the frame alone. -/
structure Refused (out : OutFrame) (r : Bool × ScreencopyCapture × OutFrame) : Prop where
  result : r.1 = false
  frame : r.2.2 = out

/-- Behind a well-formed header, the length of what follows decides. -/
theorem captureFrame_header (h₁ : IsPpmGap b₁) (h₂ : IsPpmGap b₂) (h₃ : IsPpmGap b₃)
    (he : e ∈ ([32, 10, 13] : List UInt8)) (hw : 3 * w < 2 ^ 31) (hh : h < 2 ^ 31)
    (hlen : (ppmHeader b₁ b₂ b₃ e w h).length ≤ 127) {data : Bytes}
    (hfile : run.file = some (ppmHeader b₁ b₂ b₃ e w h ++ data)) :
    (data.length = 3 * w * h → Decoded w h data out (c.captureFrame run out)) ∧
      (data.length < 3 * w * h → Refused out (c.captureFrame run out)) := by
  have hdigits := List.length_pos_of_ne_nil (Decimal.digits_ne_nil w)
  have hgap := List.length_pos_of_ne_nil h₁.1
  have hfour : 4 ≤ (ppmHeader b₁ b₂ b₃ e w h).length := by
    simp only [ppmHeader, List.length_append, List.length_cons]
    omega
  rw [captureFrame_of_ppmSize rfl rfl hfour hlen
    (ppmSize_header h₁ h₂ h₃ he (by omega) hh) hw hh hfile]
  obtain ⟨htotal, hbuffer⟩ := readLoop_spec run.chunk data (3 * w * h)
    (c.grown run (3 * w * h)).buffer 0 (le_length_grown c run _) (Nat.zero_le _) rfl
  dsimp only
  constructor
  · intro hfull
    rw [if_neg (by omega)]
    refine ⟨rfl, rfl, ?_⟩
    rw [hfull, Nat.min_self, List.take_of_length_le hfull.le] at hbuffer
    rw [pixels, if_pos rfl, hbuffer]
  · intro hshort
    rw [if_pos (by omega)]
    exact ⟨rfl, rfl⟩

/-- A file that encodes a frame is decoded to that frame, from any earlier state, and a
file cut anywhere in its pixels is refused with `out_frame` left as it is. -/
theorem captureFrame_ppm (c : ScreencopyCapture) (out : OutFrame) (chunk : ℕ → ℕ) (address : ℕ)
    (h₁ : IsPpmGap b₁) (h₂ : IsPpmGap b₂) (h₃ : IsPpmGap b₃)
    (he : e ∈ ([32, 10, 13] : List UInt8)) (hw : 3 * w < 2 ^ 31) (hh : h < 2 ^ 31)
    (hlen : (ppmHeader b₁ b₂ b₃ e w h).length ≤ 127) {data : Bytes}
    (hdata : data.length = 3 * w * h) :
    Decoded w h data out
        (c.captureFrame ⟨some (ppmHeader b₁ b₂ b₃ e w h ++ data), chunk, address⟩ out) ∧
      ∀ m < data.length, Refused out
        (c.captureFrame ⟨some (ppmHeader b₁ b₂ b₃ e w h ++ data.take m), chunk, address⟩ out) := by
  refine ⟨(captureFrame_header h₁ h₂ h₃ he hw hh hlen rfl).1 hdata, fun m hm => ?_⟩
  refine (captureFrame_header h₁ h₂ h₃ he hw hh hlen rfl).2 ?_
  rw [List.length_take]
  omega

/-- The header of a frame of two pixels by one, ended by a line feed. -/
def twoByOne : Bytes := ppmHeader [10] [32] [10] 10 2 1

/-- The pixels open with digits and a NUL, the buffer held a larger frame, and the file
is read in pieces of two bytes. -/
theorem captureFrame_ppm_two_by_one :
    Decoded 2 1 [49, 50, 32, 0, 255, 10] {}
        (captureFrame { buffer := List.replicate 12 7 }
          ⟨some (twoByOne ++ [49, 50, 32, 0, 255, 10]), fun _ => 1, 64⟩ {}) ∧
      ∀ m < [49, 50, 32, 0, 255, 10].length, Refused {}
        (captureFrame { buffer := List.replicate 12 7 }
          ⟨some (twoByOne ++ [49, 50, 32, 0, 255, 10].take m), fun _ => 1, 64⟩ {}) :=
  captureFrame_ppm _ _ _ _ ⟨List.cons_ne_nil _ _, List.forall_mem_singleton.mpr rfl⟩
    ⟨List.cons_ne_nil _ _, List.forall_mem_singleton.mpr rfl⟩
    ⟨List.cons_ne_nil _ _, List.forall_mem_singleton.mpr rfl⟩
    (by decide) (by decide) (by decide) (by decide) rfl

end ScreencopyCapture

end Degoonification
