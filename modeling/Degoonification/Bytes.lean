import Mathlib.Data.List.DropRight
import Mathlib.Tactic.Common

/-! Byte strings as the C++ code handles them, and the character functions of
the C locale. The program never calls `setlocale`, so `std::tolower` maps only
`A`..`Z` and `std::isspace` accepts only the six ASCII blanks. -/

namespace Degoonification

/-- A `std::string` or `std::string_view`: any bytes, NUL included. -/
abbrev Bytes := List UInt8

/-- The byte of `'.'`. -/
abbrev dot : UInt8 := 46

def tolower (c : UInt8) : UInt8 := if 65 ≤ c ∧ c ≤ 90 then c + 32 else c

def isspace (c : UInt8) : Bool := c == 32 || (9 ≤ c && c ≤ 13)

/-- Every byte through `std::tolower`. -/
def lower (s : Bytes) : Bytes := s.map tolower

/-- `(static_cast<uint16_t>(hi) << 8) | lo`. -/
def be16 (hi lo : UInt8) : UInt16 := (hi.toUInt16 <<< 8) ||| lo.toUInt16

theorem tolower_toNat (c : UInt8) :
    (tolower c).toNat = if 65 ≤ c.toNat ∧ c.toNat ≤ 90 then c.toNat + 32 else c.toNat := by
  have hc := c.toNat_lt
  simp only [tolower, UInt8.le_iff_toNat_le]
  split_ifs with h h' h'
  · simp only [UInt8.toNat_add, UInt8.reduceToNat]
    omega
  · exact absurd h h'
  · exact absurd h' h
  · rfl

theorem tolower_tolower (c : UInt8) : tolower (tolower c) = tolower c := by
  apply UInt8.toNat_inj.mp
  rw [tolower_toNat (tolower c), tolower_toNat c]
  split_ifs <;> omega

theorem tolower_eq_dot {c : UInt8} : tolower c = dot ↔ c = dot := by
  have hd : dot.toNat = 46 := rfl
  rw [← UInt8.toNat_inj, ← UInt8.toNat_inj, tolower_toNat, hd]
  split_ifs <;> omega

theorem isspace_iff (c : UInt8) : isspace c ↔ c.toNat = 32 ∨ (9 ≤ c.toNat ∧ c.toNat ≤ 13) := by
  simp [isspace, UInt8.le_iff_toNat_le, ← UInt8.toNat_inj]

@[simp] theorem isspace_tolower (c : UInt8) : isspace (tolower c) = isspace c := by
  rw [Bool.eq_iff_iff, isspace_iff, isspace_iff, tolower_toNat]
  split_ifs <;> omega

@[simp] theorem lower_nil : lower [] = [] := rfl

@[simp] theorem length_lower (s : Bytes) : (lower s).length = s.length := List.length_map ..

@[simp] theorem lower_eq_nil {s : Bytes} : lower s = [] ↔ s = [] := List.map_eq_nil_iff

theorem lower_lower (s : Bytes) : lower (lower s) = lower s := by
  simp [lower, tolower_tolower]

theorem dot_mem_lower {s : Bytes} : dot ∈ lower s ↔ dot ∈ s := by
  simp [lower, tolower_eq_dot]

theorem be16_toNat (hi lo : UInt8) : (be16 hi lo).toNat = hi.toNat * 256 + lo.toNat := by
  have hh := hi.toNat_lt
  have hl := lo.toNat_lt
  have h8 : hi.toNat <<< 8 = hi.toNat * 256 := by rw [Nat.shiftLeft_eq]
  have hor := Nat.shiftLeft_add_eq_or_of_lt (i := 8) (b := lo.toNat) hl hi.toNat
  simp only [be16, UInt16.toNat_or, UInt16.toNat_shiftLeft, UInt8.toNat_toUInt16,
    UInt16.reduceToNat, Nat.reduceMod]
  rw [Nat.mod_eq_of_lt (by omega), ← hor, h8]

/-- The high and low byte of a word give it back. -/
theorem be16_bytes (w : UInt16) : be16 (w >>> 8).toUInt8 (w &&& 0xFF).toUInt8 = w := by
  have hw := w.toNat_lt
  apply UInt16.toNat_inj.mp
  have hlo : w.toNat &&& 255 = w.toNat % 256 := Nat.and_two_pow_sub_one_eq_mod w.toNat 8
  simp only [be16_toNat, UInt16.toNat_toUInt8, UInt16.toNat_shiftRight, UInt16.toNat_and,
    UInt16.reduceToNat, Nat.reduceMod, Nat.shiftRight_eq_div_pow, Nat.reducePow, hlo]
  omega

end Degoonification
