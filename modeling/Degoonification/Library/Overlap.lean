import Mathlib.Algebra.Order.Field.Basic
import Mathlib.Order.Interval.Set.Basic
import Mathlib.Tactic.Linarith

/-! How much two things have in common. The common part of two intervals is no longer than
either, has a length exactly where their interiors meet, and is a whole interval exactly
where that interval lies in the other. The share of a common part in the union of two
sizes is a similarity: symmetric, between 0 and 1, and 1 only where the common part is
all of both. -/

namespace Overlap

variable {K : Type*} [Field K] [LinearOrder K]

/-! ### Intervals -/

/-- The length of the common part of the intervals from `a` to `b` and from `c` to `d`. -/
def common (a b c d : K) : K := max 0 (min b d - max a c)

variable {a b c d : K}

theorem common_comm (a b c d : K) : common a b c d = common c d a b := by
  rw [common, common, min_comm, max_comm a c]

theorem common_nonneg (a b c d : K) : 0 ≤ common a b c d := le_max_left _ _

variable [IsStrictOrderedRing K]

theorem common_le_left (h : a ≤ b) : common a b c d ≤ b - a :=
  max_le (sub_nonneg.mpr h) (sub_le_sub (min_le_left _ _) (le_max_left _ _))

/-- A common part with a length is a common part of the interiors. -/
theorem common_pos_iff : 0 < common a b c d ↔ (Set.Ioo a b ∩ Set.Ioo c d).Nonempty := by
  rw [common, lt_max_iff, sub_pos, or_iff_right (lt_irrefl 0), Set.Ioo_inter_Ioo, Set.nonempty_Ioo]

/-- The common part is all of an interval exactly where that interval lies in the other. -/
theorem common_eq_left_iff (h : a < b) : common a b c d = b - a ↔ c ≤ a ∧ b ≤ d := by
  constructor
  · intro heq
    have hpos : 0 < b - a := sub_pos.mpr h
    have hparts : min b d - max a c = b - a := by
      rcases max_choice 0 (min b d - max a c) with hmax | hmax
      · exact absurd (hmax.symm.trans heq) hpos.ne
      · exact hmax.symm.trans heq
    have hmin := min_le_left b d
    have hmax := le_max_left a c
    exact ⟨max_eq_left_iff.mp (by linarith), min_eq_left_iff.mp (by linarith)⟩
  · rintro ⟨hc, hd⟩
    rw [common, min_eq_left hd, max_eq_left hc, max_eq_right (sub_nonneg.mpr h.le)]

/-! ### Sizes -/

/-- The share of `i` in the union of two sizes with `i` in common, 0 without a union. -/
def similarity (i m n : K) : K := if m + n - i ≤ 0 then 0 else i / (m + n - i)

variable {i m n : K}

omit [IsStrictOrderedRing K] in
theorem similarity_comm (i m n : K) : similarity i m n = similarity i n m := by
  rw [similarity, similarity, add_comm]

omit [IsStrictOrderedRing K] in
theorem similarity_zero (m n : K) : similarity 0 m n = 0 := by
  rw [similarity, zero_div, ite_self]

theorem similarity_nonneg (hi : 0 ≤ i) : 0 ≤ similarity i m n := by
  rw [similarity]
  split_ifs with hunion
  · exact le_rfl
  · exact div_nonneg hi (not_le.mp hunion).le

theorem similarity_le_one (hm : i ≤ m) (hn : i ≤ n) : similarity i m n ≤ 1 := by
  rw [similarity]
  split_ifs with hunion
  · exact zero_le_one
  · rw [div_le_one (not_le.mp hunion)]
    linarith

/-- Only a common part that is all of both sizes has similarity 1. -/
theorem similarity_eq_one_iff (hpos : 0 < m) (hm : i ≤ m) (hn : i ≤ n) :
    similarity i m n = 1 ↔ i = m ∧ i = n := by
  rw [similarity]
  split_ifs with hunion
  · exact iff_of_false zero_ne_one fun h => by linarith [h.1, h.2]
  · rw [div_eq_one_iff_eq (not_le.mp hunion).ne']
    constructor
    · exact fun h => ⟨by linarith, by linarith⟩
    · rintro ⟨rfl, rfl⟩
      exact (add_sub_cancel_right _ _).symm

end Overlap
