import Degoonification.Boxes.BoundingBox
import Degoonification.Library.Overlap
import Mathlib.Order.Interval.Set.LinearOrder

/-! `BoundingBox::iou` as a similarity of rectangles. The intersection is the product of
the common parts along the two axes, so it has an area exactly where the interiors meet
and is no larger than either box; the quotient is symmetric, between 0 and 1, and 1 for
no two boxes but equal ones. -/

namespace Degoonification

namespace BoundingBox

/-- The open rectangle a box stands for. -/
def interior (b : BoundingBox) : Set (ℚ × ℚ) :=
  Set.Ioo b.left b.right ×ˢ Set.Ioo b.top b.bottom

/-- `intersection` in `iou`. -/
def intersection (b other : BoundingBox) : ℚ :=
  max 0 (min b.right other.right - max b.left other.left) *
    max 0 (min b.bottom other.bottom - max b.top other.top)

/-- What `iou` divides by, none where it returns before the division. -/
def iouDivisor (b other : BoundingBox) : Option ℚ :=
  let unionArea := b.area + other.area - b.intersection other
  if unionArea ≤ 0 then none else some unionArea

theorem intersection_eq_common (b c : BoundingBox) :
    b.intersection c = Overlap.common b.left b.right c.left c.right *
      Overlap.common b.top b.bottom c.top c.bottom := rfl

theorem iou_eq_similarity (b c : BoundingBox) :
    b.iou c = Overlap.similarity (b.intersection c) b.area c.area := rfl

theorem iou_eq_elim (b c : BoundingBox) :
    b.iou c = (b.iouDivisor c).elim 0 (b.intersection c / ·) := by
  rw [iou_eq_similarity, Overlap.similarity, iouDivisor]
  split_ifs <;> rfl

theorem iouDivisor_pos {b c : BoundingBox} {d : ℚ} (h : b.iouDivisor c = some d) : 0 < d := by
  rw [iouDivisor] at h
  split_ifs at h with hunion
  exact Option.some.inj h ▸ not_le.mp hunion

/-! ### The intersection -/

theorem intersection_comm (b c : BoundingBox) : b.intersection c = c.intersection b := by
  simp only [intersection_eq_common, Overlap.common_comm b.left, Overlap.common_comm b.top]

theorem intersection_nonneg (b c : BoundingBox) : 0 ≤ b.intersection c :=
  mul_nonneg (Overlap.common_nonneg _ _ _ _) (Overlap.common_nonneg _ _ _ _)

theorem right_sub_left (b : BoundingBox) : b.right - b.left = b.width :=
  add_sub_cancel_left b.x b.width

theorem bottom_sub_top (b : BoundingBox) : b.bottom - b.top = b.height :=
  add_sub_cancel_left b.y b.height

/-- No common part along an axis is longer than the box. -/
theorem common_le_width {b : BoundingBox} (hw : 0 ≤ b.width) (c : BoundingBox) :
    Overlap.common b.left b.right c.left c.right ≤ b.width := by
  have hle : b.left ≤ b.right := le_add_of_nonneg_right hw
  exact (Overlap.common_le_left hle).trans_eq b.right_sub_left

theorem common_le_height {b : BoundingBox} (hh : 0 ≤ b.height) (c : BoundingBox) :
    Overlap.common b.top b.bottom c.top c.bottom ≤ b.height := by
  have hle : b.top ≤ b.bottom := le_add_of_nonneg_right hh
  exact (Overlap.common_le_left hle).trans_eq b.bottom_sub_top

theorem intersection_le_area {b : BoundingBox} (hw : 0 ≤ b.width) (hh : 0 ≤ b.height)
    (c : BoundingBox) : b.intersection c ≤ b.area :=
  mul_le_mul (common_le_width hw c) (common_le_height hh c) (Overlap.common_nonneg _ _ _ _) hw

theorem intersection_le_area_right {c : BoundingBox} (hw : 0 ≤ c.width) (hh : 0 ≤ c.height)
    (b : BoundingBox) : b.intersection c ≤ c.area :=
  (intersection_comm b c).trans_le (intersection_le_area hw hh b)

/-- The intersection has an area exactly where the open rectangles meet. -/
theorem intersection_eq_zero_iff {b c : BoundingBox} :
    b.intersection c = 0 ↔ b.interior ∩ c.interior = ∅ := by
  have hzero (a₁ b₁ a₂ b₂ : ℚ) : Overlap.common a₁ b₁ a₂ b₂ = 0 ↔
      Set.Ioo a₁ b₁ ∩ Set.Ioo a₂ b₂ = ∅ := by
    rw [← Set.not_nonempty_iff_eq_empty, ← Overlap.common_pos_iff, not_lt]
    exact (Overlap.common_nonneg a₁ b₁ a₂ b₂).ge_iff_eq'.symm
  rw [intersection_eq_common, mul_eq_zero, hzero, hzero, interior, interior, Set.prod_inter_prod,
    Set.prod_eq_empty_iff]

/-- Where a box has an area, the intersection is all of it only inside the other box. -/
theorem intersection_eq_area_iff {b : BoundingBox} (hw : 0 < b.width) (hh : 0 < b.height)
    (c : BoundingBox) : b.intersection c = b.area ↔ Inside b c := by
  have hleft : b.left < b.right := lt_add_of_pos_right _ hw
  have htop : b.top < b.bottom := lt_add_of_pos_right _ hh
  constructor
  · intro heq
    have harea : 0 < b.intersection c := heq.symm ▸ mul_pos hw hh
    have hy : 0 < Overlap.common b.top b.bottom c.top c.bottom :=
      pos_of_mul_pos_right harea (Overlap.common_nonneg _ _ _ _)
    -- a common part shorter than the side would make the product smaller than the area
    obtain ⟨hx, hy⟩ := (mul_eq_mul_iff_eq_and_eq_of_pos' (common_le_width hw.le c)
      (common_le_height hh.le c) hw hy).mp heq
    obtain ⟨hl, hr⟩ := (Overlap.common_eq_left_iff hleft).mp (hx.trans b.right_sub_left.symm)
    obtain ⟨ht, hb⟩ := (Overlap.common_eq_left_iff htop).mp (hy.trans b.bottom_sub_top.symm)
    exact ⟨hl, hr, ht, hb⟩
  · intro h
    rw [intersection_eq_common, (Overlap.common_eq_left_iff hleft).mpr ⟨h.left, h.right⟩,
      (Overlap.common_eq_left_iff htop).mpr ⟨h.top, h.bottom⟩, right_sub_left, bottom_sub_top,
      area]

/-! ### The similarity -/

/-- Two boxes lie in each other exactly when they are the same rectangle. -/
theorem region_eq_iff {b c : BoundingBox} (hw : 0 ≤ b.width) (hh : 0 ≤ b.height) :
    b.region = c.region ↔ Inside b c ∧ Inside c b := by
  constructor
  · intro heq
    have hx : b.left ≤ b.right := le_add_of_nonneg_right hw
    have hy : b.top ≤ b.bottom := le_add_of_nonneg_right hh
    obtain ⟨hxs, hys⟩ := (Set.prod_eq_prod_iff_of_nonempty
      ⟨(b.left, b.top), Set.left_mem_Icc.mpr hx, Set.left_mem_Icc.mpr hy⟩).mp heq
    obtain ⟨hl, hr⟩ := (Set.Icc_eq_Icc_iff hx).mp hxs
    obtain ⟨ht, hb⟩ := (Set.Icc_eq_Icc_iff hy).mp hys
    exact ⟨⟨hl.ge, hr.le, ht.ge, hb.le⟩, ⟨hl.le, hr.ge, ht.le, hb.ge⟩⟩
  · rintro ⟨hbc, hcb⟩
    exact hbc.region_subset.antisymm hcb.region_subset

/-- Boxes of area 0 have nothing in common. -/
theorem intersection_eq_zero_of_area {b c : BoundingBox} (hw : 0 ≤ b.width) (hh : 0 ≤ b.height)
    (harea : b.area = 0) : b.intersection c = 0 :=
  ((intersection_le_area hw hh c).trans_eq harea).antisymm (intersection_nonneg b c)

theorem iou_eq_zero_of_intersection {b c : BoundingBox} (h : b.intersection c = 0) :
    b.iou c = 0 := by
  rw [iou_eq_similarity, h, Overlap.similarity_zero]

theorem iou_comm (b c : BoundingBox) : b.iou c = c.iou b := by
  rw [iou_eq_similarity, iou_eq_similarity, intersection_comm, Overlap.similarity_comm]

/-- Boxes with an area are as similar as can be only when they are the same rectangle. -/
theorem iou_eq_one_iff {b c : BoundingBox} (hbw : 0 < b.width) (hbh : 0 < b.height)
    (hcw : 0 < c.width) (hch : 0 < c.height) : b.iou c = 1 ↔ b.region = c.region := by
  have harea : 0 < b.area := mul_pos hbw hbh
  rw [iou_eq_similarity, region_eq_iff hbw.le hbh.le, Overlap.similarity_eq_one_iff harea
    (intersection_le_area hbw.le hbh.le c) (intersection_le_area_right hcw.le hch.le b),
    intersection_eq_area_iff hbw hbh, intersection_comm, intersection_eq_area_iff hcw hch]

/-- `iou` is a similarity of boxes of non-negative size: symmetric, between 0 and 1, never
dividing by anything but a positive number, 0 for boxes with nothing in common, and 1 for
boxes with an area exactly when they are the same rectangle. -/
theorem iou_proper_similarity (b c : BoundingBox) (hbw : 0 ≤ b.width) (hbh : 0 ≤ b.height)
    (hcw : 0 ≤ c.width) (hch : 0 ≤ c.height) :
    b.iou c = c.iou b ∧ (0 ≤ b.iou c ∧ b.iou c ≤ 1) ∧
      (b.iou c = (b.iouDivisor c).elim 0 (b.intersection c / ·) ∧
        ∀ d, b.iouDivisor c = some d → 0 < d) ∧
      (b.interior ∩ c.interior = ∅ ∨ b.area = 0 ∧ c.area = 0 → b.iou c = 0) ∧
      (0 < b.area → 0 < c.area → (b.iou c = 1 ↔ b.region = c.region)) := by
  refine ⟨iou_comm b c, ⟨Overlap.similarity_nonneg (intersection_nonneg b c), ?_⟩,
    ⟨iou_eq_elim b c, fun d => iouDivisor_pos⟩, ?_, ?_⟩
  · exact Overlap.similarity_le_one (intersection_le_area hbw hbh c)
      (intersection_le_area_right hcw hch b)
  · rintro (hapart | ⟨harea, -⟩)
    · exact iou_eq_zero_of_intersection (intersection_eq_zero_iff.mpr hapart)
    · exact iou_eq_zero_of_intersection (intersection_eq_zero_of_area hbw hbh harea)
  · intro hb hc
    have hsides {m n : ℚ} (hm : 0 ≤ m) (hn : 0 ≤ n) (h : 0 < m * n) : 0 < m ∧ 0 < n :=
      ⟨pos_of_mul_pos_left h hn, pos_of_mul_pos_right h hm⟩
    obtain ⟨hbw, hbh⟩ := hsides hbw hbh hb
    obtain ⟨hcw, hch⟩ := hsides hcw hch hc
    exact iou_eq_one_iff hbw hbh hcw hch

/-- Two half-screen boxes a quarter of the screen apart. -/
theorem iou_proper_similarity_shifted :
    let b : BoundingBox := { width := 1 / 2, height := 1 / 2 }
    let c : BoundingBox := { x := 1 / 4, width := 1 / 2, height := 1 / 2 }
    b.iou c = c.iou b ∧ b.iou c = 1 / 3 ∧ b.iouDivisor c = some (3 / 8) ∧
      (0 : ℚ) < 3 / 8 ∧ b.region ≠ c.region := by
  intro b c
  obtain ⟨hcomm, -, ⟨-, hdivisor⟩, -, hone⟩ := iou_proper_similarity b c (by decide +kernel)
    (by decide +kernel) (by decide +kernel) (by decide +kernel)
  have hthird : b.iou c = 1 / 3 := by decide +kernel
  have hd : b.iouDivisor c = some (3 / 8) := by decide +kernel
  refine ⟨hcomm, hthird, hd, hdivisor _ hd, fun heq => ?_⟩
  have hiou := (hone (by decide +kernel) (by decide +kernel)).mpr heq
  exact absurd (hthird.symm.trans hiou) (by decide +kernel)

end BoundingBox

end Degoonification
