import Degoonification.Library.Agglomeration
import Mathlib.Algebra.Order.Field.Rat
import Mathlib.Data.Set.Prod
import Mathlib.Order.Interval.Set.Basic
import Mathlib.Tactic.Linarith
import Mathlib.Tactic.Positivity

/-! `BoundingBox` over exact rational coordinates, and `merge_overlapping_boxes`,
which both trackers carry in the same words. A box is read as the closed
rectangle of its points; a united box contains both parts, and expansion by a
non-negative ratio loses nothing inside the unit square. -/

namespace Degoonification

structure BoundingBox where
  x : ℚ := 0
  y : ℚ := 0
  width : ℚ := 0
  height : ℚ := 0
  confidence : ℚ := 0
  classId : ℤ := 0
  timestampMs : ℕ := 0
  deriving DecidableEq

namespace BoundingBox

def left (b : BoundingBox) : ℚ := b.x
def top (b : BoundingBox) : ℚ := b.y
def right (b : BoundingBox) : ℚ := b.x + b.width
def bottom (b : BoundingBox) : ℚ := b.y + b.height
def area (b : BoundingBox) : ℚ := b.width * b.height

def expanded (b : BoundingBox) (ratio : ℚ) : BoundingBox :=
  let dw := b.width * ratio
  let dh := b.height * ratio
  let nx1 := max 0 (b.x - dw * (1 / 2))
  let ny1 := max 0 (b.y - dh * (1 / 2))
  let nx2 := min 1 (b.x + b.width + dw * (1 / 2))
  let ny2 := min 1 (b.y + b.height + dh * (1 / 2))
  { x := nx1, y := ny1, width := max 0 (nx2 - nx1), height := max 0 (ny2 - ny1),
    confidence := b.confidence, classId := b.classId, timestampMs := b.timestampMs }

/-- Intersection over union. -/
def iou (b other : BoundingBox) : ℚ :=
  let ix1 := max b.left other.left
  let iy1 := max b.top other.top
  let ix2 := min b.right other.right
  let iy2 := min b.bottom other.bottom
  let iw := max 0 (ix2 - ix1)
  let ih := max 0 (iy2 - iy1)
  let intersection := iw * ih
  let unionArea := b.area + other.area - intersection
  if unionArea ≤ 0 then 0 else intersection / unionArea

def overlaps (b other : BoundingBox) (threshold : ℚ) : Bool := threshold < b.iou other

def united (b other : BoundingBox) : BoundingBox :=
  let nx1 := min b.left other.left
  let ny1 := min b.top other.top
  let nx2 := max b.right other.right
  let ny2 := max b.bottom other.bottom
  { x := nx1, y := ny1, width := max 0 (nx2 - nx1), height := max 0 (ny2 - ny1),
    confidence := max b.confidence other.confidence,
    classId := if other.confidence ≤ b.confidence then b.classId else other.classId,
    timestampMs := max b.timestampMs other.timestampMs }

/-- The closed rectangle a box stands for. -/
def region (b : BoundingBox) : Set (ℚ × ℚ) :=
  Set.Icc b.left b.right ×ˢ Set.Icc b.top b.bottom

/-- The screen. -/
def unitSquare : Set (ℚ × ℚ) := Set.Icc 0 1 ×ˢ Set.Icc 0 1

/-- Edge by edge, `b` lies inside `c`. -/
structure Inside (b c : BoundingBox) : Prop where
  left : c.left ≤ b.left
  right : b.right ≤ c.right
  top : c.top ≤ b.top
  bottom : b.bottom ≤ c.bottom

theorem mem_region {b : BoundingBox} {p : ℚ × ℚ} :
    p ∈ b.region ↔ (b.left ≤ p.1 ∧ p.1 ≤ b.right) ∧ b.top ≤ p.2 ∧ p.2 ≤ b.bottom := Iff.rfl

theorem Inside.refl (b : BoundingBox) : Inside b b := ⟨le_rfl, le_rfl, le_rfl, le_rfl⟩

theorem Inside.trans {b c d : BoundingBox} (h : Inside b c) (h' : Inside c d) : Inside b d :=
  ⟨h'.left.trans h.left, h.right.trans h'.right, h'.top.trans h.top, h.bottom.trans h'.bottom⟩

theorem Inside.region_subset {b c : BoundingBox} (h : Inside b c) : b.region ⊆ c.region := by
  rintro p ⟨⟨hl, hr⟩, ht, hb⟩
  exact ⟨⟨h.left.trans hl, hr.trans h.right⟩, h.top.trans ht, hb.trans h.bottom⟩

/-- A box rebuilt from its corners reaches at least to the far corner. -/
theorem le_add_max_sub (a b : ℚ) : b ≤ a + max 0 (b - a) := by
  have := le_max_right 0 (b - a)
  linarith

theorem inside_united_left (b c : BoundingBox) : Inside b (b.united c) :=
  ⟨min_le_left _ _, (le_max_left _ _).trans (le_add_max_sub _ _), min_le_left _ _,
    (le_max_left _ _).trans (le_add_max_sub _ _)⟩

theorem inside_united_right (b c : BoundingBox) : Inside c (b.united c) :=
  ⟨min_le_right _ _, (le_max_right _ _).trans (le_add_max_sub _ _), min_le_right _ _,
    (le_max_right _ _).trans (le_add_max_sub _ _)⟩

/-- What of a box sticks out of another by at most half the padding on each side
lies inside the padded box, as far as it is on screen. -/
theorem region_subset_expanded {b d : BoundingBox} {ratio : ℚ}
    (hl : b.left - d.left ≤ b.width * ratio * (1 / 2))
    (hr : d.right - b.right ≤ b.width * ratio * (1 / 2))
    (ht : b.top - d.top ≤ b.height * ratio * (1 / 2))
    (hb : d.bottom - b.bottom ≤ b.height * ratio * (1 / 2)) :
    d.region ∩ unitSquare ⊆ (b.expanded ratio).region := by
  rintro p ⟨⟨⟨hdl, hdr⟩, hdt, hdb⟩, ⟨h0x, h1x⟩, h0y, h1y⟩
  simp only [left, right, top, bottom] at hl hr ht hb hdl hdr hdt hdb
  refine ⟨⟨max_le h0x (by linarith), ?_⟩, max_le h0y (by linarith), ?_⟩
  · exact (le_min h1x (by linarith)).trans (le_add_max_sub _ _)
  · exact (le_min h1y (by linarith)).trans (le_add_max_sub _ _)

/-- Padding a box of non-negative size covers what is inside the box. -/
theorem Inside.region_subset_expanded {b d : BoundingBox} {ratio : ℚ} (h : Inside d b)
    (hw : 0 ≤ d.width) (hh : 0 ≤ d.height) (hratio : 0 ≤ ratio) :
    d.region ∩ unitSquare ⊆ (b.expanded ratio).region := by
  obtain ⟨hl, hr, ht, hb⟩ := h
  have hbw : 0 ≤ b.width := by
    simp only [BoundingBox.left, BoundingBox.right] at hl hr
    linarith
  have hbh : 0 ≤ b.height := by
    simp only [BoundingBox.top, BoundingBox.bottom] at ht hb
    linarith
  have hpw : 0 ≤ b.width * ratio * (1 / 2) := by positivity
  have hph : 0 ≤ b.height * ratio * (1 / 2) := by positivity
  exact BoundingBox.region_subset_expanded (by linarith) (by linarith) (by linarith) (by linarith)

end BoundingBox

open BoundingBox

/-- `merge_overlapping_boxes`: `current` absorbs the later boxes it overlaps that
are not consumed yet, the outer loop runs over what is left, and passes are
repeated while one merges anything. -/
def mergeOverlappingBoxes (boxes : List BoundingBox) (threshold : ℚ) : List BoundingBox :=
  if boxes.length ≤ 1 then boxes
  else Agglomeration.agglomerate (fun current b => current.overlaps b threshold) united boxes

theorem above_united : Agglomeration.Above united Inside where
  refl := Inside.refl
  trans := Inside.trans
  left := inside_united_left
  right := inside_united_right

/-- Merging only moves edges outward: every box ends inside one of the results. -/
theorem exists_inside_mergeOverlappingBoxes {boxes : List BoundingBox} {b : BoundingBox}
    (hb : b ∈ boxes) (threshold : ℚ) :
    ∃ c ∈ mergeOverlappingBoxes boxes threshold, Inside b c := by
  rw [mergeOverlappingBoxes]
  split_ifs
  · exact ⟨b, hb, Inside.refl b⟩
  · exact above_united.exists_agglomerate boxes hb

end Degoonification
