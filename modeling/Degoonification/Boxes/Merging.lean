import Degoonification.Boxes.Similarity
import Mathlib.Order.Bounds.Basic

/-! `merge_overlapping_boxes` of both trackers as a partition of its input. Every
result is the bounding box of a group of inputs, the groups together are the inputs,
and two results overlap by at most the threshold. -/

namespace Degoonification

namespace BoundingBox

/-- One pass of the source over the boxes and their `consumed` flags: the next stage,
and `merged_any`. -/
def mergePass (boxes : List BoundingBox) (threshold : ℚ) : List BoundingBox × Bool :=
  Agglomeration.sweepMarked (fun current b => current.overlaps b threshold) united
    (boxes.map fun b => (b, false))

theorem mergePass_eq_sweep (boxes : List BoundingBox) (threshold : ℚ) :
    mergePass boxes threshold =
      Agglomeration.sweep (fun current b => current.overlaps b threshold) united boxes := by
  have hfresh : Agglomeration.unconsumed (boxes.map fun b => (b, false)) = boxes := by
    simp [Agglomeration.unconsumed, List.filterMap_map]
  rw [mergePass, Agglomeration.sweepMarked_eq, hfresh]

/-- The rectangle of `b` is the smallest around a group of boxes, its confidence and
time are the largest of the group, and its class is that of a box of that confidence. -/
structure IsHull (group : List BoundingBox) (b : BoundingBox) : Prop where
  left : IsLeast (left '' {c | c ∈ group}) b.left
  top : IsLeast (top '' {c | c ∈ group}) b.top
  right : IsGreatest (right '' {c | c ∈ group}) b.right
  bottom : IsGreatest (bottom '' {c | c ∈ group}) b.bottom
  confidence : IsGreatest (BoundingBox.confidence '' {c | c ∈ group}) b.confidence
  timestampMs : IsGreatest (BoundingBox.timestampMs '' {c | c ∈ group}) b.timestampMs
  classId : ∃ c ∈ group, c.confidence = b.confidence ∧ c.classId = b.classId

/-- Width and height are not negative. -/
structure Proper (b : BoundingBox) : Prop where
  width : 0 ≤ b.width
  height : 0 ≤ b.height

theorem IsHull.ne_nil {group : List BoundingBox} {b : BoundingBox} (h : IsHull group b) :
    group ≠ [] := by
  rintro rfl
  obtain ⟨c, hc, -⟩ := h.classId
  exact List.not_mem_nil hc

theorem isHull_singleton (b : BoundingBox) : IsHull [b] b := by
  have hone : {c | c ∈ [b]} = {b} := by simp
  refine ⟨?_, ?_, ?_, ?_, ?_, ?_, b, List.mem_singleton_self b, rfl, rfl⟩ <;>
    rw [hone, Set.image_singleton]
  · exact isLeast_singleton
  · exact isLeast_singleton
  all_goals exact isGreatest_singleton

theorem image_append {α : Type*} (f : BoundingBox → α) (g g' : List BoundingBox) :
    f '' {c | c ∈ g ++ g'} = f '' {c | c ∈ g} ∪ f '' {c | c ∈ g'} := by
  rw [← Set.image_union]
  congr 1
  ext c
  exact List.mem_append

theorem Proper.united {b : BoundingBox} (c : BoundingBox) : (b.united c).Proper :=
  ⟨le_max_left _ _, le_max_left _ _⟩

theorem Proper.united_right {b : BoundingBox} (hb : b.Proper) (c : BoundingBox) :
    (b.united c).right = max b.right c.right := by
  have hle : min b.left c.left ≤ max b.right c.right :=
    (min_le_left _ _).trans (le_trans (le_add_of_nonneg_right hb.width) (le_max_left _ _))
  simp only [BoundingBox.united, right] at hle ⊢
  rw [max_eq_right (sub_nonneg.mpr hle), add_sub_cancel]

theorem Proper.united_bottom {b : BoundingBox} (hb : b.Proper) (c : BoundingBox) :
    (b.united c).bottom = max b.bottom c.bottom := by
  have hle : min b.top c.top ≤ max b.bottom c.bottom :=
    (min_le_left _ _).trans (le_trans (le_add_of_nonneg_right hb.height) (le_max_left _ _))
  simp only [BoundingBox.united, bottom] at hle ⊢
  rw [max_eq_right (sub_nonneg.mpr hle), add_sub_cancel]

/-- The class comes with the larger confidence, from the left box on a tie. -/
theorem IsHull.united_classId {g g' : List BoundingBox} {b b' : BoundingBox} (h : IsHull g b)
    (h' : IsHull g' b') : ∃ c ∈ g ++ g', c.confidence = (b.united b').confidence ∧
      c.classId = (b.united b').classId := by
  obtain ⟨c, hc, hconf, hclass⟩ := h.classId
  obtain ⟨c', hc', hconf', hclass'⟩ := h'.classId
  simp only [BoundingBox.united]
  split_ifs with hle
  · exact ⟨c, List.mem_append_left g' hc, by rw [hconf, max_eq_left hle], hclass⟩
  · exact ⟨c', List.mem_append_right g hc', by rw [hconf', max_eq_right (not_le.mp hle).le],
      hclass'⟩

theorem IsHull.united {g g' : List BoundingBox} {b b' : BoundingBox} (h : IsHull g b)
    (h' : IsHull g' b') (hb : b.Proper) : IsHull (g ++ g') (b.united b') where
  left := by
    rw [image_append]
    exact h.left.union h'.left
  top := by
    rw [image_append]
    exact h.top.union h'.top
  right := by
    rw [image_append, hb.united_right]
    exact h.right.union h'.right
  bottom := by
    rw [image_append, hb.united_bottom]
    exact h.bottom.union h'.bottom
  confidence := by
    rw [image_append]
    exact h.confidence.union h'.confidence
  timestampMs := by
    rw [image_append]
    exact h.timestampMs.union h'.timestampMs
  classId := h.united_classId h'

end BoundingBox

open BoundingBox

section Merge

variable {boxes : List BoundingBox} {threshold : ℚ}

/-- The early return for short lists changes nothing. -/
theorem mergeOverlappingBoxes_eq (boxes : List BoundingBox) (threshold : ℚ) :
    mergeOverlappingBoxes boxes threshold =
      Agglomeration.agglomerate (fun current b => current.overlaps b threshold) united boxes := by
  rw [mergeOverlappingBoxes]
  split_ifs with hshort
  · refine (Agglomeration.agglomerate_of_untouched ?_).symm
    cases boxes with
    | nil => exact .nil
    | cons b boxes =>
      have hrest : boxes.length ≤ 0 := Nat.le_of_succ_le_succ hshort
      rw [List.length_eq_zero_iff.mp (Nat.le_zero.mp hrest)]
      exact List.pairwise_singleton _ b
  · rfl

/-- The `while` loop of the source: passes are repeated while one merges anything. -/
theorem mergeOverlappingBoxes_loop (boxes : List BoundingBox) (threshold : ℚ) :
    mergeOverlappingBoxes boxes threshold =
      if (mergePass boxes threshold).2 then
        mergeOverlappingBoxes (mergePass boxes threshold).1 threshold
      else (mergePass boxes threshold).1 := by
  rw [mergeOverlappingBoxes_eq, mergeOverlappingBoxes_eq, mergePass_eq_sweep,
    Agglomeration.agglomerate]
  split_ifs <;> rfl

theorem pairwise_mergeOverlappingBoxes (boxes : List BoundingBox) (threshold : ℚ) :
    (mergeOverlappingBoxes boxes threshold).Pairwise fun b c => b.overlaps c threshold = false := by
  rw [mergeOverlappingBoxes_eq]
  exact Agglomeration.pairwise_agglomerate boxes

theorem exists_groups_mergeOverlappingBoxes (hboxes : ∀ b ∈ boxes, b.Proper) (threshold : ℚ) :
    ∃ groups : List (List BoundingBox), groups.flatten.Perm boxes ∧
      List.Forall₂ IsHull groups (mergeOverlappingBoxes boxes threshold) := by
  have hsingle :
      List.Forall₂ (fun g b => IsHull g b ∧ b.Proper) (boxes.map fun b => [b]) boxes := by
    rw [List.forall₂_map_left_iff, List.forall₂_same]
    exact fun b hb => ⟨isHull_singleton b, hboxes b hb⟩
  obtain ⟨groups, hgroups, hperm⟩ := Agglomeration.exists_groups_agglomerate
    (fun current b => current.overlaps b threshold)
    (fun h h' => ⟨h.1.united h'.1 h.2, Proper.united _⟩) boxes hsingle
  refine ⟨groups, ?_, ?_⟩
  · rwa [← List.flatMap_def, List.flatMap_singleton'] at hperm
  · rw [mergeOverlappingBoxes_eq]
    exact hgroups.imp fun _ _ h => h.1

theorem exists_isHull_of_mem (hboxes : ∀ b ∈ boxes, b.Proper) {b : BoundingBox}
    (hb : b ∈ mergeOverlappingBoxes boxes threshold) :
    ∃ g : List BoundingBox, (∀ c ∈ g, c ∈ boxes) ∧ IsHull g b := by
  obtain ⟨groups, hperm, hgroups⟩ := exists_groups_mergeOverlappingBoxes hboxes threshold
  obtain ⟨i, hi, rfl⟩ := List.getElem_of_mem hb
  have hi' : i < groups.length := hgroups.length_eq ▸ hi
  refine ⟨groups[i], fun c hc => hperm.mem_iff.mp ?_, hgroups.get hi' hi⟩
  exact List.mem_flatten_of_mem (List.getElem_mem hi') hc

/-- The results of merging are the bounding boxes of the groups of a partition of the
input, any two of them overlap by at most the threshold, and merging them again
changes nothing. -/
theorem mergeOverlappingBoxes_partition (hboxes : ∀ b ∈ boxes, b.Proper) (threshold : ℚ) :
    (∃ groups : List (List BoundingBox), groups.flatten.Perm boxes ∧ (∀ g ∈ groups, g ≠ []) ∧
      List.Forall₂ IsHull groups (mergeOverlappingBoxes boxes threshold)) ∧
    (mergeOverlappingBoxes boxes threshold).Pairwise
      (fun b c => b.iou c ≤ threshold ∧ c.iou b ≤ threshold) ∧
    mergeOverlappingBoxes (mergeOverlappingBoxes boxes threshold) threshold =
      mergeOverlappingBoxes boxes threshold := by
  have hpair := pairwise_mergeOverlappingBoxes boxes threshold
  refine ⟨?_, hpair.imp fun {b c} h => ?_, ?_⟩
  · obtain ⟨groups, hperm, hgroups⟩ := exists_groups_mergeOverlappingBoxes hboxes threshold
    have hne : List.Forall₂ (fun g b => g ≠ [] ∧ IsHull g b) groups
        (mergeOverlappingBoxes boxes threshold) := hgroups.imp fun _ _ h => ⟨h.ne_nil, h⟩
    exact ⟨groups, hperm, ((List.forall₂_and_left groups _).mp hne).1, hgroups⟩
  · have hle : b.iou c ≤ threshold := by simpa [overlaps] using h
    exact ⟨hle, iou_comm b c ▸ hle⟩
  · rw [mergeOverlappingBoxes_eq (mergeOverlappingBoxes boxes threshold)]
    exact Agglomeration.agglomerate_of_untouched hpair

/-- Two boxes with half of their union in common, and one far away. -/
theorem mergeOverlappingBoxes_partition_three :
    let boxes : List BoundingBox :=
      [{ width := 3 / 10, height := 1 / 10 }, { x := 9 / 10, width := 1 / 10, height := 1 / 10 },
        { x := 1 / 10, width := 3 / 10, height := 1 / 10, confidence := 1, classId := 2 }]
    (∃ groups : List (List BoundingBox), groups.flatten.Perm boxes ∧ (∀ g ∈ groups, g ≠ []) ∧
        List.Forall₂ IsHull groups (mergeOverlappingBoxes boxes (15 / 100))) ∧
      (mergeOverlappingBoxes boxes (15 / 100)).Pairwise
        (fun b c => b.iou c ≤ 15 / 100 ∧ c.iou b ≤ 15 / 100) ∧
      mergeOverlappingBoxes (mergeOverlappingBoxes boxes (15 / 100)) (15 / 100) =
        mergeOverlappingBoxes boxes (15 / 100) := by
  intro boxes
  refine mergeOverlappingBoxes_partition (fun b hb => ?_) _
  have hall : ∀ b ∈ boxes, 0 ≤ b.width ∧ 0 ≤ b.height := by decide +kernel
  exact ⟨(hall b hb).1, (hall b hb).2⟩

end Merge

end Degoonification
