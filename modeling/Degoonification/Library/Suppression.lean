import Mathlib.Tactic.Common

/-! Greedy suppression. A list is read from left to right; an item that is not
suppressed is kept and suppresses every later item it hits. No kept item hits a
later kept one, and every suppressed item is hit by a kept item before it, so
nothing is lost without a witness that stays. -/

namespace Suppression

variable {α : Type*} (hits : α → α → Bool)

/-- With a `suppressed` flag beside every item. -/
def keepMarked : List (α × Bool) → List α
  | [] => []
  | (a, suppressed) :: xs =>
    if suppressed then keepMarked xs
    else a :: keepMarked (xs.map fun x => (x.1, x.2 || hits a x.1))
termination_by xs => xs.length

/-- Without flags: what is hit leaves the list. -/
def keep : List α → List α
  | [] => []
  | a :: xs => a :: keep (xs.filter fun b => !hits a b)
termination_by xs => xs.length
decreasing_by
  simp only [List.unattach_filter, List.unattach_attach]
  exact Nat.lt_succ_of_le (List.length_filter_le _ xs)

/-- The items without a flag. -/
def unmarked (xs : List (α × Bool)) : List α := (xs.filter fun x => !x.2).map Prod.fst

theorem unmarked_map_hits (a : α) (xs : List (α × Bool)) :
    unmarked (xs.map fun x => (x.1, x.2 || hits a x.1)) =
      (unmarked xs).filter fun b => !hits a b := by
  induction xs with
  | nil => rfl
  | cons x xs ih =>
    obtain ⟨b, flag⟩ := x
    simp only [unmarked] at ih
    cases flag <;> cases h : hits a b <;> simp [unmarked, h, ih]

/-- The flags leave out what the filters leave out. -/
theorem keepMarked_eq (xs : List (α × Bool)) : keepMarked hits xs = keep hits (unmarked xs) := by
  match xs with
  | [] => simp [keepMarked, unmarked, keep]
  | (a, true) :: xs =>
    rw [keepMarked, if_pos rfl, keepMarked_eq xs]
    rfl
  | (a, false) :: xs =>
    rw [keepMarked, if_neg Bool.false_ne_true, keepMarked_eq, unmarked_map_hits]
    simp [unmarked, keep]
termination_by xs.length

theorem unmarked_fresh (xs : List α) : unmarked (xs.map fun a => (a, false)) = xs := by
  induction xs with
  | nil => rfl
  | cons a xs ih => exact congrArg (a :: ·) ih

theorem keep_sublist (xs : List α) : (keep hits xs).Sublist xs := by
  match xs with
  | [] => simp [keep]
  | a :: xs =>
    rw [keep]
    exact ((keep_sublist _).trans List.filter_sublist).cons_cons a
termination_by xs.length
decreasing_by exact Nat.lt_succ_of_le (List.length_filter_le _ xs)

/-- No kept item hits a later kept one. -/
theorem pairwise_keep (xs : List α) : (keep hits xs).Pairwise fun a b => hits a b = false := by
  match xs with
  | [] => simp [keep]
  | a :: xs =>
    rw [keep]
    refine List.pairwise_cons.mpr ⟨fun b hb => ?_, pairwise_keep _⟩
    have hfree := (List.mem_filter.mp ((keep_sublist hits _).subset hb)).2
    rwa [Bool.not_eq_true'] at hfree
termination_by xs.length
decreasing_by exact Nat.lt_succ_of_le (List.length_filter_le _ xs)

/-- What is not kept was hit by a kept item that stands before it: `R` is any
relation the list is sorted by. -/
theorem exists_suppressed {R : α → α → Prop} (xs : List α) (hsorted : xs.Pairwise R) :
    ∃ suppressed, (keep hits xs ++ suppressed).Perm xs ∧
      ∀ d ∈ suppressed, ∃ a ∈ keep hits xs, hits a d = true ∧ R a d := by
  match xs with
  | [] => exact ⟨[], by simp [keep]⟩
  | a :: xs =>
    obtain ⟨ha, hxs⟩ := List.pairwise_cons.mp hsorted
    obtain ⟨rest, hperm, hrest⟩ := exists_suppressed _ (hxs.filter fun b => !hits a b)
    rw [keep]
    refine ⟨xs.filter (hits a) ++ rest, ?_, fun d hd => ?_⟩
    · -- the items hit by `a`, then those that were suppressed among the others
      have hsplit : (xs.filter (hits a) ++ xs.filter fun b => !hits a b).Perm xs :=
        List.filter_append_perm (hits a) xs
      refine List.Perm.cons a ((List.perm_append_comm_assoc _ _ _).trans ?_)
      exact (hperm.append_left _).trans hsplit
    · rcases List.mem_append.mp hd with hd | hd
      · obtain ⟨hmem, hhit⟩ := List.mem_filter.mp hd
        exact ⟨a, List.mem_cons_self, hhit, ha d hmem⟩
      · obtain ⟨b, hb, hbd⟩ := hrest d hd
        exact ⟨b, List.mem_cons_of_mem a hb, hbd⟩
termination_by xs.length
decreasing_by exact Nat.lt_succ_of_le (List.length_filter_le _ xs)

end Suppression
