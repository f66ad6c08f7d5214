import Mathlib.Data.List.Nodup
import Mathlib.Data.List.ProdSigma
import Mathlib.Logic.Function.Basic

/-! Pictures in a flat buffer, row after row. A cell of the buffer belongs to one row and
one column; a rectangle visited row by row is visited cell by cell, each once; and after a
list of writes a cell holds what one of its writes gave it, or what it held before. -/

namespace Raster

variable {w h row col : ℕ}

theorem index_lt (hrow : row < h) (hcol : col < w) : row * w + col < h * w := by
  calc row * w + col < (row + 1) * w := by rw [Nat.add_one_mul]; exact Nat.add_lt_add_left hcol _
    _ ≤ h * w := Nat.mul_le_mul_right w hrow

/-- A cell belongs to one row and one column. -/
theorem row_col_eq {row' col' : ℕ} (hcol : col < w) (hcol' : col' < w)
    (heq : row * w + col = row' * w + col') : row = row' ∧ col = col' := by
  have hrem : col = col' := by
    have hmod := congrArg (· % w) heq
    simpa [Nat.mul_add_mod', Nat.mod_eq_of_lt hcol, Nat.mod_eq_of_lt hcol'] using hmod
  refine ⟨?_, hrem⟩
  rw [hrem, Nat.add_right_cancel_iff] at heq
  exact Nat.eq_of_mul_eq_mul_right (by omega) heq

/-- The cells of a rectangle, row by row. -/
def cells (h w : ℕ) : List (ℕ × ℕ) := List.range h ×ˢ List.range w

theorem mem_cells {c : ℕ × ℕ} : c ∈ cells h w ↔ c.1 < h ∧ c.2 < w := by
  rw [cells, List.mem_product, List.mem_range, List.mem_range]

theorem nodup_cells (h w : ℕ) : (cells h w).Nodup := List.nodup_range.product List.nodup_range

/-- Two nested loops visit the cells. -/
theorem flatMap_flatMap_range {α : Type*} (f : ℕ → ℕ → List α) (h w : ℕ) :
    ((List.range h).flatMap fun y => (List.range w).flatMap fun x => f y x) =
      (cells h w).flatMap fun c => f c.1 c.2 := by
  change _ = ((List.range h).flatMap fun y => (List.range w).map (Prod.mk y)).flatMap fun c =>
    f c.1 c.2
  simp only [List.flatMap_assoc, List.flatMap_map]

/-- After a list of writes a cell holds the value of one of its writes, or what it held
before if it has none. -/
theorem foldl_update_cases {α : Type*} (writes : List (ℕ × α)) (data : ℕ → α) (i : ℕ) :
    (∃ p ∈ writes, p.1 = i ∧
        writes.foldl (fun data p => Function.update data p.1 p.2) data i = p.2) ∨
      (∀ p ∈ writes, p.1 ≠ i) ∧
        writes.foldl (fun data p => Function.update data p.1 p.2) data i = data i := by
  induction writes generalizing data with
  | nil => exact Or.inr ⟨fun p hp => absurd hp List.not_mem_nil, rfl⟩
  | cons p writes ih =>
    rw [List.foldl_cons]
    obtain ⟨q, hq, hqi, hvalue⟩ | ⟨hnone, hvalue⟩ := ih (Function.update data p.1 p.2)
    · exact Or.inl ⟨q, List.mem_cons_of_mem p hq, hqi, hvalue⟩
    · rw [hvalue]
      by_cases hp : p.1 = i
      · refine Or.inl ⟨p, List.mem_cons_self, hp, ?_⟩
        rw [← hp, Function.update_self]
      · exact Or.inr ⟨List.forall_mem_cons.mpr ⟨hp, hnone⟩, Function.update_of_ne (Ne.symm hp) _ _⟩

end Raster
