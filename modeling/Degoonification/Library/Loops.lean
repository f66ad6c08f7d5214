import Mathlib.Data.UInt
import Mathlib.Tactic.Common

/-! Counting loops over a 32-bit unsigned counter, `for (c = start; c < stop; c += step)`.
The addition wraps, so a large `stop` can keep such a loop going for ever; a run
of the loop is therefore cut off after a number of rounds, and a loop that has
not ended after `2 ^ 32` rounds has met a counter value twice. -/

namespace Loops

variable {stop step c d : UInt32} {n : ℕ}

/-- The values of the counter in the first `n` rounds. -/
def visits (stop step : UInt32) : ℕ → UInt32 → List UInt32
  | 0, _ => []
  | n + 1, c => if c < stop then c :: visits stop step n (c + step) else []

/-- The loop ends within `n` rounds. -/
def endsWithin (stop step : UInt32) : ℕ → UInt32 → Bool
  | 0, c => !(c < stop)
  | n + 1, c => if c < stop then endsWithin stop step n (c + step) else true

theorem toNat_min (a b : UInt32) : (min a b).toNat = min a.toNat b.toNat := by
  rw [show min a b = if a ≤ b then a else b from rfl, Nat.min_def]
  simp only [UInt32.le_iff_toNat_le]
  split_ifs <;> rfl

theorem min_le_end (a b : UInt32) : min a b ≤ b := by
  rw [UInt32.le_iff_toNat_le, toNat_min]
  exact Nat.min_le_right _ _

theorem lt_of_mem_visits (h : d ∈ visits stop step n c) : d < stop := by
  induction n generalizing c with
  | zero => exact absurd h List.not_mem_nil
  | succ n ih =>
    simp only [visits] at h
    split_ifs at h with hc
    · rcases List.mem_cons.mp h with rfl | h
      · exact hc
      · exact ih h
    · exact absurd h List.not_mem_nil

/-- A loop that counts by one reaches everything from its start to its end. -/
theorem mem_visits_one (hd : d < stop) (hcd : c ≤ d) (hn : d.toNat < c.toNat + n) :
    d ∈ visits stop 1 n c := by
  induction n generalizing c with
  | zero =>
    rw [UInt32.le_iff_toNat_le] at hcd
    omega
  | succ n ih =>
    have hcs : c < stop := UInt32.lt_of_le_of_lt hcd hd
    rw [visits, if_pos hcs, List.mem_cons]
    by_cases he : d = c
    · exact Or.inl he
    · have hne : d.toNat ≠ c.toNat := fun h => he (UInt32.toNat_inj.mp h)
      rw [UInt32.le_iff_toNat_le] at hcd
      have hd' := d.toNat_lt
      have hc1 : (c + 1).toNat = c.toNat + 1 := by
        rw [UInt32.toNat_add, UInt32.toNat_one]
        omega
      refine Or.inr (ih ?_ ?_)
      · rw [UInt32.le_iff_toNat_le, hc1]
        omega
      · omega

/-- A block that starts inside a range and is cut off at its end stays inside. -/
theorem add_lt_of_lt_block {block : UInt32} (hc : c < stop) (hd : d < min block (stop - c)) :
    c + d < stop := by
  rw [UInt32.lt_iff_toNat_lt] at hc hd ⊢
  have hle : c ≤ stop := UInt32.le_iff_toNat_le.mpr (Nat.le_of_lt hc)
  have hstop := stop.toNat_lt
  rw [toNat_min, UInt32.toNat_sub_of_le _ _ hle] at hd
  rw [UInt32.toNat_add]
  omega

/-! ### Loops that do not wrap -/

/-- Every value of the counter before the end leaves room for one more step. -/
def NoWrap (stop step c : UInt32) : Prop :=
  ∀ k, c.toNat + k * step.toNat < stop.toNat → c.toNat + (k + 1) * step.toNat < 2 ^ 32

theorem noWrap_of_le (h : stop.toNat + step.toNat ≤ 2 ^ 32) : NoWrap stop step c := by
  intro k hk
  rw [Nat.add_mul, Nat.one_mul]
  omega

theorem noWrap_one : NoWrap stop 1 c := by
  refine noWrap_of_le ?_
  have hstop := stop.toNat_lt
  rw [UInt32.toNat_one]
  omega

theorem NoWrap.toNat_add (h : NoWrap stop step c) (hc : c < stop) :
    (c + step).toNat = c.toNat + step.toNat := by
  have hroom := h 0 (by rwa [Nat.zero_mul, Nat.add_zero, ← UInt32.lt_iff_toNat_lt])
  rw [UInt32.toNat_add]
  omega

theorem NoWrap.next (h : NoWrap stop step c) (hc : c < stop) : NoWrap stop step (c + step) := by
  intro k hk
  have hroom := h (k + 1)
  rw [h.toNat_add hc] at hk ⊢
  have hshift : c.toNat + step.toNat + k * step.toNat = c.toNat + (k + 1) * step.toNat := by
    rw [Nat.add_mul, Nat.one_mul]
    omega
  have hshift' : c.toNat + step.toNat + (k + 1) * step.toNat =
      c.toNat + (k + 1 + 1) * step.toNat := by
    rw [Nat.add_mul (k + 1), Nat.one_mul]
    omega
  rw [hshift] at hk
  rw [hshift']
  exact hroom hk

/-- Each round takes the counter at least one further. -/
theorem NoWrap.endsWithin (h : NoWrap stop step c) (hstep : 0 < step.toNat)
    (hn : stop.toNat ≤ c.toNat + n) : endsWithin stop step n c = true := by
  induction n generalizing c with
  | zero =>
    have hc : ¬c < stop := by
      rw [UInt32.lt_iff_toNat_lt]
      omega
    simp [Loops.endsWithin, hc]
  | succ n ih =>
    rw [Loops.endsWithin]
    split_ifs with hc
    · refine ih (h.next hc) ?_
      rw [h.toNat_add hc]
      omega
    · rfl

theorem NoWrap.le_of_mem_visits (h : NoWrap stop step c) (hd : d ∈ visits stop step n c) :
    c.toNat ≤ d.toNat := by
  induction n generalizing c with
  | zero => exact absurd hd List.not_mem_nil
  | succ n ih =>
    rw [visits] at hd
    split_ifs at hd with hc
    · obtain rfl | hd := List.mem_cons.mp hd
      · exact Nat.le_refl _
      · have hle := ih (h.next hc) hd
        rw [h.toNat_add hc] at hle
        omega
    · exact absurd hd List.not_mem_nil

/-- The blocks of the rounds, the last one cut off at the end, cover the range. -/
theorem NoWrap.exists_block (h : NoWrap stop step c) (hstep : 0 < step.toNat)
    (hcd : c.toNat ≤ d.toNat) (hd : d.toNat < stop.toNat) (hn : stop.toNat ≤ c.toNat + n) :
    ∃ b ∈ visits stop step n c, b.toNat ≤ d.toNat ∧
      d.toNat < b.toNat + (min step (stop - b)).toNat := by
  induction n generalizing c with
  | zero => omega
  | succ n ih =>
    have hc : c < stop := UInt32.lt_iff_toNat_lt.mpr (by omega)
    have hcs : c ≤ stop := UInt32.le_iff_toNat_le.mpr (by omega)
    rw [visits, if_pos hc]
    by_cases hfirst : d.toNat < c.toNat + step.toNat
    · refine ⟨c, List.mem_cons_self, hcd, ?_⟩
      rw [toNat_min, UInt32.toNat_sub_of_le _ _ hcs]
      omega
    · have hadd := h.toNat_add hc
      obtain ⟨b, hb, hblock⟩ := ih (h.next hc) (by omega) (by omega)
      exact ⟨b, List.mem_cons_of_mem c hb, hblock⟩

/-- Counting through every block visits exactly the range. -/
theorem NoWrap.mem_blocks_iff (h : NoWrap stop step c) (hstep : 0 < step.toNat)
    (hn : 2 ^ 32 ≤ n) :
    (∃ b ∈ visits stop step n c, ∃ e ∈ visits (min step (stop - b)) 1 n 0, b + e = d) ↔
      c ≤ d ∧ d < stop := by
  rw [UInt32.le_iff_toNat_le, UInt32.lt_iff_toNat_lt]
  have hstop := stop.toNat_lt
  constructor
  · rintro ⟨b, hb, e, he, rfl⟩
    have hbs := lt_of_mem_visits hb
    have hlt := add_lt_of_lt_block hbs (lt_of_mem_visits he)
    have hes := lt_of_mem_visits he
    have hle : b ≤ stop := UInt32.le_of_lt hbs
    rw [UInt32.lt_iff_toNat_lt] at hlt hbs hes
    rw [toNat_min, UInt32.toNat_sub_of_le _ _ hle] at hes
    refine ⟨?_, hlt⟩
    have hcb := h.le_of_mem_visits hb
    rw [UInt32.toNat_add, Nat.mod_eq_of_lt (by omega)]
    omega
  · rintro ⟨hcd, hd⟩
    obtain ⟨b, hb, hbd, hdb⟩ := h.exists_block (n := n) hstep hcd hd (by omega)
    have hsub : (d - b).toNat = d.toNat - b.toNat :=
      UInt32.toNat_sub_of_le _ _ (UInt32.le_iff_toNat_le.mpr hbd)
    have hdlt := d.toNat_lt
    refine ⟨b, hb, d - b, mem_visits_one ?_ UInt32.zero_le ?_, ?_⟩
    · rw [UInt32.lt_iff_toNat_lt, hsub]
      omega
    · rw [hsub, UInt32.toNat_zero]
      omega
    · rw [← UInt32.toNat_inj, UInt32.toNat_add, hsub]
      omega

theorem mem_visits_one_iff (hn : 2 ^ 32 ≤ n) : d ∈ visits stop 1 n c ↔ c ≤ d ∧ d < stop := by
  constructor
  · intro hd
    exact ⟨UInt32.le_iff_toNat_le.mpr (noWrap_one.le_of_mem_visits hd), lt_of_mem_visits hd⟩
  · rintro ⟨hcd, hd⟩
    have hdlt := d.toNat_lt
    exact mem_visits_one hd hcd (by omega)

end Loops
