import Mathlib.Algebra.Group.Nat.Defs
import Mathlib.Tactic.Common

/-! Input streams that fail for good at the first short read, as the C++ standard
library has them, and fixed-width little-endian numbers. A short read still
stores what it got over the first elements of the variable it reads into, so a
number read short keeps the low bytes of the number that was written. -/

namespace Streams

/-- What is left to read, and whether an earlier read failed. -/
structure Source (α : Type*) where
  rest : List α
  failed : Bool

namespace Source

variable {α : Type*}

/-- Reads into a variable that holds `old`: the variable afterwards and the stream. -/
def readInto (old : List α) (s : Source α) : List α × Source α :=
  if s.failed then (old, s)
  else
    let got := s.rest.take old.length
    (got ++ old.drop got.length, ⟨s.rest.drop old.length, s.rest.length < old.length⟩)

theorem readInto_of_failed {s : Source α} (h : s.failed = true) (old : List α) :
    s.readInto old = (old, s) := if_pos h

@[simp] theorem readInto_nil (s : Source α) : s.readInto [] = ([], s) := by
  obtain ⟨rest, failed⟩ := s
  cases failed <;> simp [readInto]

theorem failed_readInto (old : List α) (s : Source α) :
    (s.readInto old).2.failed = false ↔ s.failed = false ∧ old.length ≤ s.rest.length := by
  rw [readInto]
  cases h : s.failed <;> simp [h]

/-- A read that leaves the stream good filled the whole variable. -/
theorem readInto_of_good {old : List α} {s : Source α}
    (h : (s.readInto old).2.failed = false) :
    s.readInto old = (s.rest.take old.length, ⟨s.rest.drop old.length, false⟩) := by
  obtain ⟨hs, hlen⟩ := (failed_readInto old s).mp h
  rw [readInto, hs, if_neg Bool.false_ne_true]
  simp [List.length_take, hlen]

/-- The stream of a file stands at an offset, unless an earlier read failed. -/
def At (s : Source α) (file : List α) (n : ℕ) : Prop :=
  s.failed = true ∨ s = ⟨file.drop n, false⟩

theorem at_start (file : List α) : At ⟨file, false⟩ file 0 := .inr rfl

theorem At.read {file : List α} {n : ℕ} {s : Source α} (h : s.At file n) (old : List α) :
    (s.readInto old).2.At file (n + old.length) := by
  cases hgood : (s.readInto old).2.failed with
  | true => exact .inl hgood
  | false =>
    obtain ⟨hs, _⟩ := (failed_readInto old s).mp hgood
    obtain hf | rfl := h
    · exact absurd hf (by simp [hs])
    · refine .inr ?_
      rw [readInto_of_good hgood, List.drop_drop]

/-- After a read that succeeds, what was read is a piece of the file. -/
theorem At.good {file old : List α} {n : ℕ} {s : Source α} (h : s.At file n)
    (hgood : (s.readInto old).2.failed = false) :
    s.failed = false ∧ n + old.length ≤ max n file.length ∧
      (s.readInto old).1 = (file.drop n).take old.length := by
  obtain ⟨hs, hlen⟩ := (failed_readInto old s).mp hgood
  obtain hf | rfl := h
  · exact absurd hf (by simp [hs])
  · rw [List.length_drop] at hlen
    exact ⟨hs, by omega, by rw [readInto_of_good hgood]⟩

theorem readInto_append {old xs : List α} (h : xs.length = old.length) (ys : List α) :
    readInto old ⟨xs ++ ys, false⟩ = (xs, ⟨ys, false⟩) := by
  have hgood : (readInto old ⟨xs ++ ys, false⟩).2.failed = false := by
    refine (failed_readInto _ _).mpr ⟨rfl, ?_⟩
    simp [h]
  rw [readInto_of_good hgood, ← h, List.take_left, List.drop_left]

end Source

/-- The `w` little-endian bytes of `n`. -/
def le : ℕ → ℕ → List UInt8
  | 0, _ => []
  | w + 1, n => UInt8.ofNat n :: le w (n / 256)

def ofLe : List UInt8 → ℕ
  | [] => 0
  | b :: bs => b.toNat + 256 * ofLe bs

@[simp] theorem length_le (w n : ℕ) : (le w n).length = w := by
  induction w generalizing n with
  | zero => rfl
  | succ w ih => rw [le, List.length_cons, ih]

theorem ofLe_le (w n : ℕ) : ofLe (le w n) = n % 256 ^ w := by
  induction w generalizing n with
  | zero => rw [le, ofLe, Nat.pow_zero, Nat.mod_one]
  | succ w ih =>
    have hb : (UInt8.ofNat n).toNat = n % 256 := UInt8.toNat_ofNat'
    rw [le, ofLe, ih, hb, Nat.pow_succ', Nat.mod_mul]

theorem ofLe_lt (bs : List UInt8) : ofLe bs < 256 ^ bs.length := by
  induction bs with
  | nil => exact Nat.one_pos
  | cons b bs ih =>
    have hb := b.toNat_lt
    rw [ofLe, List.length_cons, Nat.pow_succ]
    omega

@[simp] theorem readInto_le (w m n : ℕ) (ys : List UInt8) :
    Source.readInto (le w m) ⟨le w n ++ ys, false⟩ = (le w n, ⟨ys, false⟩) :=
  Source.readInto_append (by rw [length_le, length_le]) ys

theorem le_zero (w : ℕ) : le w 0 = List.replicate w 0 := by
  induction w with
  | zero => rfl
  | succ w ih =>
    rw [le, Nat.zero_div, ih]
    rfl

theorem ofLe_replicate (n : ℕ) : ofLe (List.replicate n 0) = 0 := by
  induction n with
  | zero => rfl
  | succ n ih =>
    rw [List.replicate_succ, ofLe, ih]
    rfl

theorem ofLe_append_zeros (bs : List UInt8) (n : ℕ) :
    ofLe (bs ++ List.replicate n 0) = ofLe bs := by
  induction bs with
  | nil => exact ofLe_replicate n
  | cons b bs ih => rw [List.cons_append, ofLe, ofLe, ih]

/-- Cutting off high bytes does not make a number larger. -/
theorem ofLe_mono_prefix {bs cs : List UInt8} (h : bs <+: cs) : ofLe bs ≤ ofLe cs := by
  induction bs generalizing cs with
  | nil => exact Nat.zero_le _
  | cons b bs ih =>
    obtain ⟨ds, rfl⟩ := h
    have hrest : ofLe bs ≤ ofLe (bs ++ ds) := ih (List.prefix_append bs ds)
    rw [List.cons_append, ofLe, ofLe]
    omega

/-- A number read into a zeroed variable is at most the number in the file. -/
theorem Source.At.ofLe_readInto_le {file : List UInt8} {n : ℕ} {s : Source UInt8}
    (h : s.At file n) (w : ℕ) :
    ofLe (s.readInto (le w 0)).1 ≤ ofLe ((file.drop n).take w) := by
  obtain hf | rfl := h
  · rw [Source.readInto_of_failed hf, le_zero, ofLe_replicate]
    exact Nat.zero_le _
  · simp only [Source.readInto, Bool.false_eq_true, if_false, le_zero, List.drop_replicate,
      ofLe_append_zeros, List.length_replicate]
    exact Nat.le_refl _

end Streams
