import Mathlib.Algebra.Group.Nat.Defs
import Mathlib.Data.List.TakeWhile
import Mathlib.Tactic.Common

/-! Natural numbers as ASCII decimal digits: what is printed is made of digits
only, and its value is the number. -/

namespace Decimal

/-- `'0'` to `'9'`. -/
def isDigit (c : UInt8) : Bool := 48 ≤ c && c ≤ 57

/-- The digits of a number below `10 ^ fuel`, most significant first. -/
def digitsFrom : ℕ → ℕ → List UInt8
  | 0, _ => []
  | fuel + 1, n =>
    if n < 10 then [UInt8.ofNat (48 + n)]
    else digitsFrom fuel (n / 10) ++ [UInt8.ofNat (48 + n % 10)]

def digits (n : ℕ) : List UInt8 := digitsFrom (n + 1) n

/-- The value of a string of digits. -/
def value (ds : List UInt8) : ℕ := ds.foldl (fun v c => 10 * v + (c.toNat - 48)) 0

theorem toNat_digit {d : ℕ} (h : d < 10) : (UInt8.ofNat (48 + d)).toNat = 48 + d :=
  UInt8.toNat_ofNat_of_lt' (by rw [UInt8.size]; omega)

theorem isDigit_digit {d : ℕ} (h : d < 10) : isDigit (UInt8.ofNat (48 + d)) = true := by
  simp only [isDigit, UInt8.le_iff_toNat_le, toNat_digit h, UInt8.reduceToNat, Bool.and_eq_true,
    decide_eq_true_eq]
  omega

theorem value_append_singleton (ds : List UInt8) (c : UInt8) :
    value (ds ++ [c]) = 10 * value ds + (c.toNat - 48) := List.foldl_append

theorem digitsFrom_spec {fuel n : ℕ} (h : n < fuel) :
    value (digitsFrom fuel n) = n ∧ (∀ c ∈ digitsFrom fuel n, isDigit c = true) ∧
      digitsFrom fuel n ≠ [] := by
  induction fuel generalizing n with
  | zero => exact absurd h (Nat.not_lt_zero n)
  | succ fuel ih =>
    rw [digitsFrom]
    split_ifs with hn
    · refine ⟨?_, List.forall_mem_singleton.mpr (isDigit_digit hn), List.cons_ne_nil _ _⟩
      have hvalue := value_append_singleton [] (UInt8.ofNat (48 + n))
      rw [List.nil_append, toNat_digit hn, Nat.add_sub_cancel_left] at hvalue
      rw [hvalue, value, List.foldl_nil, Nat.mul_zero, Nat.zero_add]
    · obtain ⟨hvalue, hdigits, -⟩ := ih (n := n / 10) (by omega)
      have hlast : n % 10 < 10 := Nat.mod_lt _ (by decide)
      refine ⟨?_, fun c hc => ?_, List.append_ne_nil_of_right_ne_nil _ (List.cons_ne_nil _ _)⟩
      · rw [value_append_singleton, hvalue, toNat_digit hlast]
        omega
      · obtain hc | hc := List.mem_append.mp hc
        · exact hdigits c hc
        · obtain rfl := List.mem_singleton.mp hc
          exact isDigit_digit hlast

theorem value_digits (n : ℕ) : value (digits n) = n := (digitsFrom_spec n.lt_succ_self).1

theorem isDigit_of_mem_digits {n : ℕ} {c : UInt8} (h : c ∈ digits n) : isDigit c = true :=
  (digitsFrom_spec n.lt_succ_self).2.1 c h

theorem digits_ne_nil (n : ℕ) : digits n ≠ [] := (digitsFrom_spec n.lt_succ_self).2.2

theorem takeWhile_digits (n : ℕ) : (digits n).takeWhile isDigit = digits n :=
  List.takeWhile_eq_self_iff.mpr fun _ => isDigit_of_mem_digits

end Decimal
