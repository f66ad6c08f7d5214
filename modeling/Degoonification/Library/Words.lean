import Mathlib.Data.List.Infix
import Mathlib.Data.Set.Insert

/-! Sets of words under the prefix order. A set covers a word when one of its
members is a prefix of it; the minimal words of a set cover exactly what the set
covers, form a prefix-free set, and can be maintained one word at a time without
keeping the words that are not minimal. -/

namespace Words

variable {α : Type*} {S T M : Set (List α)} {p q w : List α}

def Covers (S : Set (List α)) (w : List α) : Prop := ∃ p ∈ S, p <+: w

/-- The words of `S` with no other word of `S` as a prefix. -/
def minimal (S : Set (List α)) : Set (List α) := {p | p ∈ S ∧ ∀ q ∈ S, q <+: p → q = p}

def PrefixFree (M : Set (List α)) : Prop := ∀ p ∈ M, ∀ q ∈ M, p <+: q → p = q

/-- One insertion into a prefix-free set: a covered word changes nothing, any
other word replaces the words it is a prefix of. -/
def insertMinimal (p : List α) (M : Set (List α)) : Set (List α) :=
  {q | Covers M p ∧ q ∈ M ∨ ¬ Covers M p ∧ (q = p ∨ q ∈ M ∧ ¬ p <+: q)}

theorem mem_minimal : p ∈ minimal S ↔ p ∈ S ∧ ∀ q ∈ S, q <+: p → q = p := Iff.rfl

theorem mem_insertMinimal : q ∈ insertMinimal p M ↔
    Covers M p ∧ q ∈ M ∨ ¬ Covers M p ∧ (q = p ∨ q ∈ M ∧ ¬ p <+: q) := Iff.rfl

theorem covers_of_mem (h : p ∈ S) : Covers S p := ⟨p, h, List.prefix_refl p⟩

theorem Covers.mono (hST : S ⊆ T) (h : Covers S w) : Covers T w := by
  obtain ⟨p, hp, hpw⟩ := h
  exact ⟨p, hST hp, hpw⟩

theorem minimal_subset (S : Set (List α)) : minimal S ⊆ S := fun _ h => h.1

theorem prefixFree_minimal (S : Set (List α)) : PrefixFree (minimal S) :=
  fun p hp _ hq hpq => hq.2 p hp.1 hpq

/-- Below every word of `S` lies a minimal one: descend by length. -/
theorem exists_minimal_prefix : ∀ (n : ℕ) (p : List α), p.length ≤ n → p ∈ S →
    ∃ q ∈ minimal S, q <+: p
  | 0, p, hn, hp => by
    obtain rfl : p = [] := List.length_eq_zero_iff.mp (Nat.le_zero.mp hn)
    exact ⟨[], ⟨hp, fun q _ hq => List.prefix_nil.mp hq⟩, List.prefix_refl _⟩
  | n + 1, p, hn, hp => by
    by_cases hmin : ∀ q ∈ S, q <+: p → q = p
    · exact ⟨p, ⟨hp, hmin⟩, List.prefix_refl p⟩
    · push Not at hmin
      obtain ⟨q, hq, hqp, hne⟩ := hmin
      have hlt : q.length < p.length :=
        lt_of_le_of_ne hqp.length_le fun he => hne (hqp.eq_of_length he)
      obtain ⟨r, hr, hrq⟩ := exists_minimal_prefix n q (by omega) hq
      exact ⟨r, hr, hrq.trans hqp⟩

theorem covers_minimal : Covers (minimal S) w ↔ Covers S w := by
  constructor
  · exact Covers.mono (minimal_subset S)
  · rintro ⟨p, hp, hpw⟩
    obtain ⟨q, hq, hqp⟩ := exists_minimal_prefix p.length p le_rfl hp
    exact ⟨q, hq, hqp.trans hpw⟩

/-- Inserting into the minimal words gives the minimal words of the larger set. -/
theorem minimal_insert (p : List α) (S : Set (List α)) :
    minimal (insert p S) = insertMinimal p (minimal S) := by
  ext q
  simp only [mem_insertMinimal, covers_minimal, mem_minimal, Set.mem_insert_iff, forall_eq_or_imp]
  constructor
  · rintro ⟨hq, hpq, hmin⟩
    by_cases hc : Covers S p
    · refine Or.inl ⟨hc, ?_, hmin⟩
      rcases hq with rfl | hq
      · obtain ⟨r, hr, hrq⟩ := hc
        exact hmin r hr hrq ▸ hr
      · exact hq
    · refine Or.inr ⟨hc, ?_⟩
      rcases hq with rfl | hq
      · exact Or.inl rfl
      · by_cases hp : p <+: q
        · exact Or.inl (hpq hp).symm
        · exact Or.inr ⟨⟨hq, hmin⟩, hp⟩
  · rintro (⟨⟨r, hr, hrp⟩, hq, hmin⟩ | ⟨hc, rfl | ⟨⟨hq, hmin⟩, hp⟩⟩)
    · refine ⟨Or.inr hq, fun hpq => ?_, hmin⟩
      have hrq : r = q := hmin r hr (hrp.trans hpq)
      exact antisymm hpq (hrq ▸ hrp)
    · exact ⟨Or.inl rfl, fun _ => rfl, fun r hr hrq => absurd ⟨r, hr, hrq⟩ hc⟩
    · exact ⟨Or.inr hq, fun hpq => absurd hpq hp, hmin⟩

theorem minimal_empty : minimal (∅ : Set (List α)) = ∅ := by
  ext q
  simp [mem_minimal]

end Words
