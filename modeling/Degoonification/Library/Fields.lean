import Mathlib.Data.List.DropRight
import Mathlib.Tactic.Common

/-! The non-empty fields of a list between separators, and trimming at both ends. The
fields on the two sides of a separator are the fields of the whole, and a map that keeps
the separators apart from the rest maps the fields. -/

namespace Fields

variable {α : Type*} [DecidableEq α] {x : α}

/-- The non-empty stretches between the `x`. -/
def fields (x : α) (s : List α) : List (List α) := (s.splitOn x).filter fun f => f ≠ []

/-- Without a separator there is one field at most. -/
theorem fields_of_notMem {s : List α} (h : x ∉ s) : fields x s = if s = [] then [] else [s] := by
  rw [fields, List.splitOn_eq_singleton h]
  split_ifs with hs <;> simp [hs]

theorem fields_append_cons (s t : List α) : fields x (s ++ x :: t) = fields x s ++ fields x t := by
  rw [fields, List.splitOn_append_cons_self, List.filter_append]
  rfl

theorem splitOn_map {f : α → α} (hf : ∀ c, f c = x ↔ c = x) (s : List α) :
    (s.map f).splitOn x = (s.splitOn x).map (List.map f) := by
  induction s with
  | nil => rfl
  | cons c s ih =>
    rw [List.map_cons, List.splitOn_cons_eq_if_modifyHead, List.splitOn_cons_eq_if_modifyHead, ih]
    by_cases hc : c = x
    · simp [hc, (hf x).mpr rfl]
    · obtain ⟨l, ls, hls⟩ := List.exists_cons_of_ne_nil (List.splitOn_ne_nil x s)
      simp [hc, mt (hf c).mp hc, hls]

theorem fields_map {f : α → α} (hf : ∀ c, f c = x ↔ c = x) (s : List α) :
    fields x (s.map f) = (fields x s).map (List.map f) := by
  rw [fields, splitOn_map hf, fields, List.filter_map]
  congr 1
  refine List.filter_congr fun l _ => ?_
  simp

/-- Lines that are each ended by a separator come apart again, with nothing behind them. -/
theorem splitOn_flatMap_concat {lines : List (List α)} (h : ∀ l ∈ lines, x ∉ l) :
    (lines.flatMap (· ++ [x])).splitOn x = lines ++ [[]] := by
  induction lines with
  | nil => exact List.splitOn_nil x
  | cons l lines ih =>
    obtain ⟨hl, hlines⟩ := List.forall_mem_cons.mp h
    rw [List.flatMap_cons, List.append_assoc, List.singleton_append,
      List.splitOn_append_cons_self, List.splitOn_eq_singleton hl, ih hlines]
    rfl

/-! ### Trimming -/

/-- The list without a tail of `p` and then without a head of `q`. -/
def trim {α : Type*} (p q : α → Bool) (s : List α) : List α := (s.rdropWhile p).dropWhile q

variable {α : Type*} {p q : α → Bool}

theorem rdropWhile_append_of_forall {s t : List α} (h : ∀ c ∈ t, p c) :
    (s ++ t).rdropWhile p = s.rdropWhile p := by
  rw [List.rdropWhile, List.reverse_append, List.dropWhile_append_of_pos, List.rdropWhile]
  exact fun c hc => h c (List.mem_reverse.mp hc)

theorem trim_append {s t : List α} (h : ∀ c ∈ t, p c) : trim p q (s ++ t) = trim p q s := by
  rw [trim, rdropWhile_append_of_forall h, trim]

/-- Nothing goes from a list whose members pass neither test. -/
theorem trim_eq_self {s : List α} (hp : ∀ c ∈ s, p c = false) (hq : ∀ c ∈ s, q c = false) :
    trim p q s = s := by
  have hr : s.rdropWhile p = s := List.rdropWhile_eq_self_iff.mpr fun hne => by
    rw [hp _ (List.getLast_mem hne)]
    exact Bool.false_ne_true
  rw [trim, hr, List.dropWhile_eq_self_iff]
  intro hpos
  rw [hq _ (List.getElem_mem hpos)]
  exact Bool.false_ne_true

/-- A head and a last member that fail the tests keep what is between them. -/
theorem trim_append_eq_self {s t : List α} (hs : s ≠ []) (ht : t ≠ [])
    (hq : ∀ c ∈ s.head?, q c = false) (hp : ∀ c ∈ t, p c = false) :
    trim p q (s ++ t) = s ++ t := by
  obtain ⟨c, s, rfl⟩ := List.exists_cons_of_ne_nil hs
  have hr : (c :: s ++ t).rdropWhile p = c :: s ++ t :=
    List.rdropWhile_eq_self_iff.mpr fun hne => by
      rw [List.getLast_append_of_ne_nil hne ht, hp _ (List.getLast_mem ht)]
      exact Bool.false_ne_true
  rw [trim, hr]
  refine List.dropWhile_cons_of_neg ?_
  rw [hq c rfl]
  exact Bool.false_ne_true

/-- A head that both tests pass goes, whether or not the rest is trimmed away. -/
theorem trim_append_left {s t : List α} (hp : ∀ c ∈ s, p c) (hq : ∀ c ∈ s, q c) :
    trim p q (s ++ t) = trim p q t := by
  rw [trim, trim, List.rdropWhile, List.rdropWhile, List.reverse_append, List.dropWhile_append]
  split_ifs with hnil
  · have hs : s.reverse.dropWhile p = [] :=
      List.dropWhile_eq_nil_iff.mpr fun c hc => hp c (List.mem_reverse.mp hc)
    rw [hs, List.isEmpty_iff.mp hnil]
  · rw [List.reverse_append, List.reverse_reverse, List.dropWhile_append_of_pos hq]

theorem trim_map {β : Type*} {f : α → β} {p' q' : β → Bool} (hp : ∀ c, p' (f c) = p c)
    (hq : ∀ c, q' (f c) = q c) (s : List α) : trim p' q' (s.map f) = (trim p q s).map f := by
  have hp' : p' ∘ f = p := funext hp
  have hq' : q' ∘ f = q := funext hq
  rw [trim, List.rdropWhile, ← List.map_reverse, List.dropWhile_map, hp', ← List.map_reverse,
    List.dropWhile_map, hq', trim, List.rdropWhile]

end Fields
