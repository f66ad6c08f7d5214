import Mathlib.Data.List.Forall2
import Mathlib.Data.Nat.Basic
import Mathlib.Order.Basic
import Mathlib.Tactic.Common

/-! Agglomeration of a list by repeated sweeps. A sweep takes the items in order;
each one absorbs every later item it touches, growing as it goes, and what it
skipped is swept after it. Sweeps are repeated until one absorbs nothing. Every
sweep that absorbs something shortens the list, so the loop ends. Under any
preorder in which a union lies above both its parts each input lies below some
output; the inputs fall into one group for each output, and no output touches a
later one. -/

namespace Agglomeration

variable {β : Type*} (touch : β → β → Bool) (unite : β → β → β)

/-- `current` runs through the list: the grown item, the items it skipped, and
whether it absorbed any. -/
def absorb (current : β) : List β → β × List β × Bool
  | [] => (current, [], false)
  | b :: bs =>
    if touch current b then
      let r := absorb (unite current b) bs
      (r.1, r.2.1, true)
    else
      let r := absorb current bs
      (r.1, b :: r.2.1, r.2.2)

theorem length_absorb_le (current : β) (bs : List β) :
    (absorb touch unite current bs).2.1.length ≤ bs.length := by
  induction bs generalizing current with
  | nil => exact le_rfl
  | cons b bs ih =>
    simp only [absorb]
    split_ifs
    · exact (ih _).trans (Nat.le_succ _)
    · exact Nat.succ_le_succ (ih _)

/-- Absorbing something leaves fewer items. -/
theorem length_absorb_lt {current : β} {bs : List β}
    (h : (absorb touch unite current bs).2.2 = true) :
    (absorb touch unite current bs).2.1.length < bs.length := by
  induction bs generalizing current with
  | nil => simp [absorb] at h
  | cons b bs ih =>
    simp only [absorb] at h ⊢
    split_ifs at h ⊢ with ht
    · exact Nat.lt_succ_of_le (length_absorb_le touch unite _ bs)
    · exact Nat.succ_lt_succ (ih h)

/-- One pass over the list and whether it absorbed anything. -/
def sweep : List β → List β × Bool
  | [] => ([], false)
  | b :: bs =>
    let r := absorb touch unite b bs
    let s := sweep r.2.1
    (r.1 :: s.1, r.2.2 || s.2)
termination_by bs => bs.length
decreasing_by exact Nat.lt_succ_of_le (length_absorb_le touch unite b bs)

theorem sweep_cons (b : β) (bs : List β) : sweep touch unite (b :: bs) =
    ((absorb touch unite b bs).1 :: (sweep touch unite (absorb touch unite b bs).2.1).1,
      (absorb touch unite b bs).2.2 || (sweep touch unite (absorb touch unite b bs).2.1).2) := by
  rw [sweep]

theorem length_sweep_le (bs : List β) : (sweep touch unite bs).1.length ≤ bs.length := by
  match bs with
  | [] => simp [sweep]
  | b :: bs =>
    have ha := length_absorb_le touch unite b bs
    have ih := length_sweep_le (absorb touch unite b bs).2.1
    rw [sweep_cons]
    exact Nat.succ_le_succ (ih.trans ha)
termination_by bs.length
decreasing_by exact Nat.lt_succ_of_le ha

/-- A sweep that absorbs something shortens the list. -/
theorem length_sweep_lt (bs : List β) (h : (sweep touch unite bs).2 = true) :
    (sweep touch unite bs).1.length < bs.length := by
  match bs with
  | [] => simp [sweep] at h
  | b :: bs =>
    have ha := length_absorb_le touch unite b bs
    rw [sweep_cons] at h ⊢
    rcases Bool.or_eq_true_iff.mp h with h | h
    · have hs := length_sweep_le touch unite (absorb touch unite b bs).2.1
      exact Nat.succ_lt_succ (hs.trans_lt (length_absorb_lt touch unite h))
    · exact Nat.succ_lt_succ ((length_sweep_lt _ h).trans_le ha)
termination_by bs.length
decreasing_by exact Nat.lt_succ_of_le ha

/-- Sweep until nothing is absorbed. -/
def agglomerate (bs : List β) : List β :=
  if _h : (sweep touch unite bs).2 = true then agglomerate (sweep touch unite bs).1
  else (sweep touch unite bs).1
termination_by bs.length
decreasing_by exact length_sweep_lt touch unite bs _h

/-! ### A sweep with marks -/

/-- `absorb` over a list in which absorbed items stay, marked as consumed. -/
def absorbMarked (current : β) : List (β × Bool) → β × List (β × Bool) × Bool
  | [] => (current, [], false)
  | (b, consumed) :: bs =>
    if consumed then
      let r := absorbMarked current bs
      (r.1, (b, true) :: r.2.1, r.2.2)
    else if touch current b then
      let r := absorbMarked (unite current b) bs
      (r.1, (b, true) :: r.2.1, true)
    else
      let r := absorbMarked current bs
      (r.1, (b, false) :: r.2.1, r.2.2)

theorem length_absorbMarked (current : β) (bs : List (β × Bool)) :
    (absorbMarked touch unite current bs).2.1.length = bs.length := by
  induction bs generalizing current with
  | nil => rfl
  | cons b bs ih =>
    simp only [absorbMarked]
    split_ifs <;> exact congrArg (· + 1) (ih _)

def sweepMarked : List (β × Bool) → List β × Bool
  | [] => ([], false)
  | (b, consumed) :: bs =>
    if consumed then sweepMarked bs
    else
      let r := absorbMarked touch unite b bs
      let s := sweepMarked r.2.1
      (r.1 :: s.1, r.2.2 || s.2)
termination_by bs => bs.length
decreasing_by
  · exact Nat.lt_succ_self _
  · exact Nat.lt_succ_of_le (length_absorbMarked touch unite b bs).le

/-- The items not consumed. -/
def unconsumed (bs : List (β × Bool)) : List β :=
  bs.filterMap fun p => if p.2 then none else some p.1

theorem absorbMarked_unconsumed (current : β) (bs : List (β × Bool)) :
    (absorbMarked touch unite current bs).1 = (absorb touch unite current (unconsumed bs)).1 ∧
      unconsumed (absorbMarked touch unite current bs).2.1 =
        (absorb touch unite current (unconsumed bs)).2.1 ∧
      (absorbMarked touch unite current bs).2.2 =
        (absorb touch unite current (unconsumed bs)).2.2 := by
  induction bs generalizing current with
  | nil => exact ⟨rfl, rfl, rfl⟩
  | cons b bs ih =>
    obtain ⟨b, consumed⟩ := b
    cases consumed with
    | true => exact ih current
    | false =>
      have hcons : unconsumed ((b, false) :: bs) = b :: unconsumed bs := rfl
      simp only [absorbMarked, hcons, absorb, Bool.false_eq_true, if_false]
      split_ifs with htouch
      · obtain ⟨h₁, h₂, -⟩ := ih (unite current b)
        exact ⟨h₁, h₂, rfl⟩
      · obtain ⟨h₁, h₂, h₃⟩ := ih current
        exact ⟨h₁, congrArg (b :: ·) h₂, h₃⟩

/-- Marking what is absorbed sweeps like removing it. -/
theorem sweepMarked_eq (bs : List (β × Bool)) :
    sweepMarked touch unite bs = sweep touch unite (unconsumed bs) := by
  match bs with
  | [] => simp [sweepMarked, unconsumed, sweep]
  | (b, true) :: bs =>
    rw [sweepMarked, if_pos rfl, sweepMarked_eq bs]
    rfl
  | (b, false) :: bs =>
    have hcons : unconsumed ((b, false) :: bs) = b :: unconsumed bs := rfl
    obtain ⟨h₁, h₂, h₃⟩ := absorbMarked_unconsumed touch unite b bs
    have ih := sweepMarked_eq (absorbMarked touch unite b bs).2.1
    rw [sweepMarked, if_neg Bool.false_ne_true, hcons, sweep_cons]
    dsimp only
    rw [ih, h₁, h₂, h₃]
termination_by bs.length
decreasing_by
  · exact Nat.lt_succ_self _
  · exact Nat.lt_succ_of_le (length_absorbMarked touch unite b bs).le

/-! ### Fixed points -/

variable {touch unite}

theorem absorb_eq_self {current : β} {bs : List β}
    (h : (absorb touch unite current bs).2.2 = false) :
    absorb touch unite current bs = (current, bs, false) ∧ ∀ b ∈ bs, touch current b = false := by
  induction bs with
  | nil => exact ⟨rfl, fun b hb => nomatch hb⟩
  | cons b bs ih =>
    simp only [absorb] at h ⊢
    split_ifs at h ⊢ with htouch
    obtain ⟨heq, hbs⟩ := ih h
    rw [heq]
    exact ⟨rfl, List.forall_mem_cons.mpr ⟨Bool.eq_false_iff.mpr htouch, hbs⟩⟩

theorem absorb_of_untouched {current : β} {bs : List β} (h : ∀ b ∈ bs, touch current b = false) :
    absorb touch unite current bs = (current, bs, false) := by
  induction bs with
  | nil => rfl
  | cons b bs ih =>
    obtain ⟨hb, hbs⟩ := List.forall_mem_cons.mp h
    rw [absorb, if_neg (by simp [hb]), ih hbs]

/-- A sweep absorbs nothing exactly if no item touches a later one. -/
theorem sweep_eq_self_iff {bs : List β} :
    (sweep touch unite bs).2 = false ↔ bs.Pairwise fun a b => touch a b = false := by
  induction bs with
  | nil => simp [sweep]
  | cons b bs ih =>
    rw [sweep_cons, List.pairwise_cons, Bool.or_eq_false_iff]
    constructor
    · rintro ⟨h, hs⟩
      obtain ⟨heq, hbs⟩ := absorb_eq_self h
      rw [heq] at hs
      exact ⟨hbs, ih.mp hs⟩
    · rintro ⟨hbs, hs⟩
      rw [absorb_of_untouched hbs]
      exact ⟨rfl, ih.mpr hs⟩

theorem sweep_of_untouched {bs : List β} (h : bs.Pairwise fun a b => touch a b = false) :
    (sweep touch unite bs).1 = bs := by
  induction bs with
  | nil => simp [sweep]
  | cons b bs ih =>
    obtain ⟨hb, hbs⟩ := List.pairwise_cons.mp h
    rw [sweep_cons, absorb_of_untouched hb, ih hbs]

theorem agglomerate_of_untouched {bs : List β} (h : bs.Pairwise fun a b => touch a b = false) :
    agglomerate touch unite bs = bs := by
  rw [agglomerate, dif_neg (by simp [sweep_eq_self_iff.mpr h]), sweep_of_untouched h]

/-- No output touches a later one. -/
theorem pairwise_agglomerate (bs : List β) :
    (agglomerate touch unite bs).Pairwise fun a b => touch a b = false := by
  rw [agglomerate]
  split_ifs with h
  · exact pairwise_agglomerate _
  · have h := sweep_eq_self_iff.mp (Bool.eq_false_iff.mpr h)
    rwa [sweep_of_untouched h]
termination_by bs.length
decreasing_by exact length_sweep_lt touch unite bs h

/-! ### Groups of inputs -/

section Groups

variable (touch) {α : Type*} {Hull : List α → β → Prop}
  (hunite : ∀ {g g' b b'}, Hull g b → Hull g' b' → Hull (g ++ g') (unite b b'))
include hunite

/-- The items absorbed join the group of the current one. -/
theorem exists_groups_absorb {g : List α} {gs : List (List α)} {current : β} {bs : List β}
    (hg : Hull g current) (hgs : List.Forall₂ Hull gs bs) :
    ∃ g' gs', Hull g' (absorb touch unite current bs).1 ∧
      List.Forall₂ Hull gs' (absorb touch unite current bs).2.1 ∧
      (g' ++ gs'.flatten).Perm (g ++ gs.flatten) := by
  induction hgs generalizing g current with
  | nil => exact ⟨g, [], hg, .nil, .rfl⟩
  | @cons g₁ b gs bs hb hgs ih =>
    simp only [absorb]
    split_ifs
    · obtain ⟨g', gs', hg', hgs', hperm⟩ := ih (hunite hg hb)
      refine ⟨g', gs', hg', hgs', hperm.trans ?_⟩
      rw [List.flatten_cons, List.append_assoc]
    · obtain ⟨g', gs', hg', hgs', hperm⟩ := ih hg
      refine ⟨g', g₁ :: gs', hg', .cons hb hgs', ?_⟩
      rw [List.flatten_cons, List.flatten_cons]
      exact (List.perm_append_comm_assoc g' g₁ _).trans
        ((hperm.append_left g₁).trans (List.perm_append_comm_assoc g₁ g _))

theorem exists_groups_sweep (bs : List β) {gs : List (List α)} (hgs : List.Forall₂ Hull gs bs) :
    ∃ gs', List.Forall₂ Hull gs' (sweep touch unite bs).1 ∧ gs'.flatten.Perm gs.flatten := by
  match bs, hgs with
  | [], .nil => exact ⟨[], by simp [sweep], .rfl⟩
  | b :: bs, .cons (a := g) hb hbs =>
    have ha := length_absorb_le touch unite b bs
    obtain ⟨g', gs', hg', hgs', hperm⟩ := exists_groups_absorb touch hunite hb hbs
    obtain ⟨gs'', hgs'', hperm'⟩ := exists_groups_sweep _ hgs'
    rw [sweep_cons]
    exact ⟨g' :: gs'', .cons hg' hgs'', (hperm'.append_left g').trans hperm⟩
termination_by bs.length
decreasing_by exact Nat.lt_succ_of_le ha

/-- The inputs fall into groups, one for each output. -/
theorem exists_groups_agglomerate (bs : List β) {gs : List (List α)}
    (hgs : List.Forall₂ Hull gs bs) :
    ∃ gs', List.Forall₂ Hull gs' (agglomerate touch unite bs) ∧ gs'.flatten.Perm gs.flatten := by
  obtain ⟨gs', hgs', hperm⟩ := exists_groups_sweep touch hunite bs hgs
  rw [agglomerate]
  split_ifs with h
  · obtain ⟨gs'', hgs'', hperm'⟩ := exists_groups_agglomerate _ hgs'
    exact ⟨gs'', hgs'', hperm'.trans hperm⟩
  · exact ⟨gs', hgs', hperm⟩
termination_by bs.length
decreasing_by exact length_sweep_lt touch unite bs h

end Groups

/-! ### Outputs above inputs -/

/-- A preorder in which a union lies above both its parts. -/
structure Above (unite : β → β → β) (le : β → β → Prop) : Prop where
  refl : ∀ a, le a a
  trans : ∀ {a b c}, le a b → le b c → le a c
  left : ∀ a b, le a (unite a b)
  right : ∀ a b, le b (unite a b)

variable {le : β → β → Prop} (hle : Above unite le)
include hle

theorem Above.le_absorb (current : β) (bs : List β) :
    le current (absorb touch unite current bs).1 := by
  induction bs generalizing current with
  | nil => exact hle.refl current
  | cons b bs ih =>
    simp only [absorb]
    split_ifs
    · exact hle.trans (hle.left current b) (ih _)
    · exact ih _

/-- An item is absorbed or left over. -/
theorem Above.absorb_or_mem {current b : β} {bs : List β} (hb : b ∈ bs) :
    le b (absorb touch unite current bs).1 ∨ b ∈ (absorb touch unite current bs).2.1 := by
  induction bs generalizing current with
  | nil => simp at hb
  | cons b' bs ih =>
    simp only [absorb]
    split_ifs
    · rcases List.mem_cons.mp hb with rfl | hb
      · exact Or.inl (hle.trans (hle.right current b) (hle.le_absorb _ bs))
      · exact ih hb
    · rcases List.mem_cons.mp hb with rfl | hb
      · exact Or.inr List.mem_cons_self
      · exact (ih hb).imp_right (List.mem_cons_of_mem b')

theorem Above.exists_sweep {b : β} (bs : List β) (hb : b ∈ bs) :
    ∃ c ∈ (sweep touch unite bs).1, le b c := by
  match bs with
  | b' :: bs =>
    have ha := length_absorb_le touch unite b' bs
    rw [sweep_cons]
    have hmem : le b (absorb touch unite b' bs).1 ∨ b ∈ (absorb touch unite b' bs).2.1 := by
      rcases List.mem_cons.mp hb with rfl | hb
      · exact Or.inl (hle.le_absorb b bs)
      · exact hle.absorb_or_mem hb
    rcases hmem with h | h
    · exact ⟨_, List.mem_cons_self, h⟩
    · obtain ⟨c, hc, hbc⟩ := Above.exists_sweep _ h
      exact ⟨c, List.mem_cons_of_mem _ hc, hbc⟩
termination_by bs.length
decreasing_by exact Nat.lt_succ_of_le ha

/-- Every input lies below an output. -/
theorem Above.exists_agglomerate {b : β} (bs : List β) (hb : b ∈ bs) :
    ∃ c ∈ agglomerate touch unite bs, le b c := by
  have hswept : ∃ c ∈ (sweep touch unite bs).1, le b c := hle.exists_sweep bs hb
  obtain ⟨c, hc, hbc⟩ := hswept
  rw [agglomerate]
  split_ifs with h
  · obtain ⟨e, he, hce⟩ := Above.exists_agglomerate _ hc
    exact ⟨e, he, hle.trans hbc hce⟩
  · exact ⟨c, hc, hbc⟩
termination_by bs.length
decreasing_by exact length_sweep_lt touch unite bs h

end Agglomeration
