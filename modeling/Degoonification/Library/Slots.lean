import Mathlib.Logic.Function.Basic
import Mathlib.Tactic.Common

/-! Resources that live behind the fields of an object: a field is filled with a new
resource, released, or overwritten without a release. Nothing is lost exactly if
only empty fields are filled and overwritten. -/

/-- What each field holds, the resources that are live, and the next one to come. -/
structure Slots (ι : Type*) where
  held : ι → Option ℕ := fun _ => none
  live : ℕ → Bool := fun _ => false
  next : ℕ := 0

namespace Slots

variable {ι : Type*} [DecidableEq ι]

/-- The field gets a new resource. -/
def acquire (s : Slots ι) (i : ι) : Slots ι :=
  ⟨Function.update s.held i (some s.next), Function.update s.live s.next true, s.next + 1⟩

/-- The field becomes null, whatever it held. -/
def forget (s : Slots ι) (i : ι) : Slots ι := { s with held := Function.update s.held i none }

/-- The resource of the field is given back, if it holds one. -/
def release (s : Slots ι) (i : ι) : Slots ι :=
  match s.held i with
  | some h => { s.forget i with live := Function.update s.live h false }
  | none => s

omit [DecidableEq ι] in
/-- A field holds a live resource of its own. -/
structure Sound (s : Slots ι) : Prop where
  lt_next : ∀ h, s.live h = true → h < s.next
  live_held : ∀ i h, s.held i = some h → s.live h = true
  unshared : ∀ i j h, s.held i = some h → s.held j = some h → i = j

omit [DecidableEq ι] in
/-- Every live resource is behind a field. -/
def Kept (s : Slots ι) : Prop := ∀ h, s.live h = true → ∃ i, s.held i = some h

omit [DecidableEq ι] in
theorem sound_empty : Sound ({} : Slots ι) := ⟨nofun, nofun, nofun⟩

omit [DecidableEq ι] in
theorem kept_empty : Kept ({} : Slots ι) := nofun

@[simp] theorem held_acquire_self (s : Slots ι) (i : ι) : (s.acquire i).held i = some s.next :=
  Function.update_self ..

@[simp] theorem held_forget_self (s : Slots ι) (i : ι) : (s.forget i).held i = none :=
  Function.update_self ..

theorem held_acquire_of_ne (s : Slots ι) {i j : ι} (h : j ≠ i) :
    (s.acquire i).held j = s.held j := Function.update_of_ne h ..

theorem held_forget_of_ne (s : Slots ι) {i j : ι} (h : j ≠ i) :
    (s.forget i).held j = s.held j := Function.update_of_ne h ..

@[simp] theorem held_release_self (s : Slots ι) (i : ι) : (s.release i).held i = none := by
  unfold release
  split
  · exact held_forget_self s i
  · assumption

theorem held_release_of_ne (s : Slots ι) {i j : ι} (h : j ≠ i) :
    (s.release i).held j = s.held j := by
  unfold release
  split
  · exact held_forget_of_ne s h
  · rfl

/-- Where a field that was emptied is found filled, it is another one. -/
theorem held_of_held_forget {s : Slots ι} {i j : ι} {h : ℕ} (hj : (s.forget i).held j = some h) :
    j ≠ i ∧ s.held j = some h := by
  have hne : j ≠ i := by
    rintro rfl
    rw [held_forget_self] at hj
    cases hj
  exact ⟨hne, (held_forget_of_ne s hne).symm.trans hj⟩

theorem held_of_held_release {s : Slots ι} {i j : ι} {h : ℕ}
    (hj : (s.release i).held j = some h) : j ≠ i ∧ s.held j = some h := by
  have hne : j ≠ i := by
    rintro rfl
    rw [held_release_self] at hj
    cases hj
  exact ⟨hne, (held_release_of_ne s hne).symm.trans hj⟩

theorem held_of_held_acquire {s : Slots ι} {i j : ι} {h : ℕ}
    (hj : (s.acquire i).held j = some h) :
    (j = i ∧ h = s.next) ∨ (j ≠ i ∧ s.held j = some h) := by
  by_cases hne : j = i
  · rw [hne, held_acquire_self] at hj
    exact .inl ⟨hne, (Option.some.inj hj).symm⟩
  · exact .inr ⟨hne, (held_acquire_of_ne s hne).symm.trans hj⟩

theorem live_acquire {s : Slots ι} {i : ι} {h : ℕ} :
    (s.acquire i).live h = true ↔ h = s.next ∨ s.live h = true := by
  unfold acquire
  by_cases hh : h = s.next
  · simp [hh]
  · simp [hh]

theorem live_release {s : Slots ι} {i : ι} {h : ℕ} :
    (s.release i).live h = true ↔ s.held i ≠ some h ∧ s.live h = true := by
  unfold release
  cases hi : s.held i with
  | none => simp
  | some h' =>
    by_cases hh : h = h'
    · simp [hh]
    · simp [Function.update_of_ne hh, Ne.symm hh]

theorem Sound.acquire {s : Slots ι} (hs : s.Sound) (i : ι) : (s.acquire i).Sound := by
  have hfresh : ∀ {j}, s.held j ≠ some s.next := fun hj =>
    absurd (hs.lt_next _ (hs.live_held _ _ hj)) (Nat.lt_irrefl _)
  refine ⟨fun h hh => ?_, fun j h hj => ?_, fun j k h hj hk => ?_⟩
  · rcases live_acquire.mp hh with rfl | hh
    · exact Nat.lt_succ_self _
    · exact Nat.lt_succ_of_lt (hs.lt_next h hh)
  · rcases held_of_held_acquire hj with ⟨-, rfl⟩ | ⟨-, hj⟩
    · exact live_acquire.mpr (.inl rfl)
    · exact live_acquire.mpr (.inr (hs.live_held j h hj))
  · rcases held_of_held_acquire hj with ⟨rfl, rfl⟩ | ⟨-, hj⟩
    · rcases held_of_held_acquire hk with ⟨rfl, -⟩ | ⟨-, hk⟩
      · rfl
      · exact absurd hk hfresh
    · rcases held_of_held_acquire hk with ⟨-, rfl⟩ | ⟨-, hk⟩
      · exact absurd hj hfresh
      · exact hs.unshared j k h hj hk

theorem Sound.forget {s : Slots ι} (hs : s.Sound) (i : ι) : (s.forget i).Sound where
  lt_next := hs.lt_next
  live_held j h hj := hs.live_held j h (held_of_held_forget hj).2
  unshared j k h hj hk :=
    hs.unshared j k h (held_of_held_forget hj).2 (held_of_held_forget hk).2

theorem next_release (s : Slots ι) (i : ι) : (s.release i).next = s.next := by
  unfold release
  split <;> rfl

theorem Sound.release {s : Slots ι} (hs : s.Sound) (i : ι) : (s.release i).Sound where
  lt_next h hh := by
    rw [next_release]
    exact hs.lt_next h (live_release.mp hh).2
  live_held j h hj := by
    obtain ⟨hne, hj⟩ := held_of_held_release hj
    exact live_release.mpr ⟨fun hi => hne (hs.unshared j i h hj hi), hs.live_held j h hj⟩
  unshared j k h hj hk :=
    hs.unshared j k h (held_of_held_release hj).2 (held_of_held_release hk).2

/-! ### Several fields -/

def forgetAll (s : Slots ι) (l : List ι) : Slots ι := l.foldl forget s

def releaseAll (s : Slots ι) (l : List ι) : Slots ι := l.foldl release s

theorem held_forgetAll_of_none {s : Slots ι} {i : ι} (h : s.held i = none) (l : List ι) :
    (s.forgetAll l).held i = none := by
  induction l generalizing s with
  | nil => exact h
  | cons j l ih =>
    refine ih ?_
    by_cases hij : i = j
    · rw [hij, held_forget_self]
    · rw [held_forget_of_ne s hij, h]

theorem held_forgetAll {l : List ι} {i : ι} (hi : i ∈ l) (s : Slots ι) :
    (s.forgetAll l).held i = none := by
  induction l generalizing s with
  | nil => cases hi
  | cons j l ih =>
    rcases List.mem_cons.mp hi with rfl | hi
    · exact held_forgetAll_of_none (held_forget_self s i) l
    · exact ih hi (s.forget j)

theorem held_releaseAll_of_none {s : Slots ι} {i : ι} (h : s.held i = none) (l : List ι) :
    (s.releaseAll l).held i = none := by
  induction l generalizing s with
  | nil => exact h
  | cons j l ih =>
    refine ih ?_
    by_cases hij : i = j
    · rw [hij, held_release_self]
    · rw [held_release_of_ne s hij, h]

theorem held_releaseAll {l : List ι} {i : ι} (hi : i ∈ l) (s : Slots ι) :
    (s.releaseAll l).held i = none := by
  induction l generalizing s with
  | nil => cases hi
  | cons j l ih =>
    rcases List.mem_cons.mp hi with rfl | hi
    · exact held_releaseAll_of_none (held_release_self s i) l
    · exact ih hi (s.release j)

theorem Sound.forgetAll {s : Slots ι} (hs : s.Sound) (l : List ι) : (s.forgetAll l).Sound := by
  induction l generalizing s with
  | nil => exact hs
  | cons j l ih => exact ih (hs.forget j)

theorem Sound.releaseAll {s : Slots ι} (hs : s.Sound) (l : List ι) : (s.releaseAll l).Sound := by
  induction l generalizing s with
  | nil => exact hs
  | cons j l ih => exact ih (hs.release j)

/-! ### What is new -/

omit [DecidableEq ι] in
/-- What the fields hold later they held before, or it is new. -/
def Extends (s s' : Slots ι) : Prop :=
  s.next ≤ s'.next ∧ ∀ i h, s'.held i = some h → s.held i = some h ∨ s.next ≤ h

omit [DecidableEq ι] in
theorem extends_refl (s : Slots ι) : s.Extends s := ⟨Nat.le_refl _, fun _ _ => .inl⟩

theorem Extends.acquire {s s' : Slots ι} (h : s.Extends s') (i : ι) : s.Extends (s'.acquire i) := by
  refine ⟨Nat.le_succ_of_le h.1, fun j n hj => ?_⟩
  rcases held_of_held_acquire hj with ⟨-, rfl⟩ | ⟨-, hj⟩
  · exact .inr h.1
  · exact h.2 j n hj

theorem Extends.forget {s s' : Slots ι} (h : s.Extends s') (i : ι) : s.Extends (s'.forget i) :=
  ⟨h.1, fun j n hj => h.2 j n (held_of_held_forget hj).2⟩

theorem Extends.release {s s' : Slots ι} (h : s.Extends s') (i : ι) :
    s.Extends (s'.release i) :=
  ⟨(next_release s' i).symm ▸ h.1, fun j n hj => h.2 j n (held_of_held_release hj).2⟩

theorem Extends.forgetAll {s s' : Slots ι} (h : s.Extends s') (l : List ι) :
    s.Extends (s'.forgetAll l) := by
  induction l generalizing s' with
  | nil => exact h
  | cons j l ih => exact ih (h.forget j)

theorem Extends.releaseAll {s s' : Slots ι} (h : s.Extends s') (l : List ι) :
    s.Extends (s'.releaseAll l) := by
  induction l generalizing s' with
  | nil => exact h
  | cons j l ih => exact ih (h.release j)

/-! ### What is lost -/

theorem kept_forget_iff {s : Slots ι} (hs : s.Sound) {i : ι} :
    (s.forget i).Kept ↔ s.Kept ∧ s.held i = none := by
  constructor
  · intro hk
    refine ⟨fun h hh => ?_, ?_⟩
    · obtain ⟨j, hj⟩ := hk h hh
      exact ⟨j, (held_of_held_forget hj).2⟩
    · by_contra hi
      obtain ⟨h, hi⟩ := Option.ne_none_iff_exists'.mp hi
      obtain ⟨j, hj⟩ := hk h (hs.live_held i h hi)
      obtain ⟨hne, hj⟩ := held_of_held_forget hj
      exact hne (hs.unshared j i h hj hi)
  · rintro ⟨hk, hi⟩ h hh
    obtain ⟨j, hj⟩ := hk h hh
    have hne : j ≠ i := by
      rintro rfl
      rw [hi] at hj
      cases hj
    exact ⟨j, (held_forget_of_ne s hne).trans hj⟩

theorem kept_acquire_iff {s : Slots ι} (hs : s.Sound) {i : ι} :
    (s.acquire i).Kept ↔ s.Kept ∧ s.held i = none := by
  rw [← kept_forget_iff hs]
  constructor
  · intro hk h hh
    obtain ⟨j, hj⟩ := hk h (live_acquire.mpr (.inr hh))
    rcases held_of_held_acquire hj with ⟨-, rfl⟩ | ⟨hne, hj⟩
    · exact absurd (hs.lt_next _ hh) (Nat.lt_irrefl _)
    · exact ⟨j, (held_forget_of_ne s hne).trans hj⟩
  · intro hk h hh
    rcases live_acquire.mp hh with rfl | hh
    · exact ⟨i, held_acquire_self s i⟩
    · obtain ⟨j, hj⟩ := hk h hh
      obtain ⟨hne, hj⟩ := held_of_held_forget hj
      exact ⟨j, (held_acquire_of_ne s hne).trans hj⟩

theorem kept_release_iff {s : Slots ι} {i : ι} : (s.release i).Kept ↔ s.Kept := by
  constructor
  · intro hk h hh
    by_cases hi : s.held i = some h
    · exact ⟨i, hi⟩
    · obtain ⟨j, hj⟩ := hk h (live_release.mpr ⟨hi, hh⟩)
      exact ⟨j, (held_of_held_release hj).2⟩
  · intro hk h hh
    obtain ⟨hi, hh⟩ := live_release.mp hh
    obtain ⟨j, hj⟩ := hk h hh
    refine ⟨j, (held_release_of_ne s ?_).trans hj⟩
    rintro rfl
    exact hi hj

/-- Overwriting several fields loses nothing exactly if none of them holds anything. -/
theorem kept_forgetAll_iff {s : Slots ι} (hs : s.Sound) {l : List ι} :
    (s.forgetAll l).Kept ↔ s.Kept ∧ ∀ i ∈ l, s.held i = none := by
  induction l generalizing s with
  | nil => exact (and_iff_left nofun).symm
  | cons j l ih =>
    have hrest : s.held j = none → ((∀ i ∈ l, (s.forget j).held i = none) ↔
        ∀ i ∈ l, s.held i = none) := by
      intro hj
      refine forall₂_congr fun i _ => ?_
      by_cases hij : i = j
      · rw [hij, held_forget_self, hj]
      · rw [held_forget_of_ne s hij]
    refine (ih (hs.forget j)).trans ?_
    rw [kept_forget_iff hs, List.forall_mem_cons, and_assoc]
    exact and_congr_right fun _ => and_congr_right hrest

theorem kept_releaseAll_iff {s : Slots ι} {l : List ι} : (s.releaseAll l).Kept ↔ s.Kept := by
  induction l generalizing s with
  | nil => exact Iff.rfl
  | cons j l ih => exact ih.trans kept_release_iff

omit [DecidableEq ι] in
/-- Where every field is null and nothing was lost, nothing is live. -/
theorem Kept.not_live {s : Slots ι} (hk : s.Kept) (hnone : ∀ i, s.held i = none) (h : ℕ) :
    s.live h = false := by
  refine Bool.eq_false_iff.mpr fun hh => ?_
  obtain ⟨i, hi⟩ := hk h hh
  rw [hnone i] at hi
  cases hi

end Slots
