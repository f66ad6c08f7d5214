import Degoonification.Library.Runs
import Mathlib.Data.List.Forall2
import Mathlib.Data.List.Induction
import Mathlib.Logic.Function.Basic

/-! Objects behind handles. A client creates objects, calls them through its handles and
destroys them; the machine keeps them at addresses that an allocator chooses, and may give
an address out again once its object is destroyed. What the client expects is one object
for each handle, unrelated to the others. It gets that under every allocator exactly if it
leaves destroyed handles alone. -/

namespace Handles

/-- Objects with a constructor and methods. A method can end the process; on a null handle
it only has an answer. -/
structure Objects (α χ ω ρ : Type*) where
  new : χ → α
  act : α → ω → Option (α × ρ)
  null : ω → ρ

/-- The client's handles are numbered, and null before the first creation. -/
inductive Event (χ ω : Type*) where
  | create (v : ℕ) (c : χ)
  | call (v : ℕ) (op : ω)
  | destroy (v : ℕ)

def Event.handle {χ ω : Type*} : Event χ ω → ℕ
  | .create v _ | .call v _ | .destroy v => v

variable {α χ ω ρ : Type*}

/-! ### What the client expects -/

inductive Status (α : Type*) where
  | null
  | live (o : α)
  | gone

structure Spec (α ρ : Type*) where
  status : ℕ → Status α := fun _ => .null
  outs : List ρ := []

def Spec.step (O : Objects α χ ω ρ) (s : Spec α ρ) : Event χ ω → Option (Spec α ρ)
  | .create v c => some { s with status := Function.update s.status v (.live (O.new c)) }
  | .call v op =>
    match s.status v with
    | .null => some { s with outs := s.outs ++ [O.null op] }
    | .live o => (O.act o op).map fun r =>
      { status := Function.update s.status v (.live r.1), outs := s.outs ++ [r.2] }
    | .gone => none
  | .destroy v =>
    match s.status v with
    | .null => some s
    | .live _ => some { s with status := Function.update s.status v .gone }
    | .gone => none

/-! ### The machine -/

/-- The objects at their addresses and the pointers of the handles, which destruction
leaves as they are. -/
structure Machine (α ρ : Type*) where
  heap : ℕ → Option α := fun _ => none
  pointer : ℕ → Option ℕ := fun _ => none
  time : ℕ := 0
  outs : List ρ := []

/-- An address that is free, as long as there is one beyond the used ones. -/
structure Allocator (α : Type*) where
  next : ℕ → (ℕ → Option α) → ℕ
  fresh : ∀ (time : ℕ) (heap : ℕ → Option α), (∃ n, ∀ a, n ≤ a → heap a = none) →
    heap (next time heap) = none

/-- No step for a method or a destructor at a free address. -/
def Machine.step (O : Objects α χ ω ρ) (A : Allocator α) (m : Machine α ρ) :
    Event χ ω → Option (Machine α ρ)
  | .create v c =>
    let a := A.next m.time m.heap
    some { m with
      heap := Function.update m.heap a (some (O.new c))
      pointer := Function.update m.pointer v (some a)
      time := m.time + 1 }
  | .call v op =>
    match m.pointer v with
    | none => some { m with outs := m.outs ++ [O.null op] }
    | some a => (m.heap a).bind fun o => (O.act o op).map fun r =>
      { m with heap := Function.update m.heap a (some r.1), outs := m.outs ++ [r.2] }
  | .destroy v =>
    match m.pointer v with
    | none => some m
    | some a => (m.heap a).map fun _ => { m with heap := Function.update m.heap a none }

/-! ### The simulation -/

/-- A handle and its pointer. -/
inductive Points (heap : ℕ → Option α) : Status α → Option ℕ → Prop
  | null : Points heap .null none
  | live {o : α} {a : ℕ} (h : heap a = some o) : Points heap (.live o) (some a)
  | gone (a : ℕ) : Points heap .gone (some a)

structure Simulates (s : Spec α ρ) (m : Machine α ρ) : Prop where
  points : ∀ v, Points m.heap (s.status v) (m.pointer v)
  apart : ∀ v w o o', s.status v = .live o → s.status w = .live o' →
    m.pointer v = m.pointer w → v = w
  bounded : ∃ n, ∀ a, n ≤ a → m.heap a = none
  outs : m.outs = s.outs

variable {O : Objects α χ ω ρ} {A : Allocator α} {s s' : Spec α ρ} {m : Machine α ρ}

theorem simulates_start : Simulates ({} : Spec α ρ) {} where
  points _ := .null
  apart _ _ _ _ h := by cases h
  bounded := ⟨0, fun _ _ => rfl⟩
  outs := rfl

/-- A change at an address that no live handle points to goes unnoticed. -/
theorem Points.update {heap : ℕ → Option α} {st : Status α} {p : Option ℕ} {a : ℕ}
    (h : Points heap st p) (hfree : ∀ o, st = .live o → p ≠ some a) (x : Option α) :
    Points (Function.update heap a x) st p := by
  cases h with
  | null => exact .null
  | gone a => exact .gone a
  | @live o b hb =>
    have hne : b ≠ a := fun hab => hfree o rfl (congrArg some hab)
    exact .live (by rw [Function.update_of_ne hne, hb])

theorem bounded_update {heap : ℕ → Option α} (h : ∃ n, ∀ a, n ≤ a → heap a = none) (a : ℕ)
    (x : Option α) : ∃ n, ∀ b, n ≤ b → Function.update heap a x b = none := by
  obtain ⟨n, hn⟩ := h
  refine ⟨max n (a + 1), fun b hb => ?_⟩
  rw [Function.update_of_ne (by omega), hn b (by omega)]

theorem Simulates.live_points (h : Simulates s m) {v : ℕ} {o : α} (hv : s.status v = .live o) :
    ∃ a, m.pointer v = some a ∧ m.heap a = some o := by
  have hp := h.points v
  rw [hv] at hp
  generalize m.pointer v = p at hp
  cases hp with
  | live ha => exact ⟨_, rfl, ha⟩

theorem Simulates.null_points (h : Simulates s m) {v : ℕ} (hv : s.status v = .null) :
    m.pointer v = none := by
  have hp := h.points v
  rw [hv] at hp
  generalize m.pointer v = p at hp
  cases hp
  rfl

theorem Simulates.gone_points (h : Simulates s m) {v : ℕ} (hv : s.status v = .gone) :
    ∃ a, m.pointer v = some a := by
  have hp := h.points v
  rw [hv] at hp
  generalize m.pointer v = p at hp
  cases hp
  exact ⟨_, rfl⟩

/-- No other live handle points to the object of a live handle. -/
theorem Simulates.other (h : Simulates s m) {v w : ℕ} {o : α} {a : ℕ} (hv : s.status v = .live o)
    (ha : m.pointer v = some a) (hne : w ≠ v) (o' : α) (hw : s.status w = .live o') :
    m.pointer w ≠ some a :=
  fun hwa => hne (h.apart w v o' o hw hv (hwa.trans ha.symm))

/-- A handle gets a new object at a free address. -/
theorem Simulates.create (h : Simulates s m) {a : ℕ} (hfree : m.heap a = none) (v : ℕ) (o : α)
    (time : ℕ) :
    Simulates { s with status := Function.update s.status v (.live o) }
      { m with
        heap := Function.update m.heap a (some o)
        pointer := Function.update m.pointer v (some a)
        time } := by
  have hunused (w : ℕ) (o' : α) (hw : s.status w = .live o') : m.pointer w ≠ some a := by
    obtain ⟨b, hb, hheap⟩ := h.live_points hw
    rw [hb]
    rintro ⟨⟩
    exact absurd (hfree.symm.trans hheap).symm (Option.some_ne_none o')
  refine ⟨fun w => ?_, fun w x o' o'' hw hx hptr => ?_, bounded_update h.bounded a _, h.outs⟩
  · dsimp only
    by_cases hwv : w = v
    · rw [hwv, Function.update_self, Function.update_self]
      exact .live (Function.update_self ..)
    · rw [Function.update_of_ne hwv, Function.update_of_ne hwv]
      exact (h.points w).update (fun o' hw => hunused w o' hw) _
  · dsimp only at hw hx hptr
    by_cases hwv : w = v <;> by_cases hxv : x = v
    · rw [hwv, hxv]
    · rw [hwv, Function.update_self, Function.update_of_ne hxv] at hptr
      rw [Function.update_of_ne hxv] at hx
      exact absurd hptr.symm (hunused x o'' hx)
    · rw [hxv, Function.update_self, Function.update_of_ne hwv] at hptr
      rw [Function.update_of_ne hwv] at hw
      exact absurd hptr (hunused w o' hw)
    · rw [Function.update_of_ne hwv] at hw hptr
      rw [Function.update_of_ne hxv] at hx hptr
      exact h.apart w x o' o'' hw hx hptr

/-- The object of a handle changes or goes, and the handle with it. -/
theorem Simulates.change (h : Simulates s m) {v a : ℕ} {o : α} (hv : s.status v = .live o)
    (ha : m.pointer v = some a) {st : Status α} {x : Option α}
    (hst : Points (Function.update m.heap a x) st (some a)) (outs : List ρ) :
    Simulates { status := Function.update s.status v st, outs }
      { m with heap := Function.update m.heap a x, outs } := by
  have hlive {w : ℕ} {o' : α} (hw : Function.update s.status v st w = .live o') :
      ∃ o'', s.status w = .live o'' := by
    by_cases hwv : w = v
    · exact ⟨o, hwv ▸ hv⟩
    · exact ⟨o', by rwa [Function.update_of_ne hwv] at hw⟩
  refine ⟨fun w => ?_, fun w y o' o'' hw hy hptr => ?_, bounded_update h.bounded a _, rfl⟩
  · dsimp only
    by_cases hwv : w = v
    · rw [hwv, Function.update_self, ha]
      exact hst
    · rw [Function.update_of_ne hwv]
      exact (h.points w).update (h.other hv ha hwv) _
  · obtain ⟨o₁, h₁⟩ := hlive hw
    obtain ⟨o₂, h₂⟩ := hlive hy
    exact h.apart w y o₁ o₂ h₁ h₂ hptr

/-- What the client may do and expects, the machine does. -/
theorem Simulates.step (h : Simulates s m) {e : Event χ ω} (hs : s.step O e = some s') :
    ∃ m', m.step O A e = some m' ∧ Simulates s' m' := by
  cases e with
  | create v c =>
    obtain rfl := Option.some.inj hs
    exact ⟨_, rfl, h.create (A.fresh m.time m.heap h.bounded) v (O.new c) _⟩
  | call v op =>
    cases hv : s.status v with
    | null =>
      simp only [Spec.step, hv] at hs
      obtain rfl := Option.some.inj hs
      refine ⟨{ m with outs := m.outs ++ [O.null op] }, ?_, h.points, h.apart, h.bounded, ?_⟩
      · rw [Machine.step, h.null_points hv]
      · exact congrArg (· ++ [O.null op]) h.outs
    | live o =>
      simp only [Spec.step, hv] at hs
      obtain ⟨r, hr, rfl⟩ := Option.map_eq_some_iff.mp hs
      obtain ⟨a, ha, hheap⟩ := h.live_points hv
      refine ⟨{ m with
        heap := Function.update m.heap a (some r.1), outs := m.outs ++ [r.2] }, ?_, ?_⟩
      · simp only [Machine.step, ha, hheap, Option.bind_some, hr, Option.map_some]
      · rw [h.outs]
        exact h.change hv ha (.live (Function.update_self ..)) _
    | gone =>
      simp only [Spec.step, hv] at hs
      cases hs
  | destroy v =>
    cases hv : s.status v with
    | null =>
      simp only [Spec.step, hv] at hs
      obtain rfl := Option.some.inj hs
      exact ⟨m, by rw [Machine.step, h.null_points hv], h⟩
    | live o =>
      simp only [Spec.step, hv] at hs
      obtain rfl := Option.some.inj hs
      obtain ⟨a, ha, hheap⟩ := h.live_points hv
      refine ⟨{ m with heap := Function.update m.heap a none }, ?_, ?_⟩
      · simp only [Machine.step, ha, hheap, Option.map_some]
      · have hchange := h.change hv ha (x := none) (.gone a) s.outs
        rw [← h.outs] at hchange ⊢
        exact hchange
    | gone =>
      simp only [Spec.step, hv] at hs
      cases hs

theorem Simulates.exec {es : List (Event χ ω)} :
    ∀ {s s' : Spec α ρ} {m : Machine α ρ}, Simulates s m →
      Runs.exec (Spec.step O) s es = some s' →
        ∃ m', Runs.exec (Machine.step O A) m es = some m' ∧ Simulates s' m' := by
  induction es with
  | nil =>
    intro s s' m h hrun
    obtain rfl := Option.some.inj hrun
    exact ⟨m, rfl, h⟩
  | cons e es ih =>
    intro s s' m h hrun
    obtain ⟨t, ht, hrest⟩ := Runs.exec_cons.mp hrun
    obtain ⟨u, hu, hsim⟩ := h.step ht
    obtain ⟨m', hm', hsim'⟩ := ih hsim hrest
    exact ⟨m', Runs.exec_cons.mpr ⟨u, hu, hm'⟩, hsim'⟩

/-! ### Handles of destroyed objects -/

/-- Addresses that are never given out twice. -/
noncomputable def Allocator.counting : Allocator α :=
  open Classical in
  { next := fun time heap =>
      if heap time = none then time
      else if h : ∃ a, heap a = none then h.choose
      else time
    fresh := fun time heap hfree => by
      obtain ⟨n, hn⟩ := hfree
      have hsome : ∃ a, heap a = none := ⟨n, hn n (Nat.le_refl n)⟩
      split_ifs with htime
      · exact htime
      · exact hsome.choose_spec }

/-- The addresses from `time` on were never used, and destroyed handles point to nothing. -/
structure Counted (s : Spec α ρ) (m : Machine α ρ) : Prop where
  simulates : Simulates s m
  unused : ∀ a, m.time ≤ a → m.heap a = none
  used : ∀ v a, m.pointer v = some a → a < m.time
  gone : ∀ v a, s.status v = .gone → m.pointer v = some a → m.heap a = none

theorem counted_start : Counted ({} : Spec α ρ) {} where
  simulates := simulates_start
  unused _ _ := rfl
  used _ _ h := by cases h
  gone _ _ h := by cases h

theorem next_counting {heap : ℕ → Option α} {time : ℕ} (h : heap time = none) :
    Allocator.counting.next time heap = time := if_pos h

theorem Counted.create (h : Counted s m) (v : ℕ) (o : α) :
    Counted { s with status := Function.update s.status v (.live o) }
      { m with
        heap := Function.update m.heap m.time (some o)
        pointer := Function.update m.pointer v (some m.time)
        time := m.time + 1 } := by
  refine ⟨h.simulates.create (h.unused _ (Nat.le_refl _)) v o _, fun a ha => ?_,
    fun w a hw => ?_, fun w a hgone hw => ?_⟩
  · dsimp only at ha ⊢
    rw [Function.update_of_ne (by omega), h.unused a (by omega)]
  · dsimp only at hw ⊢
    by_cases hwv : w = v
    · rw [hwv, Function.update_self] at hw
      have hlast := Option.some.inj hw
      omega
    · rw [Function.update_of_ne hwv] at hw
      have hlt := h.used w a hw
      omega
  · dsimp only at hgone hw ⊢
    by_cases hwv : w = v
    · rw [hwv, Function.update_self] at hgone
      cases hgone
    · rw [Function.update_of_ne hwv] at hgone hw
      have hlt := h.used w a hw
      rw [Function.update_of_ne (by omega), h.gone w a hgone hw]

theorem Counted.change (h : Counted s m) {v a : ℕ} {o : α} (hv : s.status v = .live o)
    (ha : m.pointer v = some a) {st : Status α} {x : Option α}
    (hst : Points (Function.update m.heap a x) st (some a)) (hgone : st = .gone → x = none)
    (outs : List ρ) :
    Counted { status := Function.update s.status v st, outs }
      { m with heap := Function.update m.heap a x, outs } := by
  refine ⟨h.simulates.change hv ha hst outs, fun b hb => ?_, h.used, fun w b hw hb => ?_⟩
  · have hlt := h.used v a ha
    dsimp only at hb ⊢
    rw [Function.update_of_ne (by omega), h.unused b hb]
  · dsimp only at hw hb ⊢
    by_cases hwv : w = v
    · rw [hwv, Function.update_self] at hw
      rw [hwv, ha] at hb
      rw [← Option.some.inj hb, Function.update_self, hgone hw]
    · rw [Function.update_of_ne hwv] at hw
      by_cases hba : b = a
      · obtain ⟨a', ha', hheap⟩ := h.simulates.live_points hv
        have hnone := h.gone w b hw hb
        rw [hba, Option.some.inj (ha.symm.trans ha'), hheap] at hnone
        cases hnone
      · rw [Function.update_of_ne hba, h.gone w b hw hb]

/-- With addresses used once, the machine stops exactly where the client must not go. -/
theorem Counted.step (h : Counted s m) (e : Event χ ω) :
    Option.Rel Counted (s.step O e) (m.step O .counting e) := by
  cases e with
  | create v c =>
    have hnext := next_counting (h.unused m.time (Nat.le_refl _))
    simp only [Spec.step, Machine.step, hnext]
    exact .some (h.create v (O.new c))
  | call v op =>
    cases hv : s.status v with
    | null =>
      simp only [Spec.step, Machine.step, hv, h.simulates.null_points hv, h.simulates.outs]
      refine .some ⟨⟨h.simulates.points, h.simulates.apart, h.simulates.bounded, rfl⟩, h.unused,
        h.used, h.gone⟩
    | live o =>
      obtain ⟨a, ha, hheap⟩ := h.simulates.live_points hv
      simp only [Spec.step, Machine.step, hv, ha, hheap, Option.bind_some, h.simulates.outs]
      cases O.act o op with
      | none => exact .none
      | some r =>
        exact .some (h.change hv ha (.live (Function.update_self ..)) (fun hst => by cases hst) _)
    | gone =>
      obtain ⟨a, ha⟩ := h.simulates.gone_points hv
      simp only [Spec.step, Machine.step, hv, ha, h.gone v a hv ha, Option.bind_none]
      exact .none
  | destroy v =>
    cases hv : s.status v with
    | null =>
      simp only [Spec.step, Machine.step, hv, h.simulates.null_points hv]
      exact .some h
    | live o =>
      obtain ⟨a, ha, hheap⟩ := h.simulates.live_points hv
      simp only [Spec.step, Machine.step, hv, ha, hheap, Option.map_some]
      have hchange := h.change hv ha (x := none) (.gone a) (fun _ => rfl) s.outs
      rw [← h.simulates.outs] at hchange ⊢
      exact .some hchange
    | gone =>
      obtain ⟨a, ha⟩ := h.simulates.gone_points hv
      simp only [Spec.step, Machine.step, hv, ha, h.gone v a hv ha, Option.map_none]
      exact .none

/-! ### Sessions -/

/-- What an event makes of the object of handle `v`. -/
def own (O : Objects α χ ω ρ) (v : ℕ) (acc : Option α) : Event χ ω → Option α
  | .create w c => if w = v then some (O.new c) else acc
  | .call w op => if w = v then (acc.bind fun o => O.act o op).map Prod.fst else acc
  | .destroy w => if w = v then none else acc

end Handles
