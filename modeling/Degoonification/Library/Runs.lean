import Mathlib.Tactic.Common

/-! Runs of a partial step function over a list of events, and the two ways to
constrain a run: a condition on its steps and a property of its states. When a
step meets the condition exactly if it keeps the property, a run meets the
condition at every step exactly if it keeps the property throughout. -/

namespace Runs

variable {σ ε : Type*} (step : σ → ε → Option σ)

/-- The state after a run, if every step of it is possible. -/
def exec : σ → List ε → Option σ
  | s, [] => some s
  | s, e :: es => (step s e).bind fun s' => exec s' es

/-- Every possible step of the run meets the condition. -/
def Along (C : σ → ε → Prop) : σ → List ε → Prop
  | _, [] => True
  | s, e :: es => ∀ s', step s e = some s' → C s e ∧ Along C s' es

/-- Every state the run goes through has the property. -/
def Always (P : σ → Prop) : σ → List ε → Prop
  | s, [] => P s
  | s, e :: es => P s ∧ ∀ s', step s e = some s' → Always P s' es

instance decidableAlong {C : σ → ε → Prop} [∀ s e, Decidable (C s e)] (s : σ) (es : List ε) :
    Decidable (Along step C s es) :=
  match es with
  | [] => .isTrue trivial
  | e :: es =>
    match h : step s e with
    | none => .isTrue fun _ hs' => nomatch h.symm.trans hs'
    | some t =>
      have := decidableAlong (C := C) t es
      decidable_of_iff (C s e ∧ Along step C t es)
        ⟨fun hC _ hs' => Option.some.inj (h.symm.trans hs') ▸ hC, fun hC => hC t h⟩

variable {step}

theorem exec_cons {s s' : σ} {e : ε} {es : List ε} :
    exec step s (e :: es) = some s' ↔ ∃ t, step s e = some t ∧ exec step t es = some s' :=
  Option.bind_eq_some_iff

theorem exec_append (s : σ) (es fs : List ε) :
    exec step s (es ++ fs) = (exec step s es).bind fun t => exec step t fs := by
  induction es generalizing s with
  | nil => rfl
  | cons e es ih =>
    rw [List.cons_append, exec, exec, Option.bind_assoc]
    exact Option.bind_congr fun t _ => ih t

theorem exec_append_iff {s s' : σ} {es fs : List ε} :
    exec step s (es ++ fs) = some s' ↔ ∃ t, exec step s es = some t ∧ exec step t fs = some s' := by
  rw [exec_append, Option.bind_eq_some_iff]

theorem Along.append {C : σ → ε → Prop} {s : σ} {es fs : List ε}
    (h : Along step C s (es ++ fs)) :
    Along step C s es ∧ ∀ t, exec step s es = some t → Along step C t fs := by
  induction es generalizing s with
  | nil =>
    refine ⟨trivial, fun t ht => ?_⟩
    obtain rfl := Option.some.inj ht
    exact h
  | cons e es ih =>
    refine ⟨fun u hu => ⟨(h u hu).1, (ih (h u hu).2).1⟩, fun t ht => ?_⟩
    obtain ⟨u, hu, hrest⟩ := exec_cons.mp ht
    exact (ih (h u hu).2).2 t hrest

theorem along_of_forall {ok : ε → Prop} {es : List ε} (s : σ) (h : ∀ e ∈ es, ok e) :
    Along step (fun _ e => ok e) s es := by
  induction es generalizing s with
  | nil => trivial
  | cons e es ih =>
    obtain ⟨he, hes⟩ := List.forall_mem_cons.mp h
    exact fun t _ => ⟨he, ih t hes⟩

/-- What every step keeps holds wherever a run ends. -/
theorem exec_invariant {I : σ → Prop} (hstep : ∀ s e s', step s e = some s' → I s → I s')
    {es : List ε} : ∀ {s s' : σ}, I s → exec step s es = some s' → I s' := by
  induction es with
  | nil =>
    intro s s' hs h
    exact Option.some.inj h ▸ hs
  | cons e es ih =>
    intro s s' hs h
    obtain ⟨t, ht, hrest⟩ := exec_cons.mp h
    exact ih (hstep s e t ht hs) hrest

/-- What every step that meets the condition keeps holds wherever a run of such
steps ends. -/
theorem Along.exec_invariant {C : σ → ε → Prop} {I : σ → Prop}
    (hstep : ∀ s e s', step s e = some s' → C s e → I s → I s') {es : List ε} :
    ∀ {s s' : σ}, Along step C s es → I s → exec step s es = some s' → I s' := by
  induction es with
  | nil =>
    intro s s' _ hs h
    exact Option.some.inj h ▸ hs
  | cons e es ih =>
    intro s s' hC hs h
    obtain ⟨t, ht, hrest⟩ := exec_cons.mp h
    obtain ⟨hCe, hCes⟩ := hC t ht
    exact ih hCes (hstep s e t ht hCe hs) hrest

/-- Two systems that keep a relation step by step keep it over runs. -/
theorem exec_rel {τ ζ : Type*} {step' : τ → ζ → Option τ} {R : σ → τ → Prop} {E : ε → ζ → Prop}
    (hstep : ∀ s t e e', R s t → E e e' → Option.Rel R (step s e) (step' t e')) {es : List ε}
    {es' : List ζ} (hes : List.Forall₂ E es es') :
    ∀ {s : σ} {t : τ}, R s t → Option.Rel R (exec step s es) (exec step' t es') := by
  induction hes with
  | nil => exact fun h => .some h
  | @cons e e' es es' he _ ih =>
    intro s t h
    have hrel := hstep s t e e' h he
    unfold exec
    generalize step s e = next, step' t e' = next' at hrel ⊢
    cases hrel with
    | none => exact .none
    | some hnext => exact ih hnext

/-- Where, among the states that satisfy an invariant, a step from a good state
meets the condition exactly if it leads to a good state. -/
theorem along_iff_always {C : σ → ε → Prop} {I P : σ → Prop}
    (hI : ∀ s e s', step s e = some s' → I s → I s')
    (hP : ∀ s e s', step s e = some s' → I s → P s → (C s e ↔ P s')) {es : List ε} :
    ∀ {s : σ}, I s → P s → (Along step C s es ↔ Always step P s es) := by
  induction es with
  | nil =>
    intro s _ hs
    exact iff_of_true trivial hs
  | cons e es ih =>
    intro s hIs hs
    simp only [Along, Always, hs, true_and]
    refine forall₂_congr fun t ht => ?_
    constructor
    · rintro ⟨hCe, hCes⟩
      exact (ih (hI s e t ht hIs) ((hP s e t ht hIs hs).mp hCe)).mp hCes
    · intro hPes
      have hPt : P t := by cases es with
        | nil => exact hPes
        | cons => exact hPes.1
      exact ⟨(hP s e t ht hIs hs).mpr hPt, (ih (hI s e t ht hIs) hPt).mpr hPes⟩

theorem Always.imp {I P Q : σ → Prop} (hI : ∀ s e s', step s e = some s' → I s → I s')
    (hPQ : ∀ s, I s → P s → Q s) {es : List ε} :
    ∀ {s : σ}, I s → Always step P s es → Always step Q s es := by
  induction es with
  | nil => exact fun hIs hPs => hPQ _ hIs hPs
  | cons e es ih =>
    rintro s hIs ⟨hPs, hPes⟩
    exact ⟨hPQ s hIs hPs, fun t ht => ih (hI s e t ht hIs) (hPes t ht)⟩

theorem always_of_forall {P : σ → Prop} (hP : ∀ s, P s) {es : List ε} :
    ∀ s, Always step P s es := by
  induction es with
  | nil => exact hP
  | cons e es ih => exact fun s => ⟨hP s, fun t _ => ih t⟩

/-- While a property lasts, a measure that no step raises and some steps lower bounds
how many of those there are. -/
theorem filter_length_add_le {I P : σ → Prop} (μ : σ → ℕ) (own : ε → Bool)
    (hstep : ∀ s e s', step s e = some s' → I s → P s →
      I s' ∧ μ s' ≤ μ s ∧ (own e = true → μ s' < μ s)) {es : List ε} :
    ∀ {s s' : σ}, Always step P s es → I s → exec step s es = some s' →
      I s' ∧ P s' ∧ (es.filter own).length + μ s' ≤ μ s := by
  induction es with
  | nil =>
    intro s s' hP hI h
    obtain rfl := Option.some.inj h
    exact ⟨hI, hP, Nat.le_of_eq (Nat.zero_add _)⟩
  | cons e es ih =>
    rintro s s' ⟨hP, hrest⟩ hI h
    obtain ⟨t, ht, h⟩ := exec_cons.mp h
    obtain ⟨hIt, hle, hlt⟩ := hstep s e t ht hI hP
    obtain ⟨hI', hP', hcount⟩ := ih (hrest t ht) hIt h
    refine ⟨hI', hP', ?_⟩
    cases hown : own e with
    | false =>
      rw [List.filter_cons_of_neg (by rw [hown]; exact Bool.false_ne_true)]
      exact Nat.le_trans hcount hle
    | true =>
      rw [List.filter_cons_of_pos hown, List.length_cons]
      have := hlt hown
      omega

/-! ### Measures along a run -/

variable (step) in
/-- The sum of a measure over the steps of a run. -/
def tally (f : σ → ε → ℕ) : σ → List ε → ℕ
  | _, [] => 0
  | s, e :: es => f s e + (step s e).elim 0 fun t => tally f t es

theorem tally_cons {f : σ → ε → ℕ} {s t : σ} {e : ε} (h : step s e = some t) (es : List ε) :
    tally step f s (e :: es) = f s e + tally step f t es := by
  rw [tally, h, Option.elim_some]

theorem tally_append {f : σ → ε → ℕ} {s t : σ} {es : List ε} (h : exec step s es = some t)
    (fs : List ε) : tally step f s (es ++ fs) = tally step f s es + tally step f t fs := by
  induction es generalizing s with
  | nil =>
    obtain rfl := Option.some.inj h
    rw [List.nil_append, tally, Nat.zero_add]
  | cons e es ih =>
    obtain ⟨u, hu, hrest⟩ := exec_cons.mp h
    rw [List.cons_append, tally_cons hu, tally_cons hu, ih hrest, Nat.add_assoc]

theorem tally_add (f g : σ → ε → ℕ) (s : σ) (es : List ε) :
    tally step (fun s e => f s e + g s e) s es = tally step f s es + tally step g s es := by
  induction es generalizing s with
  | nil => rfl
  | cons e es ih =>
    rw [tally, tally, tally]
    cases step s e with
    | none => simp only [Option.elim_none, Nat.add_zero]
    | some t =>
      simp only [Option.elim_some, ih]
      exact Nat.add_add_add_comm ..

/-- A quantity that every step raises by its measure is raised by the tally of a run. -/
theorem eq_add_tally {f : σ → ε → ℕ} {q : σ → ℕ} {ok : ε → Prop}
    (hstep : ∀ s e s', ok e → step s e = some s' → q s' = q s + f s e) {es : List ε} :
    ∀ {s s' : σ}, (∀ e ∈ es, ok e) → exec step s es = some s' → q s' = q s + tally step f s es := by
  induction es with
  | nil =>
    intro s s' _ h
    obtain rfl := Option.some.inj h
    rfl
  | cons e es ih =>
    intro s s' hok h
    obtain ⟨t, ht, hrest⟩ := exec_cons.mp h
    rw [ih (fun x hx => hok x (List.mem_cons_of_mem e hx)) hrest,
      hstep s e t (hok e List.mem_cons_self) ht, tally_cons ht, Nat.add_assoc]

end Runs
