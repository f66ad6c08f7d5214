import Degoonification.Browser.Background

/-! The settings across restarts. The popup stores `enabled` and `blockAdultSites`
under keys of their own, and the listener of `onChanged` follows them; the start of
the background page reads the key `config`, which nobody writes. So the callback of
the `get` puts the initial values in place, and the settings are right after it
exactly if each of them is on, or has a change still to be delivered. -/

namespace Degoonification.Browser

/-- The value an item gives to a setting. -/
def Item.value (k : Key) : Item → Option Bool
  | .setting key value => if key = k then some value else none
  | .stats _ => none

/-- The value the last item for a setting gives to it. -/
def lastValue (k : Key) (items : List Item) : Option Bool :=
  (items.filterMap (Item.value k)).getLast?

@[simp] theorem lastValue_nil (k : Key) : lastValue k [] = none := rfl

theorem lastValue_cons (k : Key) (item : Item) (items : List Item) :
    lastValue k (item :: items) = (lastValue k items).or (item.value k) := by
  rw [lastValue, List.filterMap_cons]
  cases item.value k with
  | none => rw [Option.or_none]; rfl
  | some v =>
    rw [List.getLast?_cons]
    cases h : lastValue k items <;> simp_all [lastValue]

theorem lastValue_concat (k : Key) (items : List Item) (item : Item) :
    lastValue k (items ++ [item]) = (item.value k).or (lastValue k items) := by
  rw [lastValue, List.filterMap_append, List.getLast?_append, lastValue]
  cases h : item.value k <;> simp [h]

theorem set_setting (st : Storage) (item : Item) (k : Key) :
    (st.set item).setting k = (item.value k).or (st.setting k) := by
  cases item with
  | stats stats => rfl
  | setting key value =>
    by_cases hk : k = key
    · subst hk
      simp [Storage.set, Item.value]
    · simp [Storage.set, Item.value, hk, Ne.symm hk]

theorem onChanged_apply (config : Config) (item : Item) (k : Key) :
    onChanged config item k = (item.value k).getD (config k) := by
  cases item with
  | stats stats => rfl
  | setting key value =>
    by_cases hk : k = key
    · subst hk
      simp [onChanged, Item.value]
    · simp [onChanged, Item.value, hk, Ne.symm hk]

theorem value_of_holds {st : Storage} {item : Item} (h : st.holds item = true) (k : Key) :
    (item.value k).or (st.setting k) = st.setting k := by
  cases item with
  | stats stats => rfl
  | setting key value =>
    have h : st.setting key = some value := beq_iff_eq.mp h
    by_cases hk : key = k
    · subst hk
      simp [Item.value, h]
    · simp [Item.value, hk]

/-! ### The invariant -/

/-- Changes on their way report what is stored, and the calls of `set` on their way
lead from what is stored to what the popup asked for last. -/
structure InStep (s : Extension) : Prop where
  config : s.storage.config = none
  answered : ∀ config stats, s.get = .answered config stats → config = .initial
  changes : ∀ k v, lastValue k s.changes = some v → s.storage.setting k = some v
  writes : ∀ k, (lastValue k s.writes).or (s.storage.setting k) = s.lastSet k

variable {domains : List Bytes}

theorem InStep.saveStats {s : Extension} (h : InStep s) (stats : Stats) :
    InStep (s.saveStats stats) := by
  refine ⟨h.config, h.answered, h.changes, fun k => ?_⟩
  rw [Extension.saveStats, lastValue_concat]
  exact h.writes k

theorem InStep.toggle {s : Extension} (h : InStep s) (toggle : Toggle) (value : Bool) :
    InStep { s with
      writes := s.writes ++ [.setting toggle.key value]
      lastSet := Function.update s.lastSet toggle.key (some value) } := by
  refine ⟨h.config, h.answered, h.changes, fun k => ?_⟩
  rw [lastValue_concat, Option.or_assoc, h.writes k, Item.value]
  by_cases hk : toggle.key = k
  · subst hk
    simp
  · simp [hk, Ne.symm hk]

/-- A `set` takes effect, with or without a report. -/
theorem InStep.apply {s : Extension} (h : InStep s) {item : Item} {writes : List Item}
    {reports : Bool} (hwrites : s.writes = item :: writes)
    (happly : (reports || s.storage.holds item) = true) :
    InStep { s with
      storage := s.storage.set item
      writes
      changes := if reports then s.changes ++ [item] else s.changes } := by
  refine ⟨?_, h.answered, fun k v hv => ?_, fun k => ?_⟩
  · cases item <;> exact h.config
  · rw [set_setting]
    cases reports with
    | true =>
      rw [if_pos rfl, lastValue_concat] at hv
      cases hitem : item.value k with
      | none =>
        rw [hitem, Option.none_or] at hv
        exact h.changes k v hv
      | some w => rwa [hitem] at hv
    | false =>
      rw [value_of_holds happly]
      exact h.changes k v hv
  · rw [set_setting, ← Option.or_assoc, ← lastValue_cons, ← hwrites]
    exact h.writes k

theorem InStep.step {s s' : Extension} {e : Event} (hs : step domains s e = some s')
    (h : InStep s) : InStep s' := by
  cases e with
  | restart =>
    obtain rfl := Option.some.inj hs
    refine ⟨h.config, ?_, ?_, h.writes⟩
    · rintro config stats ⟨⟩
    · rintro k v ⟨⟩
  | toggle toggle value =>
    obtain rfl := Option.some.inj hs
    exact h.toggle toggle value
  | apply reports =>
    obtain ⟨item, writes, hwrites, happly, rfl⟩ := step_apply hs
    exact h.apply hwrites happly
  | answer =>
    obtain ⟨-, rfl⟩ := step_answer hs
    refine ⟨h.config, ?_, h.changes, h.writes⟩
    rintro config stats ⟨⟩
    rw [h.config, Option.getD_none]
  | callback =>
    obtain ⟨config, stats, -, rfl⟩ := step_callback hs
    refine ⟨h.config, ?_, h.changes, h.writes⟩
    rintro config stats ⟨⟩
  | change =>
    obtain ⟨item, changes, hchanges, rfl⟩ := step_change hs
    refine ⟨h.config, h.answered, fun k v hv => h.changes k v ?_, h.writes⟩
    have hv : lastValue k changes = some v := hv
    rw [hchanges, lastValue_cons, hv, Option.some_or]
  | request details =>
    obtain rfl := step_request hs
    split_ifs
    · exact h.saveStats _
    · exact h
  | message message =>
    obtain rfl := Option.some.inj hs
    cases message with
    | blockedMedia => exact h.saveStats _
    | getStats => exact h

/-! ### What the page knows -/

/-- Once the start's `get` is handled, the changes on their way bring each toggle to
what is stored. -/
def Informed (s : Extension) : Prop :=
  s.get = .handled →
    ∀ t : Toggle, (lastValue t.key s.changes).getD (s.config t.key) =
      (s.storage.setting t.key).getD true

/-- At a callback every toggle is stored as on, or not at all, or has a change still
to be delivered. -/
def CallbackSafe (s : Extension) : Event → Prop
  | .callback => ∀ t : Toggle, s.storage.setting t.key ≠ some false ∨
      (lastValue t.key s.changes).isSome = true
  | _ => True

/-- The callback's values agree with the storage exactly if it is safe. -/
theorem callback_informed_iff {s : Extension} (h : InStep s) (t : Toggle) :
    s.storage.setting t.key ≠ some false ∨ (lastValue t.key s.changes).isSome = true ↔
      (lastValue t.key s.changes).getD true = (s.storage.setting t.key).getD true := by
  cases hlast : lastValue t.key s.changes with
  | none =>
    rcases hstored : s.storage.setting t.key with _ | _ | _ <;> simp
  | some v => simp [h.changes t.key v hlast]

theorem Informed.apply {s : Extension} (hinf : Informed s) {item : Item} {reports : Bool}
    (writes : List Item) (happly : (reports || s.storage.holds item) = true) :
    Informed { s with
      storage := s.storage.set item
      writes
      changes := if reports then s.changes ++ [item] else s.changes } := by
  intro hget t
  have hinf := hinf hget t
  rw [set_setting]
  cases reports with
  | true =>
    rw [if_pos rfl, lastValue_concat]
    cases item.value t.key with
    | none => exact hinf
    | some v => rfl
  | false =>
    rw [value_of_holds happly]
    exact hinf

theorem Informed.change {s : Extension} (hinf : Informed s) {item : Item} {changes : List Item}
    (hchanges : s.changes = item :: changes) :
    Informed { s with config := onChanged s.config item, changes } := by
  intro hget t
  have hinf := hinf hget t
  rw [hchanges, lastValue_cons] at hinf
  dsimp only
  rw [onChanged_apply, ← hinf]
  cases lastValue t.key changes <;> rfl

theorem callbackSafe_iff_informed {s s' : Extension} {e : Event}
    (hs : step domains s e = some s') (h : InStep s) (hinf : Informed s) :
    CallbackSafe s e ↔ Informed s' := by
  cases e with
  | restart =>
    obtain rfl := Option.some.inj hs
    refine iff_of_true trivial ?_
    rintro ⟨⟩
  | toggle toggle value =>
    obtain rfl := Option.some.inj hs
    exact iff_of_true trivial hinf
  | apply reports =>
    obtain ⟨item, writes, -, happly, rfl⟩ := step_apply hs
    exact iff_of_true trivial (hinf.apply writes happly)
  | answer =>
    obtain ⟨-, rfl⟩ := step_answer hs
    refine iff_of_true trivial ?_
    rintro ⟨⟩
  | callback =>
    obtain ⟨config, stats, hget, rfl⟩ := step_callback hs
    obtain rfl := h.answered config stats hget
    simp only [CallbackSafe, Informed, true_imp_iff, callback_informed_iff h, Config.initial]
  | change =>
    obtain ⟨item, changes, hchanges, rfl⟩ := step_change hs
    exact iff_of_true trivial (hinf.change hchanges)
  | request details =>
    obtain rfl := step_request hs
    split_ifs <;> exact iff_of_true trivial hinf
  | message message =>
    obtain rfl := Option.some.inj hs
    cases message <;> exact iff_of_true trivial hinf

/-! ### Runs -/

theorem inStep_started : InStep (started {}) where
  config := rfl
  answered := by rintro config stats ⟨⟩
  changes := by rintro k v ⟨⟩
  writes _ := rfl

/-- From an empty storage the page stays informed exactly if every callback is safe. -/
theorem informed_iff (es : List Event) :
    Runs.Along (step domains) CallbackSafe (started {}) es ↔
      Runs.Always (step domains) Informed (started {}) es := by
  refine Runs.along_iff_always (I := InStep) (fun _ _ _ => InStep.step)
    (fun _ _ _ => callbackSafe_iff_informed) inStep_started ?_
  rintro ⟨⟩

/-- The start's `get` is handled, no `set` of the popup is open and every change is
delivered. -/
structure Settled (s : Extension) : Prop where
  get : s.get = .handled
  writes : ∀ k, lastValue k s.writes = none
  changes : s.changes = []

/-- Where every callback is safe, whatever the toggles and the restarts, a settled
page has the settings the popup stored last, or their defaults. -/
theorem settings_of_callbackSafe (es : List Event)
    (h : Runs.Along (step domains) CallbackSafe (started {}) es) :
    Runs.Always (step domains)
      (fun s => Settled s → ∀ t : Toggle, s.config t.key = (s.lastSet t.key).getD true)
      (started {}) es := by
  refine Runs.Always.imp (I := InStep) (fun _ _ _ => InStep.step) ?_ inStep_started
    ((informed_iff es).mp h)
  intro s hin hinf hsettled t
  have hinf := hinf hsettled.get t
  rwa [hsettled.changes, lastValue_nil, Option.getD_none,
    ← Option.none_or (o := s.storage.setting _), ← hsettled.writes t.key, hin.writes] at hinf

/-- The master toggle is switched off and on again, and the page follows. -/
theorem settings_of_callbackSafe_toggled :
    Runs.Along (step []) CallbackSafe (started {})
        [.answer, .toggle .masterToggle false, .apply true, .callback, .change] ∧
      Runs.Always (step [])
        (fun s => Settled s → ∀ t : Toggle, s.config t.key = (s.lastSet t.key).getD true)
        (started {}) [.answer, .toggle .masterToggle false, .apply true, .callback, .change] := by
  have h : Runs.Along (step []) CallbackSafe (started {})
      [.answer, .toggle .masterToggle false, .apply true, .callback, .change] := by
    rintro _ ⟨⟩
    refine ⟨trivial, ?_⟩
    rintro _ ⟨⟩
    refine ⟨trivial, ?_⟩
    rintro _ ⟨⟩
    refine ⟨trivial, ?_⟩
    rintro _ ⟨⟩
    refine ⟨fun t => ?_, ?_⟩
    · cases t
      · exact Or.inr rfl
      · exact Or.inl (by decide)
    · rintro _ ⟨⟩
      exact ⟨trivial, trivial⟩
  exact ⟨h, settings_of_callbackSafe _ h⟩

/-- A toggle switched off before a restart is on after it. -/
theorem toggle_lost_by_restart :
    ∃ s, Runs.exec (step []) (started {})
        [.toggle .masterToggle false, .apply true, .restart, .answer, .callback] = some s ∧
      Settled s ∧ s.lastSet .enabled = some false ∧ s.config .enabled = true := by
  refine ⟨_, rfl, ⟨rfl, fun k => ?_, rfl⟩, rfl, rfl⟩
  rfl

end Degoonification.Browser
