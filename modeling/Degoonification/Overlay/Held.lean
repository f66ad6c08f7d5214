import Degoonification.Overlay.Wayland

/-! Double buffering against late releases. The commits go to buffers 1, 0, 1, 0
and so on, so a call paints the buffer of the last commit but one. Nothing in
`render_boxes` waits for that commit to be released: it writes no `busy` flag and
reads none. As long as each painting call finds it released, all earlier commits
are released too, and no held buffer is touched. -/

namespace Degoonification.Overlay

open Session

/-- The current buffer after `n` commits. -/
def toggled (n : ℕ) : Fin 2 := ⟨n % 2, Nat.mod_lt n Nat.two_pos⟩

theorem toggled_eq_toggled {m n : ℕ} : toggled m = toggled n ↔ m % 2 = n % 2 := by
  simp only [toggled, Fin.ext_iff]

/-- The commits alternate, and unless a held buffer was painted all but the last
two are released. -/
structure Alternating (s : Session) (impl : Impl) : Prop where
  current : impl.currentBuffer = toggled s.commits.length
  commit : ∀ k < s.commits.length, s.commits[k]? = some (toggled (k + 1))
  released : s.paintedHeld = false → ∀ k, k + 3 ≤ s.commits.length →
    (impl.buffers (toggled (k + 1))).wlBuf = true → k ∈ s.released

variable {s t : Session} {impl : Impl} {e : Event}

theorem Alternating.nextBuffer (h : Alternating s impl) :
    impl.nextBuffer = toggled (s.commits.length + 1) := by
  rw [Impl.nextBuffer, h.current]
  apply Fin.ext
  simp only [toggled, Fin.sub_def, Fin.val_one]
  omega

/-- The buffer about to be painted is held if its last commit is not released. -/
theorem held_iff (h : Alternating s impl) (hclean : s.paintedHeld = false) :
    s.held impl impl.nextBuffer = true ↔
      (impl.buffers impl.nextBuffer).wlBuf = true ∧ 2 ≤ s.commits.length ∧
        s.commits.length - 2 ∉ s.released := by
  rw [h.nextBuffer, held, Bool.and_eq_true, List.any_eq_true]
  refine and_congr_right fun hbuf => ?_
  constructor
  · rintro ⟨k, hk, hheld⟩
    rw [List.mem_range] at hk
    simp only [h.commit k hk, Bool.and_eq_true, beq_iff_eq, Option.some.injEq,
      Bool.not_eq_true', List.contains_eq_mem, decide_eq_false_iff_not] at hheld
    obtain ⟨hpar, hnot⟩ := hheld
    have hmod := toggled_eq_toggled.mp hpar
    by_cases hlast : k = s.commits.length - 2
    · exact ⟨by omega, hlast ▸ hnot⟩
    · exact absurd (h.released hclean k (by omega) (hpar ▸ hbuf)) hnot
  · rintro ⟨h2, hnot⟩
    refine ⟨s.commits.length - 2, List.mem_range.mpr (by omega), ?_⟩
    have hpar : toggled (s.commits.length - 2 + 1) = toggled (s.commits.length + 1) :=
      toggled_eq_toggled.mpr (by omega)
    simp only [h.commit (s.commits.length - 2) (by omega), hpar, Bool.and_eq_true, beq_iff_eq,
      Bool.not_eq_true', List.contains_eq_mem, decide_eq_false_iff_not]
    exact ⟨trivial, hnot⟩

/-- Nothing is lost where no commit is made. -/
theorem Alternating.of_same {impl' : Impl} (h : Alternating s impl)
    (hcommits : t.commits = s.commits) (hreleased : s.released ⊆ t.released)
    (hpainted : t.paintedHeld = false → s.paintedHeld = false)
    (hcurrent : impl'.currentBuffer = impl.currentBuffer)
    (hbuf : ∀ b, (impl'.buffers b).wlBuf = (impl.buffers b).wlBuf) : Alternating t impl' where
  current := by rw [hcurrent, h.current, hcommits]
  commit := by rw [hcommits]; exact h.commit
  released hclean k hk hwl := by
    rw [hcommits] at hk
    rw [hbuf] at hwl
    exact hreleased (h.released (hpainted hclean) k hk hwl)

/-- One more commit, to the other buffer. -/
theorem Alternating.paint {impl' : Impl} (h : Alternating s impl) (hsame : impl.SameBuffers impl')
    (hcurrent : impl'.currentBuffer = impl.nextBuffer) :
    Alternating { s with
      paintedHeld := s.paintedHeld || s.held impl impl.nextBuffer
      impl := some impl'
      commits := s.commits ++ [impl.nextBuffer] } impl' where
  current := by
    rw [hcurrent, h.nextBuffer, List.length_append, List.length_singleton]
  commit k hk := by
    rw [List.length_append, List.length_singleton] at hk
    by_cases hlast : k = s.commits.length
    · rw [hlast, List.getElem?_concat_length, h.nextBuffer]
    · rw [List.getElem?_append_left (by omega)]
      exact h.commit k (by omega)
  released hclean k hk hwl := by
    obtain ⟨hclean, hheld⟩ := Bool.or_eq_false_iff.mp hclean
    rw [List.length_append, List.length_singleton] at hk
    rw [hsame.wlBuf] at hwl
    by_cases hlast : k + 2 = s.commits.length
    · by_contra hnot
      have hpar : toggled (k + 1) = impl.nextBuffer := by
        rw [h.nextBuffer, toggled_eq_toggled]
        omega
      refine Bool.eq_false_iff.mp hheld ((held_iff h hclean).mpr ⟨hpar ▸ hwl, by omega, ?_⟩)
      rwa [show s.commits.length - 2 = k by omega]
    · exact h.released hclean k (by omega) hwl

theorem init_currentBuffer (callbacks : List Callback) (granted : Fin 2 → Bool) :
    (Impl.init callbacks granted).currentBuffer = 0 := by
  exact List.foldlRecOn (motive := fun s : Impl => s.currentBuffer = 0) callbacks Impl.dispatch rfl
    fun s hs c _ => (s.dispatch_currentBuffer c).trans hs

theorem alternating_step (h : s.step e = some t)
    (hs : ∀ impl, s.impl = some impl → Alternating s impl) :
    ∀ impl, t.impl = some impl → Alternating t impl := by
  cases steps_of_step h with
  | init callbacks granted =>
    intro impl himpl
    obtain rfl := Option.some.inj himpl
    exact
      { current := init_currentBuffer callbacks granted
        commit := fun k hk => absurd hk (Nat.not_lt_zero k)
        released := fun _ k hk => absurd hk (by simp) }
  | callback c himpl =>
    intro impl' himpl'
    obtain rfl := Option.some.inj himpl'
    exact (hs _ himpl).of_same rfl (List.Subset.refl _) id (by simp) (by simp)
  | release k himpl hb =>
    intro impl' himpl'
    obtain rfl := Option.some.inj himpl'
    exact (hs _ himpl).of_same rfl (List.subset_cons_self _ _) id rfl
      (sameBuffers_bufferRelease _ _).wlBuf
  | skip boxes frame hearly => exact hs
  | @paint boxes frame impl himpl hearly =>
    intro impl' himpl'
    obtain hhung | ⟨t, hsame, hcurrent, hpaint⟩ := s.paint_cases impl hearly
    · rw [hhung] at himpl' ⊢
      obtain rfl := Option.some.inj (himpl.symm.trans himpl')
      exact (hs _ himpl).of_same rfl (List.Subset.refl _) (fun h => (Bool.or_eq_false_iff.mp h).1)
        rfl fun _ => rfl
    · rw [hpaint] at himpl' ⊢
      obtain rfl := Option.some.inj himpl'
      exact (hs _ himpl).paint hsame hcurrent

/-- A call that paints, from the third after `init` on, comes after the release
event of the last commit but one, where its buffer exists at all. -/
def ReleasedInTime (s : Session) : Event → Prop
  | .render boxes frame => ∀ impl, s.impl = some impl → impl.returnsEarly boxes frame = false →
    (impl.buffers impl.nextBuffer).wlBuf = true → 2 ≤ s.commits.length →
      s.commits.length - 2 ∈ s.released
  | _ => True

/-- Only a call that paints before that release touches a held buffer. -/
theorem releasedInTime_iff (h : s.step e = some t)
    (hs : ∀ impl, s.impl = some impl → Alternating s impl) (hclean : s.paintedHeld = false) :
    ReleasedInTime s e ↔ t.paintedHeld = false := by
  cases steps_of_step h with
  | init | callback | release => exact iff_of_true trivial hclean
  | skip boxes frame hearly =>
    refine iff_of_true (fun impl himpl hpaints => ?_) hclean
    exact absurd ((hearly impl himpl).symm.trans hpaints) Bool.noConfusion
  | @paint boxes frame impl himpl hearly =>
    have hpainted : (s.paint impl boxes frame).paintedHeld =
        s.held impl impl.nextBuffer := by
      obtain hhung | ⟨t, -, -, hpaint⟩ := s.paint_cases impl hearly
      · rw [hhung, hclean, Bool.false_or]
      · rw [hpaint, hclean, Bool.false_or]
    rw [hpainted, ← Bool.not_eq_true, held_iff (hs impl himpl) hclean]
    simp only [ReleasedInTime, himpl, Option.some.injEq, forall_eq', hearly, true_imp_iff,
      not_and, not_not]

/-- A run never paints a held buffer exactly if each of its painting calls finds
the last commit but one released. -/
theorem never_paints_held_iff (config : OverlayConfig) (events : List Event) :
    Runs.Along Session.step ReleasedInTime { config } events ↔
      Runs.Always Session.step (fun s => s.paintedHeld = false) { config } events :=
  Runs.along_iff_always (I := fun s => ∀ impl, s.impl = some impl → Alternating s impl)
    (fun _ _ _ => alternating_step) (fun _ _ _ => releasedInTime_iff) (fun _ h => nomatch h) rfl

/-- A box is shown, taken away and shown again before the compositor releases
anything. -/
def shownAgain : List Event :=
  [.init [.configure 2 1] fun _ => true, .render [fullScreen] none, .render [] none,
    .render [fullScreen] none]

theorem shownAgain_paints_held :
    (Runs.exec Session.step { config := {} } shownAgain).map (·.paintedHeld) = some true := by
  decide +kernel

end Degoonification.Overlay
