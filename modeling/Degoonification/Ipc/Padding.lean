import Degoonification.Boxes.ShieldCover
import Degoonification.Ipc.Daemon

/-! The padding of the daemon's tracker over runs of requests. While it is not
negative, expansion and merging lose no point of a shield; `SET_PADDING` passes
on every number `std::stof` reads. -/

namespace Degoonification.Ipc.Daemon

open BoundingBox VisualAnchorTracker

/-- The padding is not negative, and what follows: a box on screen lies inside its
expansion, and a shield on screen inside a box that the next call returns. -/
structure NeverShrinks (d : Daemon) : Prop where
  nonneg : 0 ≤ d.tracker.config.paddingRatio
  expanded : ∀ b, OnScreen b → b.region ⊆ (b.expanded d.tracker.config.paddingRatio).region
  returned : ∀ frame dets now, ∀ s ∈ (d.tracker.processFrame frame dets now).1.shields,
    OnScreen s.box → ∃ b ∈ (d.tracker.processFrame frame dets now).2, s.box.region ⊆ b.region

theorem neverShrinks_iff (d : Daemon) :
    d.NeverShrinks ↔ 0 ≤ d.tracker.config.paddingRatio := by
  refine ⟨fun h => h.nonneg, fun hratio => ?_⟩
  have hexpanded (b : BoundingBox) (hb : OnScreen b) :
      b.region ⊆ (b.expanded d.tracker.config.paddingRatio).region := fun p hp =>
    (Inside.refl b).region_subset_expanded hb.width hb.height hratio ⟨hp, hb.region_subset hp⟩
  refine ⟨hratio, hexpanded, fun frame dets now s hs hbox => ?_⟩
  obtain ⟨b, hb, hin⟩ := exists_inside_mergeOverlappingBoxes
    (List.mem_map_of_mem (f := fun s => s.box.expanded d.tracker.config.paddingRatio) hs)
    d.tracker.config.mergeIouThreshold
  exact ⟨b, hb, (hexpanded s.box hbox).trans hin.region_subset⟩

variable {stof : Bytes → Option ℚ} {showRatio : ℚ → Bytes}

variable (stof) in
/-- A `SET_PADDING` whose text is a number asks for no negative one. -/
def notNegative : Event → Bool
  | .request _ raw =>
    if Command.ofText (parseRequest raw).1 = some .setPadding then
      (stof (parseRequest raw).2).all fun ratio => 0 ≤ ratio
    else true
  | _ => true

/-- Only `SET_PADDING` changes the padding of the tracker. -/
theorem paddingRatio_handle (d : Daemon) (c : Counters) (cmd args : Bytes) :
    (d.handle stof showRatio c cmd args).1.tracker.config.paddingRatio =
      if Command.ofText cmd = some .setPadding then
        (stof args).getD d.tracker.config.paddingRatio
      else d.tracker.config.paddingRatio := by
  rw [handle]
  cases Command.ofText cmd with
  | none => rfl
  | some command =>
    cases command with
    | setPadding => cases stof args <;> rfl
    | _ => rfl

theorem notNegative_iff {d d' : Daemon} {e : Event} (hstep : step stof showRatio d e = some d')
    (h : d.NeverShrinks) : notNegative stof e = true ↔ d'.NeverShrinks := by
  rw [neverShrinks_iff] at h ⊢
  cases e with
  | request c raw =>
    simp only [step, Option.ite_none_right_eq_some, Option.some.injEq] at hstep
    obtain ⟨-, rfl⟩ := hstep
    rw [serve, processPending]
    split_ifs with hraw
    · rw [hraw]
      exact iff_of_true rfl h
    · change _ ↔ 0 ≤ (d.handle stof showRatio c (parseRequest raw).1
        (parseRequest raw).2).1.tracker.config.paddingRatio
      rw [paddingRatio_handle, notNegative]
      split_ifs
      · cases stof (parseRequest raw).2 with
        | none => exact iff_of_true rfl h
        | some ratio => exact decide_eq_true_iff
      · exact iff_of_true rfl h
  | frame f dets now =>
    obtain rfl := Option.some.inj hstep
    exact iff_of_true rfl h
  | render boxes =>
    obtain rfl := Option.some.inj hstep
    refine iff_of_true rfl ?_
    simp only [render]
    split_ifs <;> exact h

/-- In a run of the daemon the padding never shrinks a shield exactly if no
`SET_PADDING` of the run carries a negative number. -/
theorem along_notNegative_iff_always_neverShrinks (modelLoaded : Bool) (events : List Event) :
    Runs.Along (step stof showRatio) (fun _ e => notNegative stof e = true) (initial modelLoaded)
        events ↔
      Runs.Always (step stof showRatio) NeverShrinks (initial modelLoaded) events := by
  have hinitial : (initial modelLoaded).NeverShrinks :=
    (neverShrinks_iff _).mpr (by decide +kernel : (0 : ℚ) ≤ 35 / 100)
  exact Runs.along_iff_always (I := fun _ => True) (fun _ _ _ _ _ => trivial)
    (fun _ _ _ hstep _ h => notNegative_iff hstep h) trivial hinitial

/-- A negative ratio is taken, and a box in the middle of the screen shrinks. -/
theorem setPadding_shrinks :
    ∃ d, Runs.exec (step plainStof plainShow) (initial true)
        [.request {} (ascii "SET_PADDING -0.5\n")] = some d ∧
      d.tracker.config.paddingRatio = -1 / 2 ∧
      ({ x := 2 / 5, y := 2 / 5, width := 1 / 5, height := 1 / 5 } : BoundingBox).expanded
          d.tracker.config.paddingRatio =
        { x := 9 / 20, y := 9 / 20, width := 1 / 10, height := 1 / 10 } :=
  ⟨_, rfl, by decide +kernel, by decide +kernel⟩

end Degoonification.Ipc.Daemon
