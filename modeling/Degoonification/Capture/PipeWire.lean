import Degoonification.Library.Runs
import Degoonification.Library.Slots

/-! `PipeWireCapture`: the objects behind the pointers of its `Impl`, through any order of
`init`, `start`, `stop` and the destructor and any of their failures. The callbacks of a
stream get the `Impl` that was there when it was connected, and may come at any moment
while the stream lives. What a frame holds is left out. -/

namespace Degoonification

namespace PipeWireCapture

/-- The pointers of `Impl`. -/
inductive Member where
  | stream | core | context | loop
deriving DecidableEq

/-- The pointers in the order in which `stop` takes them. -/
def members : List Member := [.stream, .core, .context, .loop]

theorem mem_members (m : Member) : m ∈ members := by
  cases m <;> decide

/-- How far `init` comes. -/
inductive InitResult where
  | noLoop | noContext | ready

/-- How far `start` comes, once it was let in. -/
inductive StartResult where
  | noThread | noCore | noStream | notConnected | connected

inductive Event where
  | init (result : InitResult)
  | start (result : StartResult)
  | stop | destroyed

end PipeWireCapture

open PipeWireCapture in
structure PipeWireCapture where
  objects : Slots Member := {}
  /-- The `Impl` behind `impl_`, by the number of the `init` that made it. -/
  impl : Option ℕ := none
  inits : ℕ := 0
  isRunning : Bool := false
  /-- The `Impl` that the callbacks of a stream get. -/
  listener : ℕ → Option ℕ := fun _ => none

namespace PipeWireCapture

/-- The pointers of a new `Impl`, which takes the place of the old one. -/
def initObjects (objects : Slots Member) : InitResult → Slots Member
  | .noLoop => objects.forgetAll members
  | .noContext => ((objects.forgetAll members).acquire .loop).release .loop
  | .ready => ((objects.forgetAll members).acquire .loop).acquire .context

def init (s : PipeWireCapture) (result : InitResult) : PipeWireCapture :=
  { s with
    objects := initObjects s.objects result
    impl := some s.inits
    inits := s.inits + 1
    isRunning := false }

/-- The guard of `start`. -/
def ready (s : PipeWireCapture) : Prop :=
  s.impl ≠ none ∧ s.objects.held .loop ≠ none ∧ s.isRunning = false

instance (s : PipeWireCapture) : Decidable s.ready := by unfold ready; infer_instance

/-- A core and a stream with its callbacks. -/
def connect (s : PipeWireCapture) : PipeWireCapture :=
  let objects := s.objects.acquire .core
  { s with
    objects := objects.acquire .stream
    listener := Function.update s.listener objects.next s.impl }

def start (s : PipeWireCapture) (result : StartResult) : PipeWireCapture :=
  if s.ready then
    match result with
    | .noThread => s
    | .noCore => { s with objects := s.objects.forget .core }
    | .noStream => { s with objects := (s.objects.acquire .core).forget .stream }
    | .notConnected => s.connect
    | .connected => { s.connect with isRunning := true }
  else s

def stop (s : PipeWireCapture) : PipeWireCapture :=
  if s.impl = none ∨ s.isRunning = false then s
  else if s.objects.held .loop = none then { s with isRunning := false }
  else { s with isRunning := false, objects := s.objects.releaseAll members }

/-- `stop`, and the end of `impl_`. -/
def destroyed (s : PipeWireCapture) : PipeWireCapture :=
  { s.stop with objects := s.stop.objects.forgetAll members, impl := none }

def step (s : PipeWireCapture) : Event → Option PipeWireCapture
  | .init result => some (s.init result)
  | .start result => some (s.start result)
  | .stop => some s.stop
  | .destroyed => some s.destroyed

/-! ### Pointers and callbacks -/

/-- What holds in every run: a stream behind the pointer of an `Impl` calls back with it. -/
structure Shape (s : PipeWireCapture) : Prop where
  sound : s.objects.Sound
  fresh : ∀ h k, s.listener h = some k → h < s.objects.next
  own : ∀ m h k, s.objects.held m = some h → s.listener h = some k → s.impl = some k
  running : s.isRunning = true → s.impl ≠ none ∧ s.objects.held .loop ≠ none

/-- No object is lost, and there is no stream without a core. -/
structure Tidy (s : PipeWireCapture) : Prop where
  kept : s.objects.Kept
  stream : s.objects.held .core = none → s.objects.held .stream = none

/-- `init` comes to pointers that are null, the destructor to such pointers or to a
running capture, and `start` to one that holds nothing of a failed start. -/
def Clear (s : PipeWireCapture) : Event → Prop
  | .init _ => ∀ m, s.objects.held m = none
  | .destroyed => s.isRunning = true ∨ ∀ m, s.objects.held m = none
  | .start result => s.ready → result ≠ .noThread → s.objects.held .core = none
  | .stop => True

/-- Every callback gets the `Impl` that is there, and without one nothing is live. -/
structure CallsBack (s : PipeWireCapture) : Prop where
  impl : ∀ h k, s.objects.live h = true → s.listener h = some k → s.impl = some k
  empty : (∀ m, s.objects.held m = none) → ∀ h, s.objects.live h = false

theorem shape_start : Shape {} := ⟨Slots.sound_empty, nofun, nofun, nofun⟩

theorem tidy_start : Tidy {} := ⟨Slots.kept_empty, fun _ => rfl⟩

theorem callsBack_of_tidy {s : PipeWireCapture} (hs : s.Shape) (h : s.Tidy) : s.CallsBack where
  impl st k hlive hk := by
    obtain ⟨m, hm⟩ := h.kept st hlive
    exact hs.own m st k hm hk
  empty hnone := h.kept.not_live hnone

/-- Pointers that were kept or are new keep the shape. -/
theorem Shape.extend {s : PipeWireCapture} (hs : s.Shape) {objects : Slots Member}
    (hsound : objects.Sound) (hext : s.objects.Extends objects) {isRunning : Bool}
    (hrun : isRunning = true → s.impl ≠ none ∧ objects.held .loop ≠ none) :
    Shape { s with objects, isRunning } where
  sound := hsound
  fresh h k hk := Nat.lt_of_lt_of_le (hs.fresh h k hk) hext.1
  own m h k hm hk := by
    rcases hext.2 m h hm with hm | hnew
    · exact hs.own m h k hm hk
    · exact absurd (Nat.lt_of_lt_of_le (hs.fresh h k hk) hnew) (Nat.lt_irrefl _)
  running := hrun

theorem sound_initObjects {objects : Slots Member} (h : objects.Sound) (result : InitResult) :
    (initObjects objects result).Sound := by
  cases result with
  | noLoop => exact h.forgetAll members
  | noContext => exact ((h.forgetAll members).acquire .loop).release .loop
  | ready => exact ((h.forgetAll members).acquire .loop).acquire .context

theorem extends_initObjects (objects : Slots Member) (result : InitResult) :
    (objects.forgetAll members).Extends (initObjects objects result) := by
  have h := (objects.forgetAll members).extends_refl
  cases result with
  | noLoop => exact h
  | noContext => exact (h.acquire .loop).release .loop
  | ready => exact (h.acquire .loop).acquire .context

theorem next_le_initObjects (objects : Slots Member) (result : InitResult) :
    objects.next ≤ (initObjects objects result).next :=
  Nat.le_trans (objects.extends_refl.forgetAll members).1 (extends_initObjects objects result).1

/-- The pointers of a new `Impl` hold nothing old. -/
theorem new_of_held_initObjects {objects : Slots Member} {result : InitResult} {m : Member} {h : ℕ}
    (hm : (initObjects objects result).held m = some h) : objects.next ≤ h := by
  rcases (extends_initObjects objects result).2 m h hm with hm | hnew
  · rw [Slots.held_forgetAll (mem_members m)] at hm
    cases hm
  · exact Nat.le_trans (objects.extends_refl.forgetAll members).1 hnew

theorem Shape.init {s : PipeWireCapture} (hs : s.Shape) (result : InitResult) :
    (s.init result).Shape where
  sound := sound_initObjects hs.sound result
  fresh h k hk := Nat.lt_of_lt_of_le (hs.fresh h k hk) (next_le_initObjects _ result)
  own m h k hm hk := by
    have hnew := new_of_held_initObjects hm
    exact absurd (Nat.lt_of_lt_of_le (hs.fresh h k hk) hnew) (Nat.lt_irrefl _)
  running := nofun

theorem listener_connect (s : PipeWireCapture) (h : ℕ) :
    s.connect.listener h = if h = (s.objects.acquire .core).next then s.impl else s.listener h :=
  Function.update_apply ..

theorem held_loop_connect (s : PipeWireCapture) :
    s.connect.objects.held .loop = s.objects.held .loop := by
  have hstream : Member.loop ≠ .stream := nofun
  have hcore : Member.loop ≠ .core := nofun
  exact (Slots.held_acquire_of_ne _ hstream).trans (Slots.held_acquire_of_ne _ hcore)

theorem Shape.connect {s : PipeWireCapture} (hs : s.Shape) : s.connect.Shape where
  sound := (hs.sound.acquire _).acquire _
  fresh h k hk := by
    rw [listener_connect] at hk
    split_ifs at hk with hst
    · exact hst ▸ Nat.lt_succ_self _
    · exact Nat.lt_succ_of_lt (Nat.lt_succ_of_lt (hs.fresh h k hk))
  own m h k hm hk := by
    rw [listener_connect] at hk
    split_ifs at hk
    · exact hk
    · rcases ((s.objects.extends_refl.acquire .core).acquire .stream).2 m h hm with hm | hnew
      · exact hs.own m h k hm hk
      · exact absurd (Nat.lt_of_lt_of_le (hs.fresh h k hk) hnew) (Nat.lt_irrefl _)
  running hrun := by
    rw [held_loop_connect]
    exact hs.running hrun

theorem Shape.start {s : PipeWireCapture} (hs : s.Shape) (result : StartResult) :
    (s.start result).Shape := by
  unfold PipeWireCapture.start
  split_ifs with hready
  · cases result with
    | noThread => exact hs
    | noCore =>
      refine hs.extend (hs.sound.forget _) (s.objects.extends_refl.forget _) fun hrun => ?_
      exact absurd (hready.2.2.symm.trans hrun) nofun
    | noStream =>
      refine hs.extend ((hs.sound.acquire _).forget _)
        ((s.objects.extends_refl.acquire _).forget _) fun hrun => ?_
      exact absurd (hready.2.2.symm.trans hrun) nofun
    | notConnected => exact hs.connect
    | connected =>
      have h := hs.connect
      exact ⟨h.sound, h.fresh, h.own, fun _ => ⟨hready.1, held_loop_connect s ▸ hready.2.1⟩⟩
  · exact hs

theorem Shape.stop {s : PipeWireCapture} (hs : s.Shape) : s.stop.Shape := by
  unfold PipeWireCapture.stop
  split_ifs
  · exact hs
  · exact hs.extend hs.sound s.objects.extends_refl nofun
  · exact hs.extend (hs.sound.releaseAll _) (s.objects.extends_refl.releaseAll _) nofun

theorem isRunning_stop {s : PipeWireCapture} (hs : s.Shape) : s.stop.isRunning = false := by
  unfold PipeWireCapture.stop
  split_ifs with hguard
  · rcases hguard with himpl | hrun
    · refine Bool.eq_false_iff.mpr fun hrun => ?_
      exact (hs.running hrun).1 himpl
    · exact hrun
  · rfl
  · rfl

theorem Shape.destroyed {s : PipeWireCapture} (hs : s.Shape) : s.destroyed.Shape where
  sound := hs.stop.sound.forgetAll _
  fresh h k hk :=
    Nat.lt_of_lt_of_le (hs.stop.fresh h k hk) (s.stop.objects.extends_refl.forgetAll _).1
  own m h k hm := by
    have hnone : s.destroyed.objects.held m = none := Slots.held_forgetAll (mem_members m) _
    rw [hnone] at hm
    cases hm
  running hrun := absurd ((isRunning_stop hs).symm.trans hrun) nofun

theorem shape_step {s s' : PipeWireCapture} {e : Event} (hstep : s.step e = some s')
    (hs : s.Shape) : s'.Shape := by
  cases e with
  | init result => exact Option.some.inj hstep ▸ hs.init result
  | start result => exact Option.some.inj hstep ▸ hs.start result
  | stop => exact Option.some.inj hstep ▸ hs.stop
  | destroyed => exact Option.some.inj hstep ▸ hs.destroyed

/-! ### What is lost -/

/-- All pointers are null. -/
def Null (objects : Slots Member) : Prop := ∀ m, objects.held m = none

theorem kept_forget_members_iff {objects : Slots Member} (hs : objects.Sound)
    (hk : objects.Kept) : (objects.forgetAll members).Kept ↔ Null objects := by
  rw [Slots.kept_forgetAll_iff hs, and_iff_right hk]
  exact ⟨fun h m => h m (mem_members m), fun h m _ => h m⟩

theorem kept_initObjects_iff {objects : Slots Member} (hs : objects.Sound) (hk : objects.Kept)
    (result : InitResult) : (initObjects objects result).Kept ↔ Null objects := by
  have hnone : ∀ m, (objects.forgetAll members).held m = none := fun m =>
    Slots.held_forgetAll (mem_members m) objects
  have hsound := hs.forgetAll members
  have hcontext : ((objects.forgetAll members).acquire .loop).held .context = none := by
    have hne : Member.context ≠ .loop := nofun
    rw [Slots.held_acquire_of_ne _ hne, hnone]
  rw [← kept_forget_members_iff hs hk]
  cases result with
  | noLoop => exact Iff.rfl
  | noContext =>
    unfold initObjects
    rw [Slots.kept_release_iff, Slots.kept_acquire_iff hsound, and_iff_left (hnone _)]
  | ready =>
    unfold initObjects
    rw [Slots.kept_acquire_iff (hsound.acquire _), Slots.kept_acquire_iff hsound,
      and_iff_left hcontext, and_iff_left (hnone _)]

theorem held_stream_initObjects (objects : Slots Member) (result : InitResult) :
    (initObjects objects result).held .stream = none := by
  have hnone : (objects.forgetAll members).held .stream = none :=
    Slots.held_forgetAll (mem_members _) objects
  have hloop : Member.stream ≠ .loop := nofun
  have hcontext : Member.stream ≠ .context := nofun
  cases result with
  | noLoop => exact hnone
  | noContext =>
    exact (Slots.held_release_of_ne _ hloop).trans
      ((Slots.held_acquire_of_ne _ hloop).trans hnone)
  | ready =>
    exact (Slots.held_acquire_of_ne _ hcontext).trans
      ((Slots.held_acquire_of_ne _ hloop).trans hnone)

theorem tidy_init_iff {s : PipeWireCapture} (hs : s.Shape) (h : s.Tidy) (result : InitResult) :
    (s.init result).Tidy ↔ Null s.objects := by
  have hiff := kept_initObjects_iff hs.sound h.kept result
  exact ⟨fun h' => hiff.mp h'.kept,
    fun hnull => ⟨hiff.mpr hnull, fun _ => held_stream_initObjects _ _⟩⟩

theorem held_stream_acquire_core (s : PipeWireCapture) :
    (s.objects.acquire .core).held .stream = s.objects.held .stream := by
  have hne : Member.stream ≠ .core := nofun
  exact Slots.held_acquire_of_ne _ hne

theorem tidy_connect_iff {s : PipeWireCapture} (hs : s.Shape) (h : s.Tidy) :
    s.connect.Tidy ↔ s.objects.held .core = none := by
  have hiff : s.connect.objects.Kept ↔ s.objects.held .core = none := by
    unfold connect
    rw [Slots.kept_acquire_iff (hs.sound.acquire _), Slots.kept_acquire_iff hs.sound,
      held_stream_acquire_core, and_iff_right h.kept, and_iff_left_of_imp h.stream]
  have hcore : s.connect.objects.held .core = some s.objects.next := by
    have hne : Member.core ≠ .stream := nofun
    exact (Slots.held_acquire_of_ne _ hne).trans (Slots.held_acquire_self ..)
  refine ⟨fun h' => hiff.mp h'.kept, fun hnone => ⟨hiff.mpr hnone, fun hno => ?_⟩⟩
  rw [hcore] at hno
  cases hno

theorem tidy_start_iff {s : PipeWireCapture} (hs : s.Shape) (h : s.Tidy) (result : StartResult) :
    (s.start result).Tidy ↔
      (s.ready → result ≠ .noThread → s.objects.held .core = none) := by
  unfold start
  split_ifs with hready
  · rw [forall_prop_of_true hready]
    cases result with
    | noThread => exact iff_of_true h (absurd rfl)
    | noCore =>
      rw [forall_prop_of_true nofun]
      have hiff : (s.objects.forget .core).Kept ↔ s.objects.held .core = none := by
        rw [Slots.kept_forget_iff hs.sound, and_iff_right h.kept]
      refine ⟨fun h' => hiff.mp h'.kept, fun hnone => ⟨hiff.mpr hnone, fun _ => ?_⟩⟩
      have hne : Member.stream ≠ .core := nofun
      exact (Slots.held_forget_of_ne _ hne).trans (h.stream hnone)
    | noStream =>
      rw [forall_prop_of_true nofun]
      have hiff : ((s.objects.acquire .core).forget .stream).Kept ↔
          s.objects.held .core = none := by
        rw [Slots.kept_forget_iff (hs.sound.acquire _), Slots.kept_acquire_iff hs.sound,
          held_stream_acquire_core, and_iff_right h.kept, and_iff_left_of_imp h.stream]
      refine ⟨fun h' => hiff.mp h'.kept, fun hnone => ⟨hiff.mpr hnone, fun _ => ?_⟩⟩
      exact Slots.held_forget_self ..
    | notConnected =>
      rw [forall_prop_of_true nofun]
      exact tidy_connect_iff hs h
    | connected =>
      rw [forall_prop_of_true nofun, ← tidy_connect_iff hs h]
      exact ⟨fun h' => ⟨h'.kept, h'.stream⟩, fun h' => ⟨h'.kept, h'.stream⟩⟩
  · exact iff_of_true h fun hyes => absurd hyes hready

theorem Tidy.stop {s : PipeWireCapture} (h : s.Tidy) : s.stop.Tidy := by
  unfold PipeWireCapture.stop
  split_ifs
  · exact h
  · exact ⟨h.kept, h.stream⟩
  · exact ⟨Slots.kept_releaseAll_iff.mpr h.kept, fun _ =>
      Slots.held_releaseAll (mem_members _) _⟩

/-- After `stop` the pointers are null exactly if the capture ran or they were so before. -/
theorem null_stop_iff {s : PipeWireCapture} (hs : s.Shape) :
    Null s.stop.objects ↔ s.isRunning = true ∨ Null s.objects := by
  unfold PipeWireCapture.stop
  split_ifs with hguard hloop
  · have hrun : s.isRunning ≠ true := by
      intro hrun
      rcases hguard with himpl | hno
      · exact (hs.running hrun).1 himpl
      · exact absurd (hno.symm.trans hrun) nofun
    exact (or_iff_right hrun).symm
  · have hrun : s.isRunning = true := eq_true_of_ne_false (not_or.mp hguard).2
    exact absurd hloop (hs.running hrun).2
  · have hrun : s.isRunning = true := eq_true_of_ne_false (not_or.mp hguard).2
    exact iff_of_true (fun m => Slots.held_releaseAll (mem_members m) _) (.inl hrun)

theorem tidy_destroyed_iff {s : PipeWireCapture} (hs : s.Shape) (h : s.Tidy) :
    s.destroyed.Tidy ↔ s.isRunning = true ∨ Null s.objects := by
  have hiff := kept_forget_members_iff hs.stop.sound h.stop.kept
  rw [← null_stop_iff hs]
  exact ⟨fun h' => hiff.mp h'.kept,
    fun hnull => ⟨hiff.mpr hnull, fun _ => Slots.held_forgetAll (mem_members _) _⟩⟩

/-- In every order of `init`, `start`, `stop` and the destructor, however far each of
them comes: `init` only comes to null pointers, `start` to a capture without a core,
and the destructor to a capture that runs or has null pointers, exactly if no object of
PipeWire is ever lost; and then a callback never gets an `Impl` that is gone, and where
the pointers are null nothing is live. -/
theorem tidy_throughout_iff (events : List Event) :
    Runs.Along step Clear {} events ↔
      Runs.Always step (fun s => s.Tidy ∧ s.CallsBack) {} events := by
  refine Runs.along_iff_always (I := Shape) (fun s e s' hstep hs => shape_step hstep hs)
    (fun s e s' hstep hs h => ?_) shape_start ⟨tidy_start, callsBack_of_tidy shape_start tidy_start⟩
  have htidy : s.Clear e ↔ s'.Tidy := by
    cases e with
    | init result => exact Option.some.inj hstep ▸ (tidy_init_iff hs h.1 result).symm
    | start result => exact Option.some.inj hstep ▸ (tidy_start_iff hs h.1 result).symm
    | stop => exact Option.some.inj hstep ▸ iff_of_true trivial h.1.stop
    | destroyed => exact Option.some.inj hstep ▸ (tidy_destroyed_iff hs h.1).symm
  rw [htidy]
  exact ⟨fun h' => ⟨h', callsBack_of_tidy (shape_step hstep hs) h'⟩, And.left⟩

end PipeWireCapture

end Degoonification
