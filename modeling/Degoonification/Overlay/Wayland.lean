import Degoonification.Library.Runs
import Degoonification.Overlay.Painting
import Mathlib.Logic.Function.Basic

/-! `WaylandOverlay`: the layer surface, its two shared-memory buffers and
`render_boxes`, and a session of an overlay with its compositor. The callbacks of
the compositor run at the roundtrip inside `init` and at `dispatch_events`. A
commit hands a buffer to the compositor, which keeps it until it sends the release
event of that commit; which commits are still kept is not recorded by the code. -/

namespace Degoonification.Overlay

/-- `size` is in bytes. `data` is the memory from the start of the mapping on, of
which the buffer is the first `size / 4` words; `wlBuf` says that there is one. -/
structure ShmBuffer where
  wlBuf : Bool := false
  data : ℕ → UInt32 := fun _ => 0
  size : ℕ := 0
  busy : Bool := false

structure Impl where
  width : UInt32 := 1920
  height : UInt32 := 1080
  configured : Bool := false
  buffers : Fin 2 → ShmBuffer := fun _ => {}
  currentBuffer : Fin 2 := 0
  lastRenderedBoxes : List BoundingBox := []

/-- The bytes of a buffer; the stride is a 32-bit product. -/
def shmSize (width height : UInt32) : ℕ := (width * 4).toNat * height.toNat

/-- `allocate_shm_buffer`, where the kernel may refuse the memory. -/
def allocateShmBuffer (granted : Bool) (buf : ShmBuffer) (width height : UInt32) : ShmBuffer :=
  if granted then { wlBuf := true, size := shmSize width height } else buf

/-- The difference between two boxes that counts as a change. -/
def boxDiffers (a b : BoundingBox) : Bool :=
  decide (3 / 1000 < |a.x - b.x|) || decide (3 / 1000 < |a.y - b.y|) ||
    decide (3 / 1000 < |a.width - b.width|) || decide (3 / 1000 < |a.height - b.height|)

def boxesDiffer (a b : List BoundingBox) : Bool :=
  a.length != b.length || (a.zip b).any fun p => boxDiffers p.1 p.2

/-- A callback of the layer surface. -/
inductive Callback where
  | configure (width height : UInt32)
  | closed

namespace Impl

/-- `layer_surface_configure` and `layer_surface_closed`. -/
def dispatch (s : Impl) : Callback → Impl
  | .configure width height =>
    if 0 < width ∧ 0 < height then { s with width, height, configured := true }
    else { s with configured := true }
  | .closed => { s with configured := false }

/-- The screen after the callbacks of the roundtrip in `init`. -/
def announced (callbacks : List Callback) : Impl := callbacks.foldl dispatch {}

/-- `init` that returns true: the callbacks of its roundtrip, then the buffers.
That a buffer could not be allocated is not noticed. -/
def init (callbacks : List Callback) (granted : Fin 2 → Bool) : Impl :=
  let s := announced callbacks
  { s with buffers := fun b => allocateShmBuffer (granted b) (s.buffers b) s.width s.height }

@[simp] theorem dispatch_buffers (s : Impl) (c : Callback) :
    (s.dispatch c).buffers = s.buffers := by
  cases c with
  | configure width height =>
    simp only [dispatch]
    split_ifs <;> rfl
  | closed => rfl

@[simp] theorem dispatch_currentBuffer (s : Impl) (c : Callback) :
    (s.dispatch c).currentBuffer = s.currentBuffer := by
  cases c with
  | configure width height =>
    simp only [dispatch]
    split_ifs <;> rfl
  | closed => rfl

/-- The buffer the next paint goes to. -/
def nextBuffer (s : Impl) : Fin 2 := 1 - s.currentBuffer

/-- The early returns of `render_boxes`. -/
def returnsEarly (s : Impl) (boxes : List BoundingBox) (frame : Option VideoFrame) : Bool :=
  !s.configured || (boxes.isEmpty && s.lastRenderedBoxes.isEmpty) ||
    (!boxesDiffer boxes s.lastRenderedBoxes && frame.isNone)

/-- `std::memset` of the whole buffer, then the writes. -/
def painted (buf : ShmBuffer) (writes : List (ℕ × UInt32)) : ShmBuffer :=
  let cleared : ℕ → UInt32 := fun i => if i < buf.size / 4 then 0 else buf.data i
  { buf with data := writes.foldl (fun data p => Function.update data p.1 p.2) cleared }

/-- `render_boxes` up to the commit; none if a paint loop never ends. -/
def renderBoxes (s : Impl) (config : OverlayConfig) (boxes : List BoundingBox)
    (frame : Option VideoFrame) : Option Impl :=
  if s.returnsEarly boxes frame then some s
  else if paintEnds config s.width s.height frame boxes then
    let current := s.nextBuffer
    let writes := paintWrites config (2 ^ 32) s.width s.height frame boxes
    some { s with
      currentBuffer := current
      buffers := Function.update s.buffers current (painted (s.buffers current) writes)
      lastRenderedBoxes := boxes }
  else none

/-- The same screen and the same two buffers, whatever they contain. -/
structure SameBuffers (s t : Impl) : Prop where
  width : t.width = s.width
  height : t.height = s.height
  configured : t.configured = s.configured
  size : ∀ b, (t.buffers b).size = (s.buffers b).size
  wlBuf : ∀ b, (t.buffers b).wlBuf = (s.buffers b).wlBuf

/-- What a new buffer has in common with the old one, all buffers have. -/
theorem update_keeps {α : Type*} {buffers : Fin 2 → ShmBuffer} {b : Fin 2} {buf : ShmBuffer}
    {f : ShmBuffer → α} (h : f buf = f (buffers b)) (c : Fin 2) :
    f (Function.update buffers b buf c) = f (buffers c) := by
  by_cases hc : c = b
  · rw [hc, Function.update_self, h]
  · rw [Function.update_of_ne hc]

/-- A call that does not return early paints the other buffer. -/
theorem renderBoxes_paints {s t : Impl} {config : OverlayConfig} {boxes : List BoundingBox}
    {frame : Option VideoFrame} (hearly : s.returnsEarly boxes frame = false)
    (h : s.renderBoxes config boxes frame = some t) :
    SameBuffers s t ∧ t.currentBuffer = s.nextBuffer := by
  rw [renderBoxes, hearly, if_neg Bool.false_ne_true] at h
  split_ifs at h
  obtain rfl := Option.some.inj h
  exact ⟨⟨rfl, rfl, rfl, update_keeps rfl, update_keeps rfl⟩, rfl⟩

end Impl

/-- An overlay and what its compositor holds: the buffers attached and committed
since `init`, first to last, and the commits whose release event arrived.
`paintedHeld` records that a held buffer was cleared or painted, and `hung` that a
paint loop never ends. -/
structure Session where
  config : OverlayConfig
  impl : Option Impl := none
  commits : List (Fin 2) := []
  released : List ℕ := []
  paintedHeld : Bool := false
  hung : Bool := false

inductive Event where
  | init (callbacks : List Callback) (granted : Fin 2 → Bool)
  | callback (c : Callback)
  | release (commit : ℕ)
  | render (boxes : List BoundingBox) (frame : Option VideoFrame)

namespace Session

/-- From its commit until the release event of that commit a buffer is held. -/
def held (s : Session) (impl : Impl) (b : Fin 2) : Bool :=
  (impl.buffers b).wlBuf &&
    (List.range s.commits.length).any fun k => s.commits[k]? == some b && !s.released.contains k

/-- `buffer_release`. -/
def bufferRelease (impl : Impl) (b : Fin 2) : Impl :=
  { impl with buffers := Function.update impl.buffers b { impl.buffers b with busy := false } }

/-- A call of `render_boxes` that does not return early, with its commit. -/
def paint (s : Session) (impl : Impl) (boxes : List BoundingBox) (frame : Option VideoFrame) :
    Session :=
  let s := { s with paintedHeld := s.paintedHeld || s.held impl impl.nextBuffer }
  match impl.renderBoxes s.config boxes frame with
  | some impl => { s with impl := some impl, commits := s.commits ++ [impl.currentBuffer] }
  | none => { s with hung := true }

def step (s : Session) (e : Event) : Option Session :=
  if s.hung then none
  else match e, s.impl with
    | .init callbacks granted, _ =>
      some { s with impl := some (.init callbacks granted), commits := [], released := [] }
    | .callback c, some impl => some { s with impl := some (impl.dispatch c) }
    | .release k, some impl =>
      match s.commits[k]? with
      | some b =>
        if (impl.buffers b).wlBuf ∧ k ∉ s.released then
          some { s with impl := some (bufferRelease impl b), released := k :: s.released }
        else none
      | none => none
    | .render boxes frame, some impl =>
      if impl.returnsEarly boxes frame then some s else some (s.paint impl boxes frame)
    | .render _ _, none => some s
    | _, none => none

/-- What a step can do. -/
inductive Steps (s : Session) : Event → Session → Prop
  | init (callbacks : List Callback) (granted : Fin 2 → Bool) :
    Steps s (.init callbacks granted)
      { s with impl := some (.init callbacks granted), commits := [], released := [] }
  | callback (c : Callback) {impl : Impl} (himpl : s.impl = some impl) :
    Steps s (.callback c) { s with impl := some (impl.dispatch c) }
  | release (k : ℕ) {impl : Impl} {b : Fin 2} (himpl : s.impl = some impl)
    (hb : s.commits[k]? = some b) :
    Steps s (.release k)
      { s with impl := some (bufferRelease impl b), released := k :: s.released }
  | skip (boxes : List BoundingBox) (frame : Option VideoFrame)
    (hearly : ∀ impl, s.impl = some impl → impl.returnsEarly boxes frame = true) :
    Steps s (.render boxes frame) s
  | paint (boxes : List BoundingBox) (frame : Option VideoFrame) {impl : Impl}
    (himpl : s.impl = some impl) (hearly : impl.returnsEarly boxes frame = false) :
    Steps s (.render boxes frame) (s.paint impl boxes frame)

theorem steps_of_step {s t : Session} {e : Event} (h : s.step e = some t) : Steps s e t := by
  simp only [step] at h
  split_ifs at h
  cases himpl : s.impl with
  | none =>
    rw [himpl] at h
    cases e with
    | init callbacks granted =>
      obtain rfl := Option.some.inj h
      exact .init callbacks granted
    | render boxes frame =>
      obtain rfl := Option.some.inj h
      exact .skip boxes frame fun impl himpl' => nomatch himpl.symm.trans himpl'
    | callback | release => cases h
  | some impl =>
    rw [himpl] at h
    cases e with
    | init callbacks granted =>
      obtain rfl := Option.some.inj h
      exact .init callbacks granted
    | callback c =>
      obtain rfl := Option.some.inj h
      exact .callback c himpl
    | release k =>
      cases hb : s.commits[k]? with
      | none => simp only [hb, reduceCtorEq] at h
      | some b =>
        simp only [hb] at h
        split_ifs at h
        obtain rfl := Option.some.inj h
        exact .release k himpl hb
    | render boxes frame =>
      cases hearly : impl.returnsEarly boxes frame with
      | true =>
        simp only [hearly, if_true, Option.some.injEq] at h
        refine h ▸ .skip boxes frame fun impl' himpl' => ?_
        exact Option.some.inj (himpl.symm.trans himpl') ▸ hearly
      | false =>
        simp only [hearly, Bool.false_eq_true, if_false, Option.some.injEq] at h
        exact h ▸ .paint boxes frame himpl hearly

theorem sameBuffers_bufferRelease (impl : Impl) (b : Fin 2) :
    impl.SameBuffers (bufferRelease impl b) :=
  ⟨rfl, rfl, rfl, Impl.update_keeps rfl, Impl.update_keeps rfl⟩

/-- A paint ends with the commit of the other buffer, or never. -/
theorem paint_cases (s : Session) (impl : Impl) {boxes : List BoundingBox}
    {frame : Option VideoFrame} (hearly : impl.returnsEarly boxes frame = false) :
    let p := { s with paintedHeld := s.paintedHeld || s.held impl impl.nextBuffer }
    s.paint impl boxes frame = { p with hung := true } ∨
      ∃ t, impl.SameBuffers t ∧ t.currentBuffer = impl.nextBuffer ∧
        s.paint impl boxes frame =
          { p with impl := some t, commits := s.commits ++ [impl.nextBuffer] } := by
  intro p
  rw [paint]
  cases hrender : impl.renderBoxes s.config boxes frame with
  | none => exact Or.inl rfl
  | some t =>
    obtain ⟨hsame, hcurrent⟩ := Impl.renderBoxes_paints hearly hrender
    exact Or.inr ⟨t, hsame, hcurrent, by simp only [hcurrent, p]⟩

end Session

end Degoonification.Overlay
