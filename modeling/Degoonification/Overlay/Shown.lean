import Degoonification.Library.Raster
import Degoonification.Overlay.Coverage

/-! What is on screen after a run of `render_boxes` calls. A call that paints
leaves its own boxes on the displayed buffer and remembers them; a call that is
skipped asks for boxes close to the remembered ones, whatever was skipped before
it, so the difference never accumulates. -/

namespace Degoonification.Overlay

/-- Coordinate by coordinate, two boxes differ by at most 0.003. -/
structure Near (a b : BoundingBox) : Prop where
  x : |a.x - b.x| ≤ 3 / 1000
  y : |a.y - b.y| ≤ 3 / 1000
  width : |a.width - b.width| ≤ 3 / 1000
  height : |a.height - b.height| ≤ 3 / 1000

theorem Near.refl (b : BoundingBox) : Near b b := by
  constructor <;> norm_num

/-- The pixel in column `x` and row `y` lies on one of the boxes. -/
def Covered (w h : UInt32) (boxes : List BoundingBox) (x y : ℕ) : Prop :=
  ∃ b ∈ boxes, (⌊b.left * w.toNat⌋₊ ≤ x ∧ x < ⌊b.right * w.toNat⌋₊) ∧
    ⌊b.top * h.toNat⌋₊ ≤ y ∧ y < ⌊b.bottom * h.toNat⌋₊

/-- The configured color, or an opaque one. -/
def IsPaint (config : OverlayConfig) (color : UInt32) : Prop :=
  color = config.frostedColorArgb ∨ 0xFF000000 ≤ color

/-- The displayed buffer is painted on the boxes and transparent elsewhere. -/
def Displays (config : OverlayConfig) (impl : Impl) (boxes : List BoundingBox) : Prop :=
  ∀ y < impl.height.toNat, ∀ x < impl.width.toNat,
    let color := (impl.buffers impl.currentBuffer).data (y * impl.width.toNat + x)
    (Covered impl.width impl.height boxes x y → IsPaint config color) ∧
      (¬Covered impl.width impl.height boxes x y → color = 0)

/-! ### Pixels -/

/-- The pixel coordinate of an edge inside the unit interval. -/
theorem toNat_pixelEdge {q : ℚ} (h0 : 0 ≤ q) (h1 : q ≤ 1) (w : UInt32) :
    (min (truncToUInt32 (q * w.toNat)) w).toNat = ⌊q * w.toNat⌋₊ := by
  have hw : (0 : ℚ) ≤ w.toNat := Nat.cast_nonneg _
  have hle : q * w.toNat ≤ w.toNat := mul_le_of_le_one_left hw h1
  have hlt : (w.toNat : ℚ) < 2 ^ 32 := by exact_mod_cast w.toNat_lt
  rw [Loops.toNat_min, toNat_truncToUInt32 (mul_nonneg h0 hw) (hle.trans_lt hlt),
    Nat.min_eq_left]
  exact Nat.floor_le_of_le hle

theorem contains_pixelRect_iff {w h x y : UInt32} {b : BoundingBox} (hb : EdgesInSquare b) :
    (pixelRect w h b).Contains x y ↔
      (⌊b.left * w.toNat⌋₊ ≤ x.toNat ∧ x.toNat < ⌊b.right * w.toNat⌋₊) ∧
        ⌊b.top * h.toNat⌋₊ ≤ y.toNat ∧ y.toNat < ⌊b.bottom * h.toNat⌋₊ := by
  simp only [PixelRect.Contains, pixelRect, UInt32.le_iff_toNat_le, UInt32.lt_iff_toNat_lt,
    toNat_pixelEdge hb.left.1 hb.left.2, toNat_pixelEdge hb.right.1 hb.right.2,
    toNat_pixelEdge hb.top.1 hb.top.2, toNat_pixelEdge hb.bottom.1 hb.bottom.2]

section Call

variable {config : OverlayConfig} {w h : UInt32} {frame : Option VideoFrame}
  {boxes : List BoundingBox}

/-- A call writes the pixels on its boxes. -/
theorem exists_mem_paintWrites_iff_covered (hsquare : ∀ b ∈ boxes, EdgesInSquare b)
    (hun : ∀ b ∈ boxes, Unwrapped config w h frame b) {x y : ℕ} (hx : x < w.toNat)
    (hy : y < h.toNat) :
    (∃ p ∈ paintWrites config (2 ^ 32) w h frame boxes, p.1 = y * w.toNat + x) ↔
      Covered w h boxes x y := by
  rw [exists_mem_paintWrites_iff hun]
  refine exists_congr fun b => and_congr_right fun hb => ?_
  have hoffset (y' : UInt32) (hy' : y'.toNat * w.toNat < 2 ^ 32) :
      (y' * w).toNat = y'.toNat * w.toNat := by
    rw [UInt32.toNat_mul, Nat.mod_eq_of_lt hy']
  constructor
  · rintro ⟨x', y', hcontains, hindex⟩
    have hx' : x'.toNat < w.toNat := by
      have hx2 : (pixelRect w h b).x2 ≤ w := Loops.min_le_end _ _
      exact UInt32.lt_iff_toNat_lt.mp (UInt32.lt_of_lt_of_le hcontains.1.2 hx2)
    rw [pixelIndex, hoffset y' ((hun b hb).offset x' y' hcontains)] at hindex
    obtain ⟨rfl, rfl⟩ := Raster.row_col_eq hx' hx hindex
    exact (contains_pixelRect_iff (hsquare b hb)).mp hcontains
  · intro hcovered
    have hx' : (UInt32.ofNat x).toNat = x := UInt32.toNat_ofNat_of_lt' (hx.trans w.toNat_lt)
    have hy' : (UInt32.ofNat y).toNat = y := UInt32.toNat_ofNat_of_lt' (hy.trans h.toNat_lt)
    have hcontains : (pixelRect w h b).Contains (.ofNat x) (.ofNat y) := by
      rw [contains_pixelRect_iff (hsquare b hb), hx', hy']
      exact hcovered
    refine ⟨.ofNat x, .ofNat y, hcontains, ?_⟩
    rw [pixelIndex, hoffset _ ((hun b hb).offset _ _ hcontains), hx', hy']

theorem isPaint_frosted (r g b : UInt8) : IsPaint config (frosted r g b) := by
  refine Or.inr ?_
  simp only [frosted, UInt32.le_iff_toNat_le, UInt32.toNat_or]
  exact Nat.left_le_or.trans (Nat.left_le_or.trans Nat.left_le_or)

theorem isPaint_of_mem_paintWrites {n : ℕ} {p : ℕ × UInt32}
    (hp : p ∈ paintWrites config n w h frame boxes) : IsPaint config p.2 := by
  obtain ⟨box, -, hp⟩ := List.mem_flatMap.mp hp
  rw [boxWrites] at hp
  split at hp
  · obtain ⟨y, -, hp⟩ := List.mem_flatMap.mp hp
    obtain ⟨x, -, hp⟩ := List.mem_flatMap.mp hp
    obtain ⟨dy, -, hp⟩ := List.mem_flatMap.mp hp
    obtain ⟨dx, -, rfl⟩ := List.mem_map.mp hp
    rw [blockColor]
    split_ifs <;> exact isPaint_frosted _ _ _
  · obtain ⟨y, -, hp⟩ := List.mem_flatMap.mp hp
    obtain ⟨x, -, rfl⟩ := List.mem_map.mp hp
    exact Or.inl rfl

end Call

/-- A word of a painted buffer holds the color of a write to it, or is clear if it
has none. -/
theorem painted_cases (buf : ShmBuffer) (writes : List (ℕ × UInt32)) {i : ℕ}
    (hi : i < buf.size / 4) :
    (∃ p ∈ writes, p.1 = i ∧ (Impl.painted buf writes).data i = p.2) ∨
      (∀ p ∈ writes, p.1 ≠ i) ∧ (Impl.painted buf writes).data i = 0 := by
  have h := Raster.foldl_update_cases writes (fun i => if i < buf.size / 4 then 0 else buf.data i) i
  exact h.imp_right fun h => ⟨h.1, h.2.trans (if_pos hi)⟩

/-! ### One call -/

/-- A configured overlay whose two buffers have all pixels of a `w` by `h` screen,
showing the boxes it painted last. -/
structure Presenting (config : OverlayConfig) (w h : UInt32) (impl : Impl) : Prop where
  width : impl.width = w
  height : impl.height = h
  configured : impl.configured = true
  size : ∀ b, (impl.buffers b).size = 4 * (w.toNat * h.toNat)
  displays : Displays config impl impl.lastRenderedBoxes

section Step

variable {config : OverlayConfig} {w h : UInt32} {impl : Impl} {frame : Option VideoFrame}
  {boxes : List BoundingBox}

theorem lt_area {x y : ℕ} (hx : x < w.toNat) (hy : y < h.toNat) :
    y * w.toNat + x < w.toNat * h.toNat := by
  have hrow : (y + 1) * w.toNat ≤ h.toNat * w.toNat := Nat.mul_le_mul_right _ hy
  rw [Nat.add_mul, Nat.one_mul, Nat.mul_comm h.toNat] at hrow
  omega

theorem Presenting.words (hp : Presenting config w h impl) (b : Fin 2) :
    (impl.buffers b).size / 4 = w.toNat * h.toNat := by
  rw [hp.size, Nat.mul_div_cancel_left _ (by omega)]

/-- The writes are inside the buffer, also where row offsets wrap. -/
theorem Presenting.writes_lt (hp : Presenting config w h impl) {n : ℕ} {p : ℕ × UInt32}
    (hmem : p ∈ paintWrites config n impl.width impl.height frame boxes) (b : Fin 2) :
    p.1 < (impl.buffers b).size / 4 := by
  obtain ⟨y, hy, x, hx, hpx⟩ := onPixel_of_mem_paintWrites hmem
  have hrow := row_end_le (w := impl.width) hy
  rw [UInt32.lt_iff_toNat_lt] at hx
  rw [hpx, pixelIndex, hp.words, ← hp.width, ← hp.height]
  omega

/-- A call that is not skipped comes back and shows its boxes. -/
theorem Presenting.paint (hp : Presenting config w h impl)
    (hearly : impl.returnsEarly boxes frame = false) (hsquare : ∀ b ∈ boxes, EdgesInSquare b)
    (hun : ∀ b ∈ boxes, Unwrapped config impl.width impl.height frame b) :
    ∃ t, impl.renderBoxes config boxes frame = some t ∧ Presenting config w h t ∧
      t.lastRenderedBoxes = boxes := by
  rw [Impl.renderBoxes, hearly, if_neg Bool.false_ne_true, if_pos (paintEnds_of_unwrapped hun)]
  refine ⟨_, rfl, ⟨hp.width, hp.height, hp.configured, fun b => ?_, fun y hy x hx => ?_⟩, rfl⟩
  · rw [← hp.size b]
    apply Impl.update_keeps (f := ShmBuffer.size)
    rfl
  · simp only [Function.update_self]
    have hwritten := exists_mem_paintWrites_iff_covered hsquare hun hx hy
    have hinside : y * impl.width.toNat + x < (impl.buffers impl.nextBuffer).size / 4 := by
      rw [hp.words, ← hp.width, ← hp.height]
      exact lt_area hx hy
    obtain ⟨p, hmem, hpi, hvalue⟩ | ⟨hnone, hvalue⟩ := painted_cases _
      (paintWrites config (2 ^ 32) impl.width impl.height frame boxes) hinside
    · rw [hvalue]
      exact ⟨fun _ => isPaint_of_mem_paintWrites hmem,
        fun hnot => absurd (hwritten.mp ⟨p, hmem, hpi⟩) hnot⟩
    · rw [hvalue]
      refine ⟨fun hcovered => ?_, fun _ => rfl⟩
      obtain ⟨p, hmem, hpi⟩ := hwritten.mpr hcovered
      exact absurd hpi (hnone p hmem)

theorem near_of_not_boxDiffers {a b : BoundingBox} (hab : boxDiffers a b = false) : Near b a := by
  simp only [boxDiffers, Bool.or_eq_false_iff, decide_eq_false_iff_not, not_lt] at hab
  obtain ⟨⟨⟨hx, hy⟩, hw⟩, hh⟩ := hab
  exact ⟨abs_sub_comm a.x b.x ▸ hx, abs_sub_comm a.y b.y ▸ hy,
    abs_sub_comm a.width b.width ▸ hw, abs_sub_comm a.height b.height ▸ hh⟩

theorem forall₂_near_of_not_boxesDiffer {a b : List BoundingBox}
    (hab : boxesDiffer a b = false) : List.Forall₂ Near b a := by
  simp only [boxesDiffer, Bool.or_eq_false_iff, bne_eq_false_iff_eq] at hab
  obtain ⟨hlen, hany⟩ := hab
  induction a generalizing b with
  | nil => rw [List.length_eq_zero_iff.mp hlen.symm]; exact .nil
  | cons c a ih =>
    cases b with
    | nil => cases hlen
    | cons d b =>
      rw [List.zip_cons_cons, List.any_cons, Bool.or_eq_false_iff] at hany
      exact .cons (near_of_not_boxDiffers hany.1) (ih (Nat.succ.inj hlen) hany.2)

/-- A configured overlay skips only calls for what it shows already. -/
theorem near_of_returnsEarly (hconf : impl.configured = true)
    (hearly : impl.returnsEarly boxes frame = true) :
    List.Forall₂ Near impl.lastRenderedBoxes boxes := by
  rw [Impl.returnsEarly, hconf, Bool.not_true, Bool.false_or, Bool.or_eq_true, Bool.and_eq_true,
    Bool.and_eq_true, List.isEmpty_iff, List.isEmpty_iff, Bool.not_eq_true'] at hearly
  obtain ⟨hboxes, hlast⟩ | ⟨hdiffer, -⟩ := hearly
  · rw [hboxes, hlast]
    exact .nil
  · exact forall₂_near_of_not_boxesDiffer hdiffer

end Step

/-! ### Runs -/

/-- A call of `render_boxes` with boxes in the unit square and no frame or one that
has its data. -/
structure RenderCall where
  boxes : List BoundingBox
  frame : Option VideoFrame
  onScreen : ∀ b ∈ boxes, EdgesInSquare b
  valid : ∀ f, frame = some f → f.Valid

def RenderCall.event (c : RenderCall) : Event := .render c.boxes c.frame

/-- A configured overlay that has painted nothing on a `w` by `h` screen. -/
structure Blank (w h : UInt32) (s : Session) (impl : Impl) : Prop where
  running : s.hung = false
  overlay : s.impl = some impl
  width : impl.width = w
  height : impl.height = h
  configured : impl.configured = true
  size : ∀ b, (impl.buffers b).size = 4 * (w.toNat * h.toNat)
  clear : ∀ i < w.toNat * h.toNat, (impl.buffers impl.currentBuffer).data i = 0
  unpainted : impl.lastRenderedBoxes = []

/-- Nothing wraps in a call that is not skipped. -/
def NothingWraps (s : Session) : Event → Prop
  | .render boxes frame => ∀ impl, s.impl = some impl → impl.returnsEarly boxes frame = false →
    ∀ b ∈ boxes, Unwrapped s.config impl.width impl.height frame b
  | _ => True

/-- A call taken from `s` to `t` stays inside its memory, comes back and leaves on
the displayed buffer a list of boxes close to its own. -/
structure Shows (s : Session) (c : RenderCall) (t : Session) : Prop where
  writes : ∀ impl, s.impl = some impl → impl.returnsEarly c.boxes c.frame = false →
    ∀ p ∈ paintWrites s.config (2 ^ 32) impl.width impl.height c.frame c.boxes,
      p.1 < (impl.buffers impl.nextBuffer).size / 4
  reads : ∀ impl, s.impl = some impl → impl.returnsEarly c.boxes c.frame = false →
    ∀ o ∈ paintReads s.config (2 ^ 32) impl.width impl.height c.frame c.boxes,
      ∃ f d, c.frame = some f ∧ f.data = some d ∧ o < d.length
  returns : t.hung = false
  shown : ∃ impl painted, t.impl = some impl ∧ List.Forall₂ Near painted c.boxes ∧
    Displays t.config impl painted

/-- Between calls. -/
structure Steady (w h : UInt32) (s : Session) (impl : Impl) : Prop where
  running : s.hung = false
  overlay : s.impl = some impl
  presenting : Presenting s.config w h impl

section Run

variable {w h : UInt32} {s : Session} {impl : Impl}

theorem Blank.steady (hs : Blank w h s impl) : Steady w h s impl := by
  refine ⟨hs.running, hs.overlay, hs.width, hs.height, hs.configured, hs.size, ?_⟩
  intro y hy x hx
  rw [hs.width] at hx ⊢
  rw [hs.height] at hy
  have hempty : ¬Covered w impl.height impl.lastRenderedBoxes x y := by
    rw [hs.unpainted]
    rintro ⟨b, hb, -⟩
    exact List.not_mem_nil hb
  exact ⟨fun hcovered => absurd hcovered hempty, fun _ => hs.clear _ (lt_area hx hy)⟩

theorem Steady.writes (hs : Steady w h s impl) (c : RenderCall) {impl' : Impl}
    (himpl' : s.impl = some impl') {p : ℕ × UInt32}
    (hp : p ∈ paintWrites s.config (2 ^ 32) impl'.width impl'.height c.frame c.boxes) :
    p.1 < (impl'.buffers impl'.nextBuffer).size / 4 := by
  obtain rfl := Option.some.inj (hs.overlay.symm.trans himpl')
  exact hs.presenting.writes_lt hp _

/-- A call between calls, whether it is skipped or paints. -/
theorem Steady.step (hs : Steady w h s impl) (c : RenderCall) (hun : NothingWraps s c.event) :
    ∃ t impl', s.step c.event = some t ∧ Steady w h t impl' ∧ Shows s c t := by
  cases hearly : impl.returnsEarly c.boxes c.frame with
  | true =>
    have hnear := near_of_returnsEarly hs.presenting.configured hearly
    refine ⟨s, impl, ?_, hs, fun _ himpl _ _ => hs.writes c himpl,
      fun _ _ _ _ => paintReads_lt c.valid, hs.running,
      impl, impl.lastRenderedBoxes, hs.overlay, hnear, hs.presenting.displays⟩
    simp only [Session.step, RenderCall.event, hs.running, hs.overlay, hearly, if_true,
      Bool.false_eq_true, if_false]
  | false =>
    obtain ⟨t, hrender, hpresenting, hlast⟩ := hs.presenting.paint hearly c.onScreen
      (hun impl hs.overlay hearly)
    refine ⟨s.paint impl c.boxes c.frame, t, ?_, ?_⟩
    · simp only [Session.step, RenderCall.event, hs.running, hs.overlay, hearly,
        Bool.false_eq_true, if_false]
    · have hnear : List.Forall₂ Near t.lastRenderedBoxes c.boxes := by
        rw [hlast]
        exact List.forall₂_same.mpr fun b _ => Near.refl b
      simp only [Session.paint, hrender]
      exact ⟨⟨hs.running, rfl, hpresenting⟩, fun _ himpl _ _ => hs.writes c himpl,
        fun _ _ _ _ => paintReads_lt c.valid, hs.running,
        t, t.lastRenderedBoxes, rfl, hnear, hpresenting.displays⟩

/-- A call is always possible; one whose paint loops never end leaves the session
hung. -/
theorem Steady.exists_step (hs : Steady w h s impl) (c : RenderCall) :
    ∃ t, s.step c.event = some t := by
  simp only [Session.step, RenderCall.event, hs.running, hs.overlay, Bool.false_eq_true, if_false]
  split_ifs
  · exact ⟨s, rfl⟩
  · exact ⟨_, rfl⟩

theorem Steady.run {calls : List RenderCall} (hs : Steady w h s impl)
    (hun : Runs.Along Session.step NothingWraps s (calls.map RenderCall.event)) :
    ∃ t impl', Runs.exec Session.step s (calls.map RenderCall.event) = some t ∧
      Steady w h t impl' := by
  induction calls generalizing s impl with
  | nil => exact ⟨s, impl, rfl, hs⟩
  | cons c calls ih =>
    obtain ⟨t', ht'⟩ := hs.exists_step c
    obtain ⟨t, impl', ht, hsteady, -⟩ := hs.step c (hun t' ht').1
    obtain ⟨u, impl'', hu, hsteady'⟩ := ih hsteady (hun t ht).2
    exact ⟨u, impl'', Runs.exec_cons.mpr ⟨t, ht, hu⟩, hsteady'⟩

/-- On screens of up to `2 ^ 32` pixels and sides of up to `2 ^ 31` nothing ever
wraps. -/
theorem Steady.along_of_small (hs : Steady w h s impl) (harea : w.toNat * h.toNat ≤ 2 ^ 32)
    (hw : w.toNat ≤ 2 ^ 31) (hh : h.toNat ≤ 2 ^ 31) (calls : List RenderCall) :
    Runs.Along Session.step NothingWraps s (calls.map RenderCall.event) := by
  induction calls generalizing s impl with
  | nil => trivial
  | cons c calls ih =>
    have hc : NothingWraps s c.event := by
      intro impl' himpl' _ b _
      obtain rfl := Option.some.inj (hs.overlay.symm.trans himpl')
      rw [hs.presenting.width, hs.presenting.height]
      exact unwrapped_of_small harea hw hh b
    intro t ht
    obtain ⟨t', impl', ht', hsteady, -⟩ := hs.step c hc
    obtain rfl := Option.some.inj (ht'.symm.trans ht)
    exact ⟨hc, ih hsteady⟩

end Run

/-- After every call of a run in which nothing wraps, the call has stayed inside its
memory and the screen shows its boxes up to 0.003. -/
theorem shown_after_run {w h : UInt32} {start : Session} {impl : Impl}
    (hstart : Blank w h start impl) (calls : List RenderCall) (c : RenderCall)
    (hun : Runs.Along Session.step NothingWraps start ((calls ++ [c]).map RenderCall.event)) :
    ∃ s t, Runs.exec Session.step start (calls.map RenderCall.event) = some s ∧
      s.step c.event = some t ∧ Shows s c t := by
  rw [List.map_append] at hun
  obtain ⟨hcalls, hlast⟩ := hun.append
  obtain ⟨s, impl, hs, hsteady⟩ := hstart.steady.run hcalls
  obtain ⟨t', ht'⟩ := hsteady.exists_step c
  obtain ⟨t, -, ht, -, hshows⟩ := hsteady.step c (hlast s hs t' ht').1
  exact ⟨s, t, hs, ht, hshows⟩

/-- A small screen with a source frame, then without. -/
def smallSession : Session :=
  { config := {}, impl := some (.init [.configure 4 2] fun _ => true) }

def leftHalf (frame : Option VideoFrame) (valid : ∀ f, frame = some f → f.Valid) : RenderCall where
  boxes := [{ x := 0, y := 0, width := 1 / 2, height := 1 }]
  frame := frame
  onScreen := List.forall_mem_singleton.mpr (by
    constructor <;> norm_num [BoundingBox.left, BoundingBox.top, BoundingBox.right,
      BoundingBox.bottom])
  valid := valid

/-- A gray pixel. -/
def grayFrame : VideoFrame :=
  { width := 1, height := 1, stride := 4, data := some [128, 128, 128, 255] }

theorem grayFrame_valid : grayFrame.Valid where
  width_lt := by decide
  height_lt := by decide
  stride_lt := by decide
  row _ _ := by decide
  size d hd := Option.some.inj hd ▸ by decide

theorem smallSession_blank :
    Blank 4 2 smallSession (.init [.configure 4 2] fun _ => true) where
  running := rfl
  overlay := rfl
  width := rfl
  height := rfl
  configured := rfl
  size _ := rfl
  clear _ _ := rfl
  unpainted := rfl

theorem smallSession_shown :
    ∃ s t, Runs.exec Session.step smallSession
        ([leftHalf (some grayFrame) fun _ hf => Option.some.inj hf ▸ grayFrame_valid].map
          RenderCall.event) = some s ∧
      s.step (leftHalf none fun _ hf => nomatch hf).event = some t ∧
      Shows s (leftHalf none fun _ hf => nomatch hf) t :=
  shown_after_run smallSession_blank _ _
    (smallSession_blank.steady.along_of_small (by decide) (by decide) (by decide) _)

/-- A screen with one more row than its 32-bit offsets can tell apart. -/
def tallSession : Session :=
  { config := {}, impl := some (.init [.configure 65536 65537] fun _ => true) }

/-- One pixel in the last row. -/
def lastPixel : RenderCall where
  boxes := [{ x := 0, y := 65536 / 65537, width := 1 / 65536, height := 1 / 65537 }]
  frame := none
  onScreen := List.forall_mem_singleton.mpr (by
    constructor <;> norm_num [BoundingBox.left, BoundingBox.top, BoundingBox.right,
      BoundingBox.bottom])
  valid _ h := nomatch h

/-- A box close to the last pixel is away from the first row. -/
theorem not_covered_of_near_lastPixel {painted : List BoundingBox}
    (hnear : List.Forall₂ Near painted lastPixel.boxes) : ¬Covered 65536 65537 painted 0 0 := by
  rintro ⟨b, hb, -, htop, -⟩
  cases hnear with
  | cons hlast hrest =>
    cases hrest
    obtain rfl := List.mem_singleton.mp hb
    have hy := (abs_le.mp hlast.y).1
    have hfloor : 1 ≤ ⌊b.top * (65537 : UInt32).toNat⌋₊ := by
      refine Nat.le_floor ?_
      have hrows : (65537 : UInt32).toNat = 65537 := rfl
      rw [hrows, BoundingBox.top]
      norm_num at hy ⊢
      linarith
    omega

/-- The 32-bit offset of the last row is 0, so its pixel is painted in the first row. -/
theorem lastPixel_misplaced :
    Blank 65536 65537 tallSession (.init [.configure 65536 65537] fun _ => true) ∧
      ∀ t, tallSession.step lastPixel.event = some t → ¬Shows tallSession lastPixel t := by
  refine ⟨⟨rfl, rfl, rfl, rfl, rfl, fun _ => rfl, fun _ _ => rfl, rfl⟩, fun t ht hshows => ?_⟩
  obtain ⟨impl, painted, himpl, hnear, hdisplays⟩ := hshows.shown
  have hscreen : (tallSession.step lastPixel.event).bind (fun t => t.impl.map fun i =>
      (i.width, i.height, (i.buffers i.currentBuffer).data 0)) =
        some (65536, 65537, 0xFF0F172A) := by
    decide +kernel
  rw [ht, Option.bind_some, himpl, Option.map_some, Option.some.injEq, Prod.mk.injEq,
    Prod.mk.injEq] at hscreen
  obtain ⟨hw, hh, hcolor⟩ := hscreen
  have hpixel := hdisplays 0 (by rw [hh]; decide) 0 (by rw [hw]; decide)
  have huncovered : ¬Covered impl.width impl.height painted 0 0 := by
    rw [hw, hh]
    exact not_covered_of_near_lastPixel hnear
  have hzero := hpixel.2 huncovered
  rw [Nat.zero_mul, hcolor] at hzero
  exact absurd hzero (by decide)

end Degoonification.Overlay
