import Degoonification.Overlay.Shown

/-! `WindowsOverlay`: a layered window and the bitmap behind it, which every call of
`render_boxes` clears, fills and hands over whole. `WaylandOverlay` instead keeps what is on
screen while the boxes stay the same. With the mosaic off the two show the same picture
after every run of calls whose boxes are either repeated or moved by more than 0.003. -/

namespace Degoonification.Overlay

/-- `bitmapPixels` is the memory of the bitmap, none before `init`, and `window` the picture
last given to `UpdateLayeredWindow`. -/
structure WindowsOverlay where
  frostedColorArgb : UInt32 := 0xEE111827
  isActive : Bool := false
  screenWidth : ℤ := 1920
  screenHeight : ℤ := 1080
  bitmapPixels : Option (ℕ → UInt32) := none
  window : ℕ → UInt32 := fun _ => 0

namespace WindowsOverlay

/-- `init`: the size of the screen, whether there is a window, and the bitmap. That there is
no bitmap is not noticed. -/
def init (o : WindowsOverlay) (width height : ℤ) (hwnd : Bool) (pixels : Option (ℕ → UInt32)) :
    WindowsOverlay × Bool :=
  let o := { o with screenWidth := width, screenHeight := height }
  if hwnd then ({ o with bitmapPixels := pixels, isActive := true }, true) else (o, false)

/-- `std::clamp(static_cast<int>(q), 0, size)` of a number in the range of `int`. -/
def clampEdge (q : ℚ) (size : ℤ) : ℤ :=
  if truncToInt q < 0 then 0 else if size < truncToInt q then size else truncToInt q

/-- The writes of the two loops, `pixels + (y * screen_width_)` being the row. An overflow
of the `int` product, which the language leaves undefined, is read as wrapping. -/
def fillWrites (width : ℤ) (color : UInt32) (x1 y1 x2 y2 : ℤ) : List (ℕ × UInt32) :=
  (List.range (y2 - y1).toNat).flatMap fun (dy : ℕ) =>
    (List.range (x2 - x1).toNat).map fun (dx : ℕ) =>
      ((toInt32 ((y1 + dy) * width) + (x1 + dx)).toNat, color)

def boxWrites (o : WindowsOverlay) (box : BoundingBox) : List (ℕ × UInt32) :=
  fillWrites o.screenWidth o.frostedColorArgb
    (clampEdge (box.left * o.screenWidth) o.screenWidth)
    (clampEdge (box.top * o.screenHeight) o.screenHeight)
    (clampEdge (box.right * o.screenWidth) o.screenWidth)
    (clampEdge (box.bottom * o.screenHeight) o.screenHeight)

/-- `std::memset` of all pixels, then the boxes in order. -/
def painted (o : WindowsOverlay) (pixels : ℕ → UInt32) (boxes : List BoundingBox) :
    ℕ → UInt32 :=
  let totalPixels := (o.screenWidth * o.screenHeight).toNat
  let cleared : ℕ → UInt32 := fun i => if i < totalPixels then 0 else pixels i
  (boxes.flatMap o.boxWrites).foldl (fun data p => Function.update data p.1 p.2) cleared

def renderBoxes (o : WindowsOverlay) (boxes : List BoundingBox) : WindowsOverlay :=
  match o.isActive, o.bitmapPixels with
  | true, some pixels =>
    { o with bitmapPixels := some (o.painted pixels boxes), window := o.painted pixels boxes }
  | _, _ => o

/-- A run of calls. -/
def run (o : WindowsOverlay) (calls : List (List BoundingBox)) : WindowsOverlay :=
  calls.foldl renderBoxes o

end WindowsOverlay

/-! ### One picture -/

/-- One color on the boxes and nothing elsewhere. -/
def Flat (color : UInt32) (w h : UInt32) (data : ℕ → UInt32) (boxes : List BoundingBox) : Prop :=
  ∀ y < h.toNat, ∀ x < w.toNat,
    (Covered w h boxes x y → data (y * w.toNat + x) = color) ∧
      (¬Covered w h boxes x y → data (y * w.toNat + x) = 0)

/-- Writes of one color to the pixels of the boxes, over a cleared buffer. -/
theorem flat_of_writes {color w h : UInt32} {boxes : List BoundingBox}
    {writes : List (ℕ × UInt32)} {cleared : ℕ → UInt32}
    (hclear : ∀ i < w.toNat * h.toNat, cleared i = 0) (hcolor : ∀ p ∈ writes, p.2 = color)
    (hwrites : ∀ y < h.toNat, ∀ x < w.toNat,
      (∃ p ∈ writes, p.1 = y * w.toNat + x) ↔ Covered w h boxes x y) :
    Flat color w h (writes.foldl (fun data p => Function.update data p.1 p.2) cleared) boxes := by
  intro y hy x hx
  have hiff := hwrites y hy x hx
  obtain ⟨p, hp, hpi, hvalue⟩ | ⟨hnone, hvalue⟩ :=
    Raster.foldl_update_cases writes cleared (y * w.toNat + x)
  · rw [hvalue]
    exact ⟨fun _ => hcolor p hp, fun hnot => absurd (hiff.mp ⟨p, hp, hpi⟩) hnot⟩
  · rw [hvalue]
    refine ⟨fun hc => ?_, fun _ => hclear _ (lt_area hx hy)⟩
    obtain ⟨p, hp, hpi⟩ := hiff.mpr hc
    exact absurd hpi (hnone p hp)

/-! ### Windows -/

namespace WindowsOverlay

/-- A window of `w` by `h` pixels with its bitmap, no more than an `int` can count. -/
structure Active (w h : UInt32) (o : WindowsOverlay) : Prop where
  area : w.toNat * h.toNat ≤ 2 ^ 31
  active : o.isActive = true
  width : o.screenWidth = w.toNat
  height : o.screenHeight = h.toNat
  bitmap : o.bitmapPixels.isSome

theorem clampEdge_of_mem {q : ℚ} (h0 : 0 ≤ q) (h1 : q ≤ 1) (w : UInt32) :
    clampEdge (q * (w.toNat : ℤ)) w.toNat = ⌊q * w.toNat⌋₊ := by
  have hw : (0 : ℚ) ≤ w.toNat := Nat.cast_nonneg _
  have hq : 0 ≤ q * w.toNat := mul_nonneg h0 hw
  have htrunc : truncToInt (q * (w.toNat : ℤ)) = ⌊q * w.toNat⌋₊ := by
    rw [Int.cast_natCast, truncToInt, Int.tdiv_eq_ediv_of_nonneg (Rat.num_nonneg.mpr hq),
      ← Rat.floor_def]
    exact (Int.natCast_floor_eq_floor hq).symm
  have hle : ⌊q * w.toNat⌋₊ ≤ w.toNat :=
    Nat.floor_le_of_le (mul_le_of_le_one_left hw h1)
  unfold clampEdge
  rw [htrunc]
  split_ifs <;> omega

theorem exists_mem_fillWrites {w h : ℕ} {color : UInt32} {x1 y1 x2 y2 x y : ℕ}
    (harea : w * h ≤ 2 ^ 31) (hx2 : x2 ≤ w) (hy2 : y2 ≤ h) (hx : x < w) :
    (∃ p ∈ fillWrites w color x1 y1 x2 y2, p.1 = y * w + x) ↔
      (x1 ≤ x ∧ x < x2) ∧ y1 ≤ y ∧ y < y2 := by
  have hindex {dy : ℕ} (hdy : y1 + dy < h) (dx : ℕ) :
      (toInt32 (((y1 : ℤ) + dy) * w) + (x1 + dx)).toNat = (y1 + dy) * w + (x1 + dx) := by
    have hrow : (y1 + dy) * w < 2 ^ 31 := by
      have hnext := Nat.mul_le_mul_right w (Nat.succ_le_of_lt hdy)
      rw [Nat.succ_mul, Nat.mul_comm h] at hnext
      exact (Nat.lt_add_of_pos_right (Nat.zero_lt_of_lt hx)).trans_le (hnext.trans harea)
    rw [← Int.natCast_add, ← Int.natCast_mul, toInt32_natCast hrow, ← Int.natCast_add,
      ← Int.natCast_add, Int.toNat_natCast]
  unfold fillWrites
  simp only [List.mem_flatMap, List.mem_map, List.mem_range]
  constructor
  · rintro ⟨p, ⟨dy, hdy, dx, hdx, rfl⟩, hp⟩
    have hlt : y1 + dy < h := by
      clear hp
      omega
    rw [hindex hlt] at hp
    obtain ⟨hrow, hcol⟩ := Raster.row_col_eq (by omega) hx hp
    omega
  · rintro ⟨hxs, hys⟩
    refine ⟨_, ⟨y - y1, by omega, x - x1, by omega, rfl⟩, ?_⟩
    rw [hindex (by omega), show y1 + (y - y1) = y by omega, show x1 + (x - x1) = x by omega]

section Call

variable {w h : UInt32} {o : WindowsOverlay} {boxes : List BoundingBox}

theorem Active.exists_mem_writes (ho : o.Active w h) (hsquare : ∀ b ∈ boxes, EdgesInSquare b)
    {x y : ℕ} (hx : x < w.toNat) :
    (∃ p ∈ boxes.flatMap o.boxWrites, p.1 = y * w.toNat + x) ↔ Covered w h boxes x y := by
  have hbox (b : BoundingBox) (hb : b ∈ boxes) :
      (∃ p ∈ o.boxWrites b, p.1 = y * w.toNat + x) ↔
        (⌊b.left * w.toNat⌋₊ ≤ x ∧ x < ⌊b.right * w.toNat⌋₊) ∧
          ⌊b.top * h.toNat⌋₊ ≤ y ∧ y < ⌊b.bottom * h.toNat⌋₊ := by
    have hs := hsquare b hb
    have hright : ⌊b.right * w.toNat⌋₊ ≤ w.toNat :=
      Nat.floor_le_of_le (mul_le_of_le_one_left (Nat.cast_nonneg _) hs.right.2)
    have hbottom : ⌊b.bottom * h.toNat⌋₊ ≤ h.toNat :=
      Nat.floor_le_of_le (mul_le_of_le_one_left (Nat.cast_nonneg _) hs.bottom.2)
    unfold boxWrites
    rw [ho.width, ho.height, clampEdge_of_mem hs.left.1 hs.left.2,
      clampEdge_of_mem hs.right.1 hs.right.2, clampEdge_of_mem hs.top.1 hs.top.2,
      clampEdge_of_mem hs.bottom.1 hs.bottom.2]
    exact exists_mem_fillWrites ho.area hright hbottom hx
  constructor
  · rintro ⟨p, hp, hpi⟩
    obtain ⟨b, hb, hp⟩ := List.mem_flatMap.mp hp
    exact ⟨b, hb, (hbox b hb).mp ⟨p, hp, hpi⟩⟩
  · rintro ⟨b, hb, hc⟩
    obtain ⟨p, hp, hpi⟩ := (hbox b hb).mpr hc
    exact ⟨p, List.mem_flatMap.mpr ⟨b, hb, hp⟩, hpi⟩

theorem color_of_mem_boxWrites {b : BoundingBox} {p : ℕ × UInt32} (hp : p ∈ o.boxWrites b) :
    p.2 = o.frostedColorArgb := by
  unfold boxWrites fillWrites at hp
  simp only [List.mem_flatMap, List.mem_map] at hp
  obtain ⟨dy, -, dx, -, rfl⟩ := hp
  rfl

/-- Every call shows its own boxes. -/
theorem Active.renderBoxes (ho : o.Active w h) (hsquare : ∀ b ∈ boxes, EdgesInSquare b) :
    (o.renderBoxes boxes).Active w h ∧
      (o.renderBoxes boxes).frostedColorArgb = o.frostedColorArgb ∧
      Flat o.frostedColorArgb w h (o.renderBoxes boxes).window boxes := by
  obtain ⟨pixels, hpixels⟩ := Option.isSome_iff_exists.mp ho.bitmap
  have hrender : o.renderBoxes boxes = { o with
      bitmapPixels := some (o.painted pixels boxes), window := o.painted pixels boxes } := by
    simp only [WindowsOverlay.renderBoxes, ho.active, hpixels]
  rw [hrender]
  refine ⟨⟨ho.area, ho.active, ho.width, ho.height, rfl⟩, rfl, ?_⟩
  refine flat_of_writes (fun i hi => if_pos ?_) (fun p hp => ?_)
    fun y hy x hx => ho.exists_mem_writes hsquare hx
  · rw [ho.width, ho.height]
    exact_mod_cast hi
  · obtain ⟨b, -, hp⟩ := List.mem_flatMap.mp hp
    exact color_of_mem_boxWrites hp

end Call

end WindowsOverlay

/-! ### Side by side -/

section Wayland

variable {config : OverlayConfig} {w h : UInt32} {frame : Option VideoFrame}
  {boxes : List BoundingBox}

theorem color_of_mem_paintWrites (hmosaic : config.enableFrostedMosaic = false) {n : ℕ}
    {p : ℕ × UInt32} (hp : p ∈ paintWrites config n w h frame boxes) :
    p.2 = config.frostedColorArgb := by
  have hsource : mosaicSource config frame = none := by
    simp [mosaicSource, hmosaic]
  obtain ⟨b, -, hp⟩ := List.mem_flatMap.mp hp
  unfold boxWrites flatWrites at hp
  rw [hsource] at hp
  simp only [List.mem_flatMap, List.mem_map] at hp
  obtain ⟨y, -, x, -, rfl⟩ := hp
  rfl

/-- A call that is not skipped shows its boxes in one color. -/
theorem Presenting.paint_flat {impl : Impl} (hp : Presenting config w h impl)
    (hmosaic : config.enableFrostedMosaic = false)
    (hearly : impl.returnsEarly boxes frame = false) (hsquare : ∀ b ∈ boxes, EdgesInSquare b)
    (hun : ∀ b ∈ boxes, Unwrapped config impl.width impl.height frame b) :
    ∃ t, impl.renderBoxes config boxes frame = some t ∧ Presenting config w h t ∧
      t.lastRenderedBoxes = boxes ∧
      Flat config.frostedColorArgb w h (t.buffers t.currentBuffer).data boxes := by
  obtain ⟨t, hrender, hpresenting, hlast⟩ := hp.paint hearly hsquare hun
  refine ⟨t, hrender, hpresenting, hlast, ?_⟩
  rw [Impl.renderBoxes, hearly, if_neg Bool.false_ne_true,
    if_pos (paintEnds_of_unwrapped hun)] at hrender
  obtain rfl := Option.some.inj hrender
  simp only [Function.update_self]
  rw [hp.width, hp.height] at hun ⊢
  refine flat_of_writes (fun i hi => if_pos ?_) (fun p => color_of_mem_paintWrites hmosaic)
    fun y hy x hx => exists_mem_paintWrites_iff_covered hsquare hun hx hy
  rw [hp.words]
  exact hi

end Wayland

/-- The boxes are those shown before or differ enough from them, or there is a frame. -/
def Moves (boxes : List BoundingBox) (c : RenderCall) : Prop :=
  c.boxes = boxes ∨ boxesDiffer c.boxes boxes = true ∨ c.frame.isSome

def MovesAlong : List BoundingBox → List RenderCall → Prop
  | _, [] => True
  | boxes, c :: calls => Moves boxes c ∧ MovesAlong c.boxes calls

/-- Both overlays show `boxes`. -/
structure Mirrors (w h : UInt32) (s : Session) (impl : Impl) (o : WindowsOverlay)
    (boxes : List BoundingBox) : Prop where
  steady : Steady w h s impl
  mosaic : s.config.enableFrostedMosaic = false
  last : impl.lastRenderedBoxes = boxes
  shown : Flat s.config.frostedColorArgb w h (impl.buffers impl.currentBuffer).data boxes
  active : o.Active w h
  window : Flat o.frostedColorArgb w h o.window boxes

section Mirrors

variable {w h : UInt32} {s : Session} {impl : Impl} {o : WindowsOverlay}
  {boxes : List BoundingBox}

theorem eq_of_returnsEarly {c : RenderCall} (hconf : impl.configured = true)
    (hmoves : Moves impl.lastRenderedBoxes c)
    (hearly : impl.returnsEarly c.boxes c.frame = true) : c.boxes = impl.lastRenderedBoxes := by
  simp only [Impl.returnsEarly, hconf, Bool.not_true, Bool.false_or, Bool.or_eq_true,
    Bool.and_eq_true, List.isEmpty_iff, Bool.not_eq_true', Option.isNone_iff_eq_none] at hearly
  obtain ⟨hempty, hlast⟩ | ⟨hsame, hframe⟩ := hearly
  · rw [hempty, hlast]
  · obtain heq | hdiffer | hsome := hmoves
    · exact heq
    · rw [hsame] at hdiffer
      cases hdiffer
    · rw [hframe] at hsome
      cases hsome

/-- One call, skipped by the one overlay or not. -/
theorem Mirrors.step (hm : Mirrors w h s impl o boxes) (c : RenderCall) (hmoves : Moves boxes c) :
    ∃ t impl', s.step c.event = some t ∧ t.config = s.config ∧
      Mirrors w h t impl' (o.renderBoxes c.boxes) c.boxes := by
  obtain ⟨hactive, hcolor, hwindow⟩ := hm.active.renderBoxes c.onScreen
  rw [← hcolor] at hwindow
  have hs := hm.steady
  cases hearly : impl.returnsEarly c.boxes c.frame with
  | true =>
    have heq : c.boxes = impl.lastRenderedBoxes :=
      eq_of_returnsEarly hs.presenting.configured (hm.last ▸ hmoves) hearly
    refine ⟨s, impl, ?_, rfl, hs, hm.mosaic, heq.symm, ?_, hactive, hwindow⟩
    · simp only [Session.step, RenderCall.event, hs.running, hs.overlay, hearly, if_true,
        Bool.false_eq_true, if_false]
    · rw [heq, hm.last]
      exact hm.shown
  | false =>
    have harea : w.toNat * h.toNat ≤ 2 ^ 32 := hm.active.area.trans (by decide)
    have hun : ∀ b ∈ c.boxes, Unwrapped s.config impl.width impl.height c.frame b := by
      rw [hs.presenting.width, hs.presenting.height]
      exact fun b _ => unwrapped_of_flat harea hm.mosaic b
    obtain ⟨t, hrender, hpresenting, hlast, hflat⟩ := hs.presenting.paint_flat hm.mosaic hearly
      c.onScreen hun
    refine ⟨s.paint impl c.boxes c.frame, t, ?_, ?_⟩
    · simp only [Session.step, RenderCall.event, hs.running, hs.overlay, hearly,
        Bool.false_eq_true, if_false]
    · simp only [Session.paint, hrender]
      exact ⟨trivial, ⟨hs.running, rfl, hpresenting⟩, hm.mosaic, hlast, hflat, hactive, hwindow⟩

theorem Mirrors.run {calls : List RenderCall} (hm : Mirrors w h s impl o boxes)
    (hmoves : MovesAlong boxes calls) :
    ∃ t impl' boxes', Runs.exec Session.step s (calls.map RenderCall.event) = some t ∧
      t.config = s.config ∧
      Mirrors w h t impl' (o.run (calls.map RenderCall.boxes)) boxes' := by
  induction calls generalizing s impl o boxes with
  | nil => exact ⟨s, impl, boxes, rfl, rfl, hm⟩
  | cons c calls ih =>
    obtain ⟨t, impl', ht, hconfig, hm'⟩ := hm.step c hmoves.1
    obtain ⟨u, impl'', boxes', hu, hconfig', hm''⟩ := ih hm' hmoves.2
    exact ⟨u, impl'', boxes', Runs.exec_cons.mpr ⟨t, ht, hu⟩, hconfig'.trans hconfig, hm''⟩

end Mirrors

theorem WindowsOverlay.frostedColorArgb_run (o : WindowsOverlay)
    (calls : List (List BoundingBox)) : (o.run calls).frostedColorArgb = o.frostedColorArgb := by
  induction calls generalizing o with
  | nil => rfl
  | cons boxes calls ih =>
    refine (ih (o.renderBoxes boxes)).trans ?_
    unfold WindowsOverlay.renderBoxes
    split <;> rfl

/-- The overlay that skips calls and the one that repaints at every call have the same pixels
painted and the same pixels clear, after every run. -/
theorem overlays_agree {w h : UInt32} {start : Session} {impl : Impl}
    (hstart : Blank w h start impl) (hmosaic : start.config.enableFrostedMosaic = false)
    {o : WindowsOverlay} (ho : o.Active w h) (hblank : ∀ i < w.toNat * h.toNat, o.window i = 0)
    (calls : List RenderCall) (hmoves : MovesAlong [] calls) :
    ∃ t impl', Runs.exec Session.step start (calls.map RenderCall.event) = some t ∧
      t.impl = some impl' ∧ ∀ y < h.toNat, ∀ x < w.toNat,
        let shown := (impl'.buffers impl'.currentBuffer).data (y * w.toNat + x)
        let window := (o.run (calls.map RenderCall.boxes)).window (y * w.toNat + x)
        (shown = start.config.frostedColorArgb ∧ window = o.frostedColorArgb) ∨
          (shown = 0 ∧ window = 0) := by
  have hempty (x y : ℕ) : ¬Covered w h [] x y := by
    rintro ⟨b, hb, -⟩
    exact List.not_mem_nil hb
  have hm : Mirrors w h start impl o [] := by
    refine ⟨hstart.steady, hmosaic, hstart.unpainted, fun y hy x hx => ?_, ho,
      fun y hy x hx => ?_⟩
    · exact ⟨fun hc => absurd hc (hempty x y), fun _ => hstart.clear _ (lt_area hx hy)⟩
    · exact ⟨fun hc => absurd hc (hempty x y), fun _ => hblank _ (lt_area hx hy)⟩
  obtain ⟨t, impl', boxes, ht, hconfig, hm'⟩ := hm.run hmoves
  refine ⟨t, impl', ht, hm'.steady.overlay, fun y hy x hx => ?_⟩
  have hshown := hm'.shown y hy x hx
  have hwindow := hm'.window y hy x hx
  rw [hconfig] at hshown
  rw [o.frostedColorArgb_run] at hwindow
  by_cases hc : Covered w h boxes x y
  · exact Or.inl ⟨hshown.1 hc, hwindow.1 hc⟩
  · exact Or.inr ⟨hshown.2 hc, hwindow.2 hc⟩

/-- A small screen with the mosaic off, and a window of its size. -/
def flatSession : Session :=
  { config := { enableFrostedMosaic := false }
    impl := some (.init [.configure 4 2] fun _ => true) }

def flatWindow : WindowsOverlay := (WindowsOverlay.init {} 4 2 true (some fun _ => 1)).1

/-- The left half twice, the second call being skipped on Wayland. -/
theorem overlays_agree_leftHalf :
    let c := leftHalf none fun _ hf => absurd hf.symm (Option.some_ne_none _)
    ∃ t impl', Runs.exec Session.step flatSession ([c, c].map RenderCall.event) = some t ∧
      t.impl = some impl' ∧ ∀ y < 2, ∀ x < 4,
        let shown := (impl'.buffers impl'.currentBuffer).data (y * 4 + x)
        let window := (flatWindow.run ([c, c].map RenderCall.boxes)).window (y * 4 + x)
        (shown = 0xFF0F172A ∧ window = 0xEE111827) ∨ (shown = 0 ∧ window = 0) := by
  intro c
  have hblank : Blank 4 2 flatSession (.init [.configure 4 2] fun _ => true) :=
    ⟨rfl, rfl, rfl, rfl, rfl, fun _ => rfl, fun _ _ => rfl, rfl⟩
  have hmoves : MovesAlong [] [c, c] := ⟨Or.inr (Or.inl (by decide)), Or.inl rfl, trivial⟩
  exact overlays_agree hblank rfl (o := flatWindow) ⟨by decide, rfl, rfl, rfl, rfl⟩
    (fun _ _ => rfl) [c, c] hmoves

end Degoonification.Overlay
