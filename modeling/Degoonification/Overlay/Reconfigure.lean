import Degoonification.Overlay.Wayland

/-! The size of the screen against the size of the buffers. `init` allocates both
buffers once, for the size announced by then; `layer_surface_configure` changes
the size that `render_boxes` paints with and leaves the buffers as they are. The
writes stay inside exactly as long as every announced size fits the buffers that
are there. -/

namespace Degoonification.Overlay

open Session
open Impl (announced)

/-- All four edges are inside the unit square, where the conversions to pixels are
defined. -/
structure EdgesInSquare (box : BoundingBox) : Prop where
  left : 0 ≤ box.left ∧ box.left ≤ 1
  top : 0 ≤ box.top ∧ box.top ≤ 1
  right : 0 ≤ box.right ∧ box.right ≤ 1
  bottom : 0 ≤ box.bottom ∧ box.bottom ≤ 1

/-- Each row of the screen, at its 32-bit offset, ends inside a buffer of `size`
bytes. -/
def Fits (w h : UInt32) (size : ℕ) : Prop := ∀ y < h, (y * w).toNat + w.toNat ≤ size / 4

/-- Whatever is painted next, into whichever of the two buffers, each write of each
round of the paint loops is inside the buffer. -/
def PaintsInside (s : Session) : Prop :=
  ∀ impl, s.impl = some impl → ∀ (b : Fin 2) (boxes : List BoundingBox)
    (frame : Option VideoFrame) (n : ℕ), (∀ box ∈ boxes, EdgesInSquare box) →
      impl.returnsEarly boxes frame = false →
        ∀ p ∈ paintWrites s.config n impl.width impl.height frame boxes,
          p.1 < (impl.buffers b).size / 4

/-! ### Screens that fit -/

section Fits

variable {w h : UInt32} {size : ℕ}

theorem toNat_sub_one {a : UInt32} (ha : a.toNat ≠ 0) : (a - 1).toNat = a.toNat - 1 := by
  have hone : (1 : UInt32) ≤ a := UInt32.le_iff_toNat_le.mpr (Nat.one_le_iff_ne_zero.mpr ha)
  rw [UInt32.toNat_sub_of_le _ _ hone, UInt32.toNat_one]

/-- A row of the screen ends before its pixels are counted up. -/
theorem row_end_le {y : UInt32} (hy : y < h) : (y * w).toNat + w.toNat ≤ w.toNat * h.toNat := by
  rw [UInt32.lt_iff_toNat_lt] at hy
  calc (y * w).toNat + w.toNat
      ≤ y.toNat * w.toNat + w.toNat := by
        rw [UInt32.toNat_mul]
        exact Nat.add_le_add_right (Nat.mod_le _ _) _
    _ = w.toNat * (y.toNat + 1) := by rw [Nat.mul_succ, Nat.mul_comm]
    _ ≤ w.toNat * h.toNat := Nat.mul_le_mul_left _ hy

theorem not_fits_zero (hw : 0 < w) (hh : 0 < h) : ¬Fits w h 0 := by
  intro hfits
  have hrow := hfits 0 hh
  rw [UInt32.lt_iff_toNat_lt, UInt32.toNat_zero] at hw
  omega

end Fits

/-! ### Sessions -/

variable {s t : Session} {impl : Impl} {e : Event}

theorem edgesInSquare_fullScreen : EdgesInSquare fullScreen := by
  constructor <;> norm_num [fullScreen, BoundingBox.left, BoundingBox.top, BoundingBox.right,
    BoundingBox.bottom]

/-- A call with one box over the whole screen writes the last pixel of every row. -/
theorem paintsInside_iff : PaintsInside s ↔ ∀ impl, s.impl = some impl →
    impl.configured = true → ∀ b, Fits impl.width impl.height (impl.buffers b).size := by
  constructor
  · intro hs impl himpl hconf b y hy
    by_cases hw : impl.width.toNat = 0
    · rw [UInt32.toNat_mul, hw, Nat.mul_zero]
      exact Nat.zero_le _
    · have hlast : (impl.width - 1).toNat = impl.width.toNat - 1 := toNat_sub_one hw
      have hx : impl.width - 1 < impl.width := by
        rw [UInt32.lt_iff_toNat_lt, hlast]
        omega
      -- a frame without data is filled flat, and is never skipped as unchanged
      have hflat : mosaicSource s.config (some {}) = none := by simp [mosaicSource]
      have hearly : impl.returnsEarly [fullScreen] (some {}) = false := by
        simp [Impl.returnsEarly, hconf]
      have hwrite := hs impl himpl b [fullScreen] (some {}) (2 ^ 32)
        (List.forall_mem_singleton.mpr edgesInSquare_fullScreen) hearly _
        (mem_paintWrites_fullScreen hflat hy hx)
      rw [pixelIndex, hlast] at hwrite
      omega
  · intro hfits impl himpl b boxes frame n _ hearly p hp
    have hconf : impl.configured = true := by
      by_contra hconf
      simp [Impl.returnsEarly, hconf] at hearly
    obtain ⟨y, hy, x, hx, hpx⟩ := onPixel_of_mem_paintWrites hp
    have hrow := hfits impl himpl hconf b y hy
    rw [UInt32.lt_iff_toNat_lt] at hx
    rw [hpx, pixelIndex]
    omega

theorem dispatch_positive {s : Impl} (c : Callback) (hs : 0 < s.width ∧ 0 < s.height) :
    0 < (s.dispatch c).width ∧ 0 < (s.dispatch c).height := by
  cases c with
  | configure width height =>
    simp only [Impl.dispatch]
    split_ifs with h
    · exact h
    · exact hs
  | closed => exact hs

theorem announced_positive (callbacks : List Callback) :
    0 < (announced callbacks).width ∧ 0 < (announced callbacks).height := by
  exact List.foldlRecOn (motive := fun s : Impl => 0 < s.width ∧ 0 < s.height) callbacks
    Impl.dispatch (by decide) fun _ hs c _ => dispatch_positive c hs

/-- `init` allocates both buffers and its screen fits them; a size announced later,
or an old one confirmed, fits the buffers that are there. -/
def SizeFits (s : Session) : Event → Prop
  | .init callbacks granted =>
    let screen := announced callbacks
    screen.configured = true → ∀ b, granted b = true ∧
      Fits screen.width screen.height (shmSize screen.width screen.height)
  | .callback (.configure width height) => ∀ impl, s.impl = some impl → ∀ b,
    if 0 < width ∧ 0 < height then Fits width height (impl.buffers b).size
    else Fits impl.width impl.height (impl.buffers b).size
  | _ => True

theorem init_size (callbacks : List Callback) (granted : Fin 2 → Bool) (b : Fin 2) :
    ((Impl.init callbacks granted).buffers b).size =
      if granted b then shmSize (announced callbacks).width (announced callbacks).height
      else 0 := by
  have hbuf : (announced callbacks).buffers = fun _ => {} :=
    List.foldlRecOn (motive := fun s : Impl => s.buffers = fun _ => {}) callbacks Impl.dispatch rfl
      fun s hs c _ => (s.dispatch_buffers c).trans hs
  have hinit : (Impl.init callbacks granted).buffers b = allocateShmBuffer (granted b)
      ((announced callbacks).buffers b) (announced callbacks).width
      (announced callbacks).height := rfl
  rw [hinit, hbuf, allocateShmBuffer]
  split_ifs <;> rfl

/-- Only a size that does not fit takes the writes outside. -/
theorem sizeFits_iff (h : s.step e = some t) (hs : PaintsInside s) :
    SizeFits s e ↔ PaintsInside t := by
  rw [paintsInside_iff] at hs ⊢
  cases steps_of_step h with
  | init callbacks granted =>
    simp only [Option.some.injEq, forall_eq', init_size]
    refine forall_congr' fun hconf => forall_congr' fun b => ?_
    obtain ⟨hw, hh⟩ := announced_positive callbacks
    cases granted b with
    | true => exact and_iff_right rfl
    | false => exact iff_of_false (fun h => Bool.false_ne_true h.1) (not_fits_zero hw hh)
  | @callback c impl himpl =>
    cases c with
    | configure width height =>
      simp only [SizeFits, himpl, Option.some.injEq, forall_eq', Impl.dispatch]
      split_ifs
      · exact ⟨fun hfits _ => hfits, fun hfits => hfits rfl⟩
      · exact ⟨fun hfits _ => hfits, fun hfits => hfits rfl⟩
    | closed =>
      simp only [Option.some.injEq, forall_eq']
      exact iff_of_true trivial fun hconf => absurd hconf Bool.false_ne_true
  | @release k impl b himpl hb =>
    simp only [Option.some.injEq, forall_eq']
    refine iff_of_true trivial fun hconf c => ?_
    rw [(sameBuffers_bufferRelease impl b).size]
    exact hs impl himpl hconf c
  | skip boxes frame hearly => exact iff_of_true trivial hs
  | @paint boxes frame impl himpl hearly =>
    refine iff_of_true trivial ?_
    obtain hhung | ⟨t, hsame, -, hpaint⟩ := s.paint_cases impl hearly
    · rw [hhung]
      exact hs
    · rw [hpaint]
      simp only [Option.some.injEq, forall_eq', hsame.configured, hsame.width, hsame.height,
        hsame.size]
      exact hs impl himpl

/-- A run keeps the writes of every possible call inside the buffers exactly if
every size announced in it fits them. -/
theorem paints_inside_iff (config : OverlayConfig) (events : List Event) :
    Runs.Along Session.step SizeFits { config } events ↔
      Runs.Always Session.step PaintsInside { config } events :=
  Runs.along_iff_always (I := fun _ => True) (fun _ _ _ _ _ => trivial)
    (fun _ _ _ h _ => sizeFits_iff h) trivial fun _ h => nomatch h

/-- The screen grows by a column after `init`. -/
def grown : List Event :=
  [.init [.configure 1 1] fun _ => true, .callback (.configure 2 1)]

/-- With the default configuration, one box over the whole screen then writes the
second word of a buffer of four bytes. -/
theorem grown_paints_outside :
    EdgesInSquare fullScreen ∧
      ∃ impl, (Runs.exec Session.step { config := {} } grown).bind (·.impl) = some impl ∧
        impl.returnsEarly [fullScreen] none = false ∧
        ∃ p ∈ paintWrites {} 2 impl.width impl.height none [fullScreen],
          (impl.buffers impl.nextBuffer).size / 4 ≤ p.1 := by
  refine ⟨edgesInSquare_fullScreen, _, rfl, by decide +kernel, (1, 0xFF0F172A), by decide +kernel,
    ?_⟩
  decide +kernel

end Degoonification.Overlay
