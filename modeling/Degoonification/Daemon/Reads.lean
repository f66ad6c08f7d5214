import Degoonification.Boxes.AnchorReads
import Degoonification.Capture.Ppm
import Degoonification.Daemon.Guard
import Degoonification.Inference.Planes

/-! The bytes of the captured pictures that the daemon reads, from the letterbox to the
mosaic. Whatever file the capture command leaves, a frame that `capture_frame` delivers has
all the bytes its numbers promise as long as the header's are not negative and a row stays
below `2 ^ 31` bytes; and in every run over such frames each stage reads only what is
there, the overlay also when it draws a picture captured much earlier. -/

namespace Degoonification

/-! ### Captured frames -/

namespace ScreencopyCapture

variable {c : ScreencopyCapture} {run : Surroundings} {out : OutFrame} {file : Bytes}

/-- `w` and `h` as `capture_frame` takes them from a file. -/
def headerSize (file : Bytes) : ℤ × ℤ :=
  let size := ppmSize ((file.take 127 ++ [0]).drop 2)
  (size.1, size.2.1)

/-- The numbers of the header are those of a picture, and a row of it is not too long. -/
structure Sized (file : Bytes) : Prop where
  width : 0 ≤ (headerSize file).1
  row : 3 * (headerSize file).1 < 2 ^ 31
  height : 0 ≤ (headerSize file).2

/-- The frame behind `out_frame`. -/
def videoFrame (c : ScreencopyCapture) (frame : OutFrame) : VideoFrame :=
  { width := frame.width, height := frame.height, stride := frame.stride, format := frame.format,
    data := c.pixels frame }

theorem toInt32_lt (v : ℤ) : toInt32 v < 2 ^ 31 := by
  have h : v.bmod (2 ^ 32) < ((2 ^ 32 : ℕ) + 1) / 2 := Int.bmod_lt (by decide)
  rw [toInt32]
  omega

/-- A read loop that delivered as much as was asked for filled the buffer that far. -/
theorem length_take_readLoop {chunk : ℕ → ℕ} {rest buffer : Bytes} {dataSize : ℕ}
    (hbuffer : dataSize ≤ buffer.length)
    (hfull : (readLoop chunk rest dataSize buffer 0).2 = dataSize) :
    ((readLoop chunk rest dataSize buffer 0).1.take dataSize).length = dataSize := by
  obtain ⟨htotal, htake⟩ := readLoop_spec chunk rest dataSize buffer 0 hbuffer (Nat.zero_le _) rfl
  rw [hfull] at htotal
  rw [← htotal] at htake
  rw [htake, List.length_take]
  exact htotal.symm

/-- A frame that is delivered has its bytes. -/
theorem valid_of_captureFrame (hfile : run.file = some file) (hsized : Sized file)
    (htrue : (c.captureFrame run out).1 = true) :
    let r := c.captureFrame run out
    (r.2.1.videoFrame r.2.2).Valid ∧ VisualAnchorTracker.RowsFit (r.2.1.videoFrame r.2.2) := by
  obtain ⟨hw0, hrow, hh0⟩ := hsized
  simp only [headerSize] at hw0 hrow hh0
  have hh31 : (ppmSize ((file.take 127 ++ [0]).drop 2)).2.1 < 2 ^ 31 := toInt32_lt _
  simp only [captureFrame, hfile] at htrue ⊢
  split_ifs at htrue ⊢ with hbad hshort
  generalize ppmSize ((file.take 127 ++ [0]).drop 2) = size at *
  obtain ⟨w, h, rest⟩ := size
  obtain ⟨w, rfl⟩ := Int.eq_ofNat_of_zero_le hw0
  obtain ⟨h, rfl⟩ := Int.eq_ofNat_of_zero_le hh0
  dsimp only at *
  have hw31 : 3 * w < 2 ^ 31 := by exact_mod_cast hrow
  have hh31 : h < 2 ^ 31 := by exact_mod_cast hh31
  have hwidth : ((w : ℤ) % 2 ^ 32).toNat = w := toNat_emod (by omega)
  have hheight : ((h : ℤ) % 2 ^ 32).toNat = h := toNat_emod (by omega)
  have hstride : ((w : ℤ) * 3 % 2 ^ 32).toNat = 3 * w := by
    rw [show (w : ℤ) * 3 = (3 * w : ℕ) by push_cast; ring]
    exact toNat_emod (by omega)
  simp only [dataSize_eq (show w < 2 ^ 31 by omega) hh31, hwidth, hheight, hstride] at hshort ⊢
  have hlength := length_take_readLoop (le_length_grown c run _) (not_not.mp hshort)
  have hrgb : ∀ f : VideoFrame, f.format = .rgb → f.bytesPerPixel = 3 := fun f hf => if_pos hf
  refine ⟨⟨by change w < 2 ^ 32; omega, by change h < 2 ^ 32; omega,
    by change 3 * w < 2 ^ 32; omega, fun _ _ => ?_, fun d hd => ?_⟩, fun _ _ _ _ => ?_⟩
  · rw [hrgb _ rfl]
    exact (Nat.mul_comm w 3).le
  · rw [videoFrame, pixels, if_pos rfl] at hd
    obtain rfl := Option.some.inj hd
    exact hlength.ge
  · rw [hrgb _ rfl]
    change (w - 1) * 3 < 2 ^ 31
    omega

/-- A frame that the capture can deliver. -/
def IsCaptured (frame : VideoFrame) : Prop :=
  ∃ (c : ScreencopyCapture) (run : Surroundings) (out : OutFrame) (file : Bytes),
    run.file = some file ∧ Sized file ∧ (c.captureFrame run out).1 = true ∧
      (c.captureFrame run out).2.1.videoFrame (c.captureFrame run out).2.2 = frame

end ScreencopyCapture

open ScreencopyCapture (IsCaptured)

theorem valid_of_isCaptured {frame : VideoFrame} (h : IsCaptured frame) :
    frame.Valid ∧ VisualAnchorTracker.RowsFit frame := by
  obtain ⟨c, run, out, file, hfile, hsized, htrue, rfl⟩ := h
  exact ScreencopyCapture.valid_of_captureFrame hfile hsized htrue

/-! ### The reads of a step -/

/-- The bytes that `preprocess` reads. -/
def ImagePreprocessor.preprocessReads (p : ImagePreprocessor) (frame : VideoFrame) : List ℕ :=
  if frame.data.isNone ∨ frame.width = 0 ∨ frame.height = 0 then []
  else reads (pixelStart frame (p.letterbox frame)) (p.letterbox frame)

/-- The bytes that `render_boxes` reads in its frame. -/
def Overlay.Session.renderReads (o : Overlay.Session) (boxes : List BoundingBox)
    (frame : Option VideoFrame) : List ℕ :=
  match o.impl with
  | none => []
  | some impl =>
    if impl.returnsEarly boxes frame then []
    else Overlay.paintReads o.config (2 ^ 32) impl.width impl.height frame boxes

/-- The byte at that offset is there. -/
def Readable (frame : VideoFrame) (r : ℤ) : Prop :=
  ∃ d, frame.data = some d ∧ 0 ≤ r ∧ r < d.length

theorem readable_of_inFrame {frame : VideoFrame} {r : ℤ} (hvalid : frame.Valid)
    (hdata : frame.data.isSome) (h : VisualAnchorTracker.InFrame frame r) : Readable frame r := by
  obtain ⟨d, hd⟩ := Option.isSome_iff_exists.mp hdata
  have hsize : (frame.stride * frame.height : ℤ) ≤ d.length := by
    exact_mod_cast hvalid.size d hd
  exact ⟨d, hd, h.1, h.2.trans_le hsize⟩

theorem readable_of_mem_preprocessReads {p : ImagePreprocessor} {frame : VideoFrame}
    (hvalid : frame.Valid) {r : ℕ} (hr : r ∈ p.preprocessReads frame) : Readable frame r := by
  rw [ImagePreprocessor.preprocessReads] at hr
  split_ifs at hr with hempty
  · exact absurd hr List.not_mem_nil
  · obtain ⟨hdata, hw, hh⟩ := VideoFrame.not_empty_iff.mp hempty
    obtain ⟨d, hd⟩ := Option.isSome_iff_exists.mp hdata
    have hlt := ImagePreprocessor.lt_of_mem_reads
      (ImagePreprocessor.pixelStart_end_le hw hh hvalid.width_lt hvalid.height_lt
        hvalid.stride_lt (hvalid.row d hd)) hr
    exact ⟨d, hd, Int.natCast_nonneg r, by exact_mod_cast hlt.trans_le (hvalid.size d hd)⟩

theorem readable_of_mem_callReads {t : VisualAnchorTracker} {c : VisualAnchorTracker.Call}
    (hvalid : c.frame.Valid) (hfit : VisualAnchorTracker.RowsFit c.frame) {r : ℤ}
    (hr : r ∈ VisualAnchorTracker.callReads t c) : Readable c.frame r := by
  have hchecked := VisualAnchorTracker.checked_of_mem_callReads hr
  exact readable_of_inFrame hvalid hchecked.1 (hchecked.inFrame hvalid hfit)

theorem readable_of_mem_renderReads {o : Overlay.Session} {boxes : List BoundingBox}
    {f : VideoFrame} (hvalid : f.Valid) {frame : Option VideoFrame}
    (hframe : ∀ g, frame = some g → g = f) {r : ℕ} (hr : r ∈ o.renderReads boxes frame) :
    Readable f r := by
  rw [Overlay.Session.renderReads] at hr
  split at hr
  · exact absurd hr List.not_mem_nil
  · split_ifs at hr
    · exact absurd hr List.not_mem_nil
    · obtain ⟨g, d, hg, hd, hlt⟩ :=
        Overlay.paintReads_lt (fun g hg => (hframe g hg).symm ▸ hvalid) hr
      exact ⟨d, hframe g hg ▸ hd, Int.natCast_nonneg r, by exact_mod_cast hlt⟩

namespace Guard

/-- The bytes that a step reads, each with the frame it is looked for in. -/
def reads (D : Detector) (s : Guard) : Event → List (VideoFrame × ℤ)
  | .analyse frame now =>
    if !s.visualBlurPaused && s.modelLoaded then
      ((D.preprocessor.preprocessReads frame).map fun r : ℕ => (frame, (r : ℤ))) ++
        (VisualAnchorTracker.callReads s.tracker ⟨frame, D.detections frame, now⟩).map (frame, ·)
    else []
  | .present =>
    if s.rawFrameSeq = s.lastProcessedSeq ∨ s.visualBlurPaused then []
    else (s.overlay.renderReads s.latestRenderedBoxes s.currentFrame).map
      fun r : ℕ => (s.sharedFrame, (r : ℤ))
  | _ => []

/-- The frame of an iteration was delivered by the capture. -/
def Event.Captured : Event → Prop
  | .analyse frame _ => IsCaptured frame
  | e => e.Sound

theorem Event.Captured.sound {e : Event} (he : e.Captured) : e.Sound := by
  cases e with
  | analyse frame now => exact (valid_of_isCaptured he).1
  | _ => exact he

variable {w h : UInt32} {D : Detector} {s : Guard}

theorem Watching.readable (hs : Watching w h s) {e : Event} (he : e.Captured) :
    ∀ q ∈ s.reads D e, Readable q.1 q.2 := by
  intro q hq
  cases e with
  | analyse frame now =>
    obtain ⟨hvalid, hfit⟩ := valid_of_isCaptured he
    rw [reads] at hq
    split_ifs at hq
    · obtain hq | hq := List.mem_append.mp hq
      · obtain ⟨r, hr, rfl⟩ := List.mem_map.mp hq
        exact readable_of_mem_preprocessReads hvalid hr
      · obtain ⟨r, hr, rfl⟩ := List.mem_map.mp hq
        exact readable_of_mem_callReads (c := ⟨frame, D.detections frame, now⟩) hvalid hfit hr
    · exact absurd hq List.not_mem_nil
  | present =>
    rw [reads] at hq
    split_ifs at hq
    · exact absurd hq List.not_mem_nil
    · obtain ⟨r, hr, rfl⟩ := List.mem_map.mp hq
      refine readable_of_mem_renderReads hs.frame (fun g hg => ?_) hr
      rw [currentFrame] at hg
      split_ifs at hg
      exact (Option.some.inj hg).symm
  | pause | resume | setPadding => exact absurd hq List.not_mem_nil

/-- In every state of a run over captured frames, whatever the network finds in them, the
next step reads only bytes that are there. -/
theorem reads_captured (hscreen : Ordinary w h) {start : Guard} (hstart : Fresh w h start)
    {events : List Event} {e : Event} (hevents : ∀ e' ∈ events ++ [e], e'.Captured)
    (hrun : Runs.exec (Guard.step D) start events = some s) :
    ∀ q ∈ s.reads D e, Readable q.1 q.2 := by
  obtain ⟨hbefore, hlast⟩ := List.forall_mem_append.mp hevents
  obtain ⟨t, ht, hwatch⟩ := hstart.watching.exec (D := D) hscreen fun e' he' =>
    (hbefore e' he').sound
  obtain rfl := Option.some.inj (ht.symm.trans hrun)
  exact hwatch.readable (List.forall_mem_singleton.mp hlast)

/-- Two pixels, read in pieces of two bytes. -/
def twoPixels : Surroundings :=
  ⟨some (ScreencopyCapture.twoByOne ++ [49, 50, 32, 0, 255, 10]), fun _ => 1, 64⟩

def capturedFrame : VideoFrame :=
  let r := ScreencopyCapture.captureFrame {} twoPixels {}
  r.2.1.videoFrame r.2.2

theorem isCaptured_capturedFrame : IsCaptured capturedFrame := by
  have hone (c : UInt8) (hc : isPpmBlank c = true) : IsPpmGap [c] :=
    ⟨List.cons_ne_nil _ _, List.forall_mem_singleton.mpr hc⟩
  have hdecoded : ScreencopyCapture.Decoded 2 1 [49, 50, 32, 0, 255, 10] {}
      (ScreencopyCapture.captureFrame {} twoPixels {}) :=
    (ScreencopyCapture.captureFrame_header (hone 10 rfl) (hone 32 rfl) (hone 10 rfl) (by decide)
      (by decide) (by decide) (by decide) rfl).1 rfl
  exact ⟨{}, twoPixels, {}, _, rfl, ⟨by decide +kernel, by decide +kernel, by decide +kernel⟩,
    hdecoded.result, rfl⟩

/-- The overlay draws the boxes of a captured frame. -/
theorem reads_captured_twoPixels :
    ∃ s, Runs.exec (step oneDetector) smallGuard [.analyse capturedFrame 0] = some s ∧
      ∀ q ∈ s.reads oneDetector .present, Readable q.1 q.2 := by
  have hevents : ∀ e ∈ [Event.analyse capturedFrame 0] ++ [.present], e.Captured :=
    List.forall_mem_cons.mpr ⟨isCaptured_capturedFrame, List.forall_mem_singleton.mpr trivial⟩
  exact ⟨_, rfl, reads_captured ⟨by decide, by decide, by decide⟩ fresh_smallGuard hevents rfl⟩

end Guard

end Degoonification
