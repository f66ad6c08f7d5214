import Degoonification.Library.Runs
import Degoonification.Overlay.Shown

/-! How boxes get from the detector thread to the screen. The detector publishes a
list of boxes and a copy of the frame they were found in under one lock, and only then
raises the counter; the main loop loads the counter first and copies both afterwards,
so a list published in between is copied twice rather than missed. The copy of the
frame is shallow: its pointer stays that of `shared_frame_buf`, which a larger frame
may move while the overlay still reads. Which branch the detector takes is left open
here. -/

namespace Degoonification.Ipc

/-- `shared_frame`, with the block that its pointer points to. -/
structure SharedFrame where
  width : ℕ := 0
  height : ℕ := 0
  stride : ℕ := 0
  format : PixelFormat := .bgra
  dataSize : ℕ := 0
  data : Option ℕ := none

namespace SharedFrame

/-- `shared_frame = frame` with the pointer of the buffer. -/
def copyOf (frame : VideoFrame) (dataSize block : ℕ) : SharedFrame :=
  ⟨frame.width, frame.height, frame.stride, frame.format, dataSize, some block⟩

/-- The frame the overlay sees when its pointer leads to these bytes. -/
def view (f : SharedFrame) (bytes : Bytes) : VideoFrame :=
  { width := f.width, height := f.height, stride := f.stride, format := f.format,
    data := f.data.map fun _ => bytes }

end SharedFrame

/-- `shared_frame_buf`: its bytes and the block of memory they are in. -/
structure SharedBuffer where
  bytes : Bytes := []
  block : ℕ := 0

namespace SharedBuffer

/-- The buffer is too small for that many bytes. -/
def small (b : SharedBuffer) (dataSize : ℕ) : Bool := b.bytes.length < dataSize

/-- `resize`, which may take a new block and give the old one back. -/
def resize (b : SharedBuffer) (dataSize : ℕ) (moved : Bool) : SharedBuffer :=
  ⟨b.bytes ++ List.replicate (dataSize - b.bytes.length) 0,
    if moved then b.block + 1 else b.block⟩

/-- The copy of a frame's bytes, after a `resize` where the buffer is too small. -/
def store (b : SharedBuffer) (data : Bytes) (moved : Bool) : SharedBuffer :=
  let b := if b.small data.length then b.resize data.length moved else b
  { b with bytes := data ++ b.bytes.drop data.length }

end SharedBuffer

/-- Where the main loop stands: before the requests, before the counter is loaded,
before the copy for the counter that was loaded, and inside `render_boxes`. -/
inductive LoopPhase where
  | poll | look
  | copying (seq : ℕ)
  | rendering (boxes : List BoundingBox) (frame : Option SharedFrame)

structure Handover where
  visualBlurPaused : Bool := false
  latestRenderedBoxes : List BoundingBox := []
  sharedFrame : SharedFrame := {}
  sharedFrameBuf : SharedBuffer := {}
  rawFrameSeq : ℕ := 0
  lastProcessedSeq : ℕ := 0
  main : LoopPhase := .poll
  /-- The detector has published and not yet raised the counter. -/
  published : Bool := false
  /-- The boxes of the last call of `render_boxes`. -/
  shown : List BoundingBox := []
  /-- That call was made for a pause. -/
  darkened : Bool := false
  /-- The frame the published boxes were found in, which the code does not record. -/
  latestFrame : VideoFrame := {}

namespace Handover

inductive Event where
  | pause | resume | noRequest | look | copy | rendered
  | publish (boxes : List BoundingBox) (frame : VideoFrame) (moved : Bool)
  | count | clearLatest

/-- The detector's critical section. -/
def share (s : Handover) (boxes : List BoundingBox) (frame : VideoFrame) (moved : Bool) :
    Handover :=
  let s := { s with latestRenderedBoxes := boxes, latestFrame := frame, published := true }
  match frame.data with
  | some data =>
    if boxes ≠ [] ∧ 0 < data.length then
      let buf := s.sharedFrameBuf.store data moved
      { s with sharedFrameBuf := buf, sharedFrame := .copyOf frame data.length buf.block }
    else s
  | none => s

def step (s : Handover) : Event → Option Handover
  | .pause =>
    match s.main with
    | .poll =>
      some { s with visualBlurPaused := true, shown := [], darkened := true, main := .look }
    | _ => none
  | .resume =>
    match s.main with
    | .poll => some { s with visualBlurPaused := false, main := .look }
    | _ => none
  | .noRequest =>
    match s.main with
    | .poll => some { s with main := .look }
    | _ => none
  | .look =>
    match s.main with
    | .look =>
      some { s with
        main := if s.rawFrameSeq = s.lastProcessedSeq then .poll else .copying s.rawFrameSeq }
    | _ => none
  | .copy =>
    match s.main with
    | .copying seq =>
      let boxes := s.latestRenderedBoxes
      some { s with
        lastProcessedSeq := seq
        main :=
          if s.visualBlurPaused then .rendering [] none
          else .rendering boxes (if boxes = [] then none else some s.sharedFrame) }
    | _ => none
  | .rendered =>
    match s.main with
    | .rendering boxes _ =>
      some { s with shown := boxes, darkened := s.visualBlurPaused, main := .poll }
    | _ => none
  | .publish boxes frame moved => if s.published then none else some (s.share boxes frame moved)
  | .count =>
    if s.published then some { s with rawFrameSeq := s.rawFrameSeq + 1, published := false }
    else none
  | .clearLatest =>
    if s.published then none
    else some { s with latestRenderedBoxes := [], rawFrameSeq := s.rawFrameSeq + 1 }

/-! ### What a step can do -/

/-- The steps, one case for each outcome. -/
inductive Step (s : Handover) : Event → Handover → Prop where
  | pause (hmain : s.main = .poll) :
      Step s .pause
        { s with visualBlurPaused := true, shown := [], darkened := true, main := .look }
  | resume (hmain : s.main = .poll) :
      Step s .resume { s with visualBlurPaused := false, main := .look }
  | noRequest (hmain : s.main = .poll) : Step s .noRequest { s with main := .look }
  | idle (hmain : s.main = .look) (hseq : s.rawFrameSeq = s.lastProcessedSeq) :
      Step s .look { s with main := .poll }
  | load (hmain : s.main = .look) (hseq : s.rawFrameSeq ≠ s.lastProcessedSeq) :
      Step s .look { s with main := .copying s.rawFrameSeq }
  | copyDark {seq : ℕ} (hmain : s.main = .copying seq) (hpaused : s.visualBlurPaused = true) :
      Step s .copy { s with lastProcessedSeq := seq, main := .rendering [] none }
  | copyNone {seq : ℕ} (hmain : s.main = .copying seq) (hpaused : s.visualBlurPaused = false)
      (hnil : s.latestRenderedBoxes = []) :
      Step s .copy { s with lastProcessedSeq := seq, main := .rendering [] none }
  | copySome {seq : ℕ} (hmain : s.main = .copying seq) (hpaused : s.visualBlurPaused = false)
      (hne : s.latestRenderedBoxes ≠ []) :
      Step s .copy { s with
        lastProcessedSeq := seq
        main := .rendering s.latestRenderedBoxes (some s.sharedFrame) }
  | rendered {boxes : List BoundingBox} {frame : Option SharedFrame}
      (hmain : s.main = .rendering boxes frame) :
      Step s .rendered { s with shown := boxes, darkened := s.visualBlurPaused, main := .poll }
  | publish (boxes : List BoundingBox) (frame : VideoFrame) (moved : Bool)
      (hpublished : s.published = false) :
      Step s (.publish boxes frame moved) (s.share boxes frame moved)
  | count (hpublished : s.published = true) :
      Step s .count { s with rawFrameSeq := s.rawFrameSeq + 1, published := false }
  | clearLatest (hpublished : s.published = false) :
      Step s .clearLatest { s with latestRenderedBoxes := [], rawFrameSeq := s.rawFrameSeq + 1 }

theorem step_cases {s s' : Handover} {e : Event} (h : step s e = some s') : Step s e s' := by
  cases e with
  | pause =>
    simp only [step] at h
    split at h
    · next hmain => exact Option.some.inj h ▸ .pause hmain
    · cases h
  | resume =>
    simp only [step] at h
    split at h
    · next hmain => exact Option.some.inj h ▸ .resume hmain
    · cases h
  | noRequest =>
    simp only [step] at h
    split at h
    · next hmain => exact Option.some.inj h ▸ .noRequest hmain
    · cases h
  | look =>
    simp only [step] at h
    split at h
    · next hmain =>
      split_ifs at h with hseq
      · exact Option.some.inj h ▸ .idle hmain hseq
      · exact Option.some.inj h ▸ .load hmain hseq
    · cases h
  | copy =>
    simp only [step] at h
    split at h
    · next seq hmain =>
      cases hpaused : s.visualBlurPaused with
      | true => exact Option.some.inj h ▸ by simpa [hpaused] using Step.copyDark hmain hpaused
      | false =>
        by_cases hnil : s.latestRenderedBoxes = []
        · exact Option.some.inj h ▸ by simpa [hpaused, hnil] using Step.copyNone hmain hpaused hnil
        · exact Option.some.inj h ▸ by simpa [hpaused, hnil] using Step.copySome hmain hpaused hnil
    · cases h
  | rendered =>
    simp only [step] at h
    split at h
    · next boxes frame hmain => exact Option.some.inj h ▸ .rendered hmain
    · cases h
  | publish boxes frame moved =>
    simp only [step] at h
    split_ifs at h with hpublished
    exact Option.some.inj h ▸ .publish boxes frame moved (Bool.eq_false_iff.mpr hpublished)
  | count =>
    simp only [step] at h
    split_ifs at h with hpublished
    exact Option.some.inj h ▸ .count hpublished
  | clearLatest =>
    simp only [step] at h
    split_ifs at h with hpublished
    exact Option.some.inj h ▸ .clearLatest (Bool.eq_false_iff.mpr hpublished)

/-! ### No list is missed -/

/-- What the screen shows, or is about to show, and whether for a pause; none while
a copy is under way. -/
def onScreen (s : Handover) : Option (List BoundingBox × Bool) :=
  match s.main with
  | .poll | .look => some (s.shown, s.darkened)
  | .copying _ => none
  | .rendering boxes _ => some (boxes, s.visualBlurPaused)

/-- The counter the main loop remembers is not ahead, and where it is not behind
either the screen shows the latest boxes. -/
structure Counted (s : Handover) : Prop where
  processed : s.lastProcessedSeq ≤ s.rawFrameSeq
  loaded : ∀ seq, s.main = .copying seq → seq ≤ s.rawFrameSeq
  upToDate : s.rawFrameSeq = s.lastProcessedSeq → s.published = false →
    ∀ p ∈ s.onScreen, p.1 = s.latestRenderedBoxes ∨ p.1 = [] ∧ p.2 = true

theorem counted_start : Counted {} :=
  ⟨le_rfl, (fun _ h => nomatch h), fun _ _ _ hp => .inl (Option.some.inj hp ▸ rfl)⟩

theorem share_eq (s : Handover) (boxes : List BoundingBox) (frame : VideoFrame) (moved : Bool) :
    ∃ buf shared, s.share boxes frame moved =
      { s with
        latestRenderedBoxes := boxes, latestFrame := frame, published := true
        sharedFrameBuf := buf, sharedFrame := shared } := by
  rw [share]
  split
  · split_ifs
    · exact ⟨_, _, rfl⟩
    · exact ⟨_, _, rfl⟩
  · exact ⟨_, _, rfl⟩

theorem counted_step {s s' : Handover} {e : Event} (hstep : step s e = some s')
    (h : Counted s) : Counted s' := by
  obtain ⟨hle, hloaded, hdate⟩ := h
  cases step_cases hstep with
  | pause hmain =>
    exact ⟨hle, (fun _ hc => nomatch hc), fun _ _ p hp => .inr (Option.some.inj hp ▸ ⟨rfl, rfl⟩)⟩
  | resume hmain =>
    exact ⟨hle, (fun _ hc => nomatch hc), fun hseq hpub p hp =>
      hdate hseq hpub p (by rw [onScreen, hmain]; exact hp)⟩
  | noRequest hmain =>
    exact ⟨hle, (fun _ hc => nomatch hc), fun hseq hpub p hp =>
      hdate hseq hpub p (by rw [onScreen, hmain]; exact hp)⟩
  | idle hmain =>
    exact ⟨hle, (fun _ hc => nomatch hc), fun hseq hpub p hp =>
      hdate hseq hpub p (by rw [onScreen, hmain]; exact hp)⟩
  | load hmain =>
    refine ⟨hle, fun seq hc => ?_, fun _ _ _ hp => nomatch hp⟩
    cases hc
    exact le_rfl
  | copyDark hmain hpaused =>
    exact ⟨hloaded _ hmain, (fun _ hc => nomatch hc), fun _ _ p hp =>
      .inr (Option.some.inj hp ▸ ⟨rfl, hpaused⟩)⟩
  | copyNone hmain hpaused hnil =>
    exact ⟨hloaded _ hmain, (fun _ hc => nomatch hc), fun _ _ p hp =>
      .inl (Option.some.inj hp ▸ hnil.symm)⟩
  | copySome hmain =>
    exact ⟨hloaded _ hmain, (fun _ hc => nomatch hc), fun _ _ p hp =>
      .inl (Option.some.inj hp ▸ rfl)⟩
  | rendered hmain =>
    exact ⟨hle, (fun _ hc => nomatch hc), fun hseq hpub p hp =>
      hdate hseq hpub p (by rw [onScreen, hmain]; exact hp)⟩
  | publish boxes frame moved =>
    obtain ⟨buf, shared, heq⟩ := s.share_eq boxes frame moved
    rw [heq]
    exact ⟨hle, hloaded, fun _ hpub => nomatch hpub⟩
  | count =>
    exact ⟨Nat.le_succ_of_le hle, fun seq hc => Nat.le_succ_of_le (hloaded seq hc),
      fun hseq => absurd hseq (Nat.lt_succ_of_le hle).ne'⟩
  | clearLatest =>
    exact ⟨Nat.le_succ_of_le hle, fun seq hc => Nat.le_succ_of_le (hloaded seq hc),
      fun hseq => absurd hseq (Nat.lt_succ_of_le hle).ne'⟩

/-- A list with its frame, published and copied. -/
def firstList : List Event :=
  [.publish [Overlay.fullScreen] Overlay.grayFrame true, .count, .noRequest, .look, .copy]

theorem length_store (b : SharedBuffer) (data : Bytes) (moved : Bool) :
    (b.store data moved).bytes.length = max b.bytes.length data.length := by
  rw [SharedBuffer.store]
  split_ifs with hsmall
  · have hlt : b.bytes.length < data.length := of_decide_eq_true hsmall
    simp only [SharedBuffer.resize, List.length_append, List.length_drop, List.length_replicate]
    omega
  · have hge : ¬ b.bytes.length < data.length := of_decide_eq_false (Bool.eq_false_iff.mpr hsmall)
    simp only [List.length_append, List.length_drop]
    omega

theorem take_store (b : SharedBuffer) (data : Bytes) (moved : Bool) :
    (b.store data moved).bytes.take data.length = data := by
  rw [SharedBuffer.store]
  exact List.take_left

/-- A published list comes with the frame it was found in, which has pixels. -/
def Captured (P : List BoundingBox → VideoFrame → Prop) : Event → Prop
  | .publish boxes frame _ =>
    boxes ≠ [] → P boxes frame ∧ ∃ data, frame.data = some data ∧ 0 < data.length
  | _ => True

/-- The publication puts `shared_frame_buf` into a new block. -/
def moves (s : Handover) : Event → Bool
  | .publish boxes frame moved =>
    moved && !boxes.isEmpty && frame.data.any fun data => s.sharedFrameBuf.small data.length
  | _ => false

/-- The overlay is reading the copy of a frame. -/
def reads (s : Handover) : Bool :=
  match s.main with
  | .rendering _ (some f) => f.data.isSome
  | _ => false

/-- The condition on a step: no publication moves the buffer while the overlay reads. -/
def Undisturbed (s : Handover) (e : Event) : Prop := ¬(s.reads = true ∧ s.moves e = true)

instance (s : Handover) (e : Event) : Decidable (s.Undisturbed e) :=
  inferInstanceAs (Decidable (¬_))

/-- The pointer the overlay reads through is that of the buffer as it is. -/
def Live (s : Handover) : Prop :=
  ∀ boxes f block, s.main = .rendering boxes (some f) → f.data = some block →
    block = s.sharedFrameBuf.block

section Share

variable {s : Handover} {boxes : List BoundingBox} {frame : VideoFrame} {moved : Bool}

theorem share_nil : s.share [] frame moved =
    { s with latestRenderedBoxes := [], latestFrame := frame, published := true } := by
  rw [share]
  split <;> simp

theorem share_some {data : Bytes} (hne : boxes ≠ []) (hdata : frame.data = some data)
    (hpos : 0 < data.length) : s.share boxes frame moved =
      { s with
        latestRenderedBoxes := boxes, latestFrame := frame, published := true
        sharedFrameBuf := s.sharedFrameBuf.store data moved
        sharedFrame := .copyOf frame data.length (s.sharedFrameBuf.store data moved).block } := by
  simp only [share, hdata]
  rw [if_pos ⟨hne, hpos⟩]

theorem share_main : (s.share boxes frame moved).main = s.main := by
  obtain ⟨_, _, h⟩ := s.share_eq boxes frame moved
  rw [h]

theorem share_block : (s.share boxes frame moved).sharedFrameBuf.block =
    if s.moves (.publish boxes frame moved) then s.sharedFrameBuf.block + 1
    else s.sharedFrameBuf.block := by
  cases hdata : frame.data with
  | none => simp [share, moves, hdata]
  | some data =>
    by_cases hstore : boxes ≠ [] ∧ 0 < data.length
    · rw [share_some hstore.1 hdata hstore.2]
      cases hsmall : s.sharedFrameBuf.small data.length <;> cases moved <;>
        simp [moves, SharedBuffer.store, SharedBuffer.resize, hdata, hsmall, hstore.1]
    · have hmoves : s.moves (.publish boxes frame moved) = false := by
        rw [Bool.eq_false_iff]
        intro h
        simp only [moves, hdata, Option.any_some, SharedBuffer.small, Bool.and_eq_true,
          Bool.not_eq_true', List.isEmpty_eq_false_iff, decide_eq_true_eq] at h
        exact hstore ⟨h.1.2, Nat.zero_lt_of_lt h.2⟩
      rw [hmoves, if_neg Bool.false_ne_true]
      simp only [share, hdata]
      rw [if_neg hstore]

end Share

/-- The pointer kept for the next copy is that of the buffer as it is. -/
def Pointed (s : Handover) : Prop :=
  ∀ block, s.sharedFrame.data = some block → block = s.sharedFrameBuf.block

theorem pointed_step {s s' : Handover} {e : Event} (hstep : step s e = some s')
    (h : Pointed s) : Pointed s' := by
  cases step_cases hstep with
  | publish boxes frame moved =>
    by_cases hstore : ∃ data, frame.data = some data ∧ boxes ≠ [] ∧ 0 < data.length
    · obtain ⟨data, hdata, hne, hpos⟩ := hstore
      rw [share_some hne hdata hpos]
      exact fun block hb => (Option.some.inj hb).symm
    · have hkeep : (s.share boxes frame moved).sharedFrame = s.sharedFrame ∧
          (s.share boxes frame moved).sharedFrameBuf = s.sharedFrameBuf := by
        rw [share]
        split
        · next data hdata =>
          rw [if_neg fun hc => hstore ⟨data, hdata, hc⟩]
          exact ⟨rfl, rfl⟩
        · exact ⟨rfl, rfl⟩
      intro block hb
      rw [hkeep.2]
      exact h block (hkeep.1 ▸ hb)
  | pause | resume | noRequest | idle | load | copyDark | copyNone | copySome | rendered | count
  | clearLatest => exact h

theorem reads_iff {s : Handover} :
    s.reads = true ↔ ∃ boxes f block, s.main = .rendering boxes (some f) ∧ f.data = some block := by
  rw [reads]
  split
  · next boxes f hmain =>
    rw [Option.isSome_iff_exists]
    constructor
    · rintro ⟨block, hb⟩
      exact ⟨boxes, f, block, hmain, hb⟩
    · rintro ⟨_, _, block, hm, hb⟩
      cases hmain.symm.trans hm
      exact ⟨block, hb⟩
  · next hnot =>
    refine iff_of_false Bool.false_ne_true ?_
    rintro ⟨boxes, f, block, hm, -⟩
    exact hnot boxes f hm

/-- From a state in which the overlay's pointer is good, a step meets the condition
exactly if it is good afterwards. -/
theorem undisturbed_iff_live {s s' : Handover} {e : Event} (hstep : step s e = some s')
    (hpointed : Pointed s) (hlive : Live s) : Undisturbed s e ↔ Live s' := by
  cases step_cases hstep with
  | publish boxes frame moved =>
    cases hmoves : s.moves (.publish boxes frame moved) with
    | false =>
      refine iff_of_true (by simp [Undisturbed, hmoves]) fun bs f block hm hb => ?_
      rw [share_block, hmoves, if_neg Bool.false_ne_true]
      exact hlive bs f block (share_main ▸ hm) hb
    | true =>
      rw [Undisturbed, hmoves, and_iff_left rfl, reads_iff]
      constructor
      · intro hnot bs f block hm hb
        exact absurd ⟨bs, f, block, share_main ▸ hm, hb⟩ hnot
      · rintro hlive' ⟨bs, f, block, hm, hb⟩
        have hnew := hlive' bs f block (share_main.trans hm) hb
        have hold := hlive bs f block hm hb
        rw [share_block, hmoves, if_pos rfl] at hnew
        omega
  | copySome =>
    refine iff_of_true (fun h => nomatch h.2) fun bs f block hm hb => ?_
    cases hm
    exact hpointed block hb
  | count => exact iff_of_true (fun h => nomatch h.2) hlive
  | clearLatest => exact iff_of_true (fun h => nomatch h.2) hlive
  | pause | resume | noRequest | idle | load | copyDark | copyNone | rendered =>
    exact iff_of_true (fun h => nomatch h.2) fun _ _ _ hm => nomatch hm

/-- The overlay reads through a good pointer all along exactly in the runs in which no
publication moves the buffer while it reads. -/
theorem along_undisturbed_iff_live (events : List Event) :
    Runs.Along step Undisturbed {} events ↔ Runs.Always step Live {} events :=
  Runs.along_iff_always (fun _ _ _ => pointed_step) (fun _ _ _ => undisturbed_iff_live)
    (fun _ hb => nomatch hb) fun _ _ _ hm => nomatch hm

/-- The boxes and the frame that the main loop copies belong together, and while the
counter stands still the bytes behind the pointer are those of that frame. -/
structure Paired (P : List BoundingBox → VideoFrame → Prop) (s : Handover) : Prop where
  shared : s.latestRenderedBoxes ≠ [] → P s.latestRenderedBoxes s.latestFrame ∧
    ∃ data, s.latestFrame.data = some data ∧
      s.sharedFrame = .copyOf s.latestFrame data.length s.sharedFrameBuf.block ∧
      s.sharedFrameBuf.bytes.take data.length = data
  rendering : ∀ boxes f, s.main = .rendering boxes (some f) → ∃ frame data block,
    P boxes frame ∧ frame.data = some data ∧ f = .copyOf frame data.length block ∧
      data.length ≤ s.sharedFrameBuf.bytes.length ∧
      (s.rawFrameSeq = s.lastProcessedSeq → s.published = false →
        s.sharedFrameBuf.bytes.take data.length = data)

section Paired

variable {P : List BoundingBox → VideoFrame → Prop}

theorem paired_step {s s' : Handover} {e : Event} (hstep : step s e = some s')
    (hcaptured : Captured P e) (hle : s.lastProcessedSeq ≤ s.rawFrameSeq) (h : Paired P s) :
    Paired P s' := by
  have hahead : s.rawFrameSeq + 1 ≠ s.lastProcessedSeq := (Nat.lt_succ_of_le hle).ne'
  cases step_cases hstep with
  | publish boxes frame moved =>
    by_cases hne : boxes = []
    · subst hne
      rw [share_nil]
      refine ⟨fun hc => absurd rfl hc, fun bs f hm => ?_⟩
      obtain ⟨frame', data, block, hP, hdata, hf, hlen, -⟩ := h.rendering bs f hm
      exact ⟨frame', data, block, hP, hdata, hf, hlen, fun _ hpub => nomatch hpub⟩
    · obtain ⟨hP, data, hdata, hpos⟩ := hcaptured hne
      rw [share_some hne hdata hpos]
      refine ⟨fun _ => ⟨hP, data, hdata, rfl, take_store _ _ _⟩, fun bs f hm => ?_⟩
      obtain ⟨frame', data', block, hP', hdata', hf, hlen, -⟩ := h.rendering bs f hm
      refine ⟨frame', data', block, hP', hdata', hf, ?_, fun _ hpub => nomatch hpub⟩
      rw [length_store]
      exact hlen.trans (le_max_left _ _)
  | copySome hmain hpaused hne =>
    refine ⟨h.shared, fun bs f hm => ?_⟩
    cases hm
    obtain ⟨hP, data, hdata, hshared, htake⟩ := h.shared hne
    refine ⟨s.latestFrame, data, _, hP, hdata, hshared, ?_, fun _ _ => htake⟩
    rw [← htake]
    exact List.length_take_le' _ _
  | count =>
    refine ⟨h.shared, fun bs f hm => ?_⟩
    obtain ⟨frame, data, block, hP, hdata, hf, hlen, -⟩ := h.rendering bs f hm
    exact ⟨frame, data, block, hP, hdata, hf, hlen, fun hseq => absurd hseq hahead⟩
  | clearLatest =>
    refine ⟨fun hc => absurd rfl hc, fun bs f hm => ?_⟩
    obtain ⟨frame, data, block, hP, hdata, hf, hlen, -⟩ := h.rendering bs f hm
    exact ⟨frame, data, block, hP, hdata, hf, hlen, fun hseq => absurd hseq hahead⟩
  | pause | resume | noRequest | idle | load | copyDark | copyNone | rendered =>
    exact ⟨h.shared, fun _ _ hm => nomatch hm⟩

theorem paired_start : Paired P {} :=
  ⟨fun hne => absurd rfl hne, fun _ _ hm => nomatch hm⟩

theorem paired_of_exec {events : List Event} (hevents : ∀ e ∈ events, Captured P e) {s : Handover}
    (hrun : Runs.exec step {} events = some s) : Paired P s := by
  have halong : Runs.Along step (fun _ e => Captured P e) {} events :=
    Runs.along_of_forall ({} : Handover) hevents
  have hinv := halong.exec_invariant
    (I := fun s => Counted s ∧ Paired P s) ?_ ⟨counted_start, paired_start⟩ hrun
  · exact hinv.2
  · rintro s e s' hstep hC ⟨hcounted, hpaired⟩
    exact ⟨counted_step hstep hcounted, paired_step hstep hC hcounted.processed hpaired⟩

end Paired

theorem view_copyOf {frame : VideoFrame} {data : Bytes} (hdata : frame.data = some data)
    (n block : ℕ) : (SharedFrame.copyOf frame n block).view data = frame := by
  rw [SharedFrame.view, SharedFrame.copyOf, Option.map_some, ← hdata]

open Overlay in
/-- Which bytes a call reads does not depend on what they are. -/
theorem paintReads_view (config : OverlayConfig) (n : ℕ) (w h : UInt32) (f : SharedFrame)
    (bytes bytes' : Bytes) (boxes : List BoundingBox) :
    paintReads config n w h (some (f.view bytes)) boxes =
      paintReads config n w h (some (f.view bytes')) boxes := by
  cases hdata : f.data with
  | none => simp [SharedFrame.view, hdata]
  | some block =>
    simp only [paintReads, mosaicSource, SharedFrame.view, hdata, Option.map_some,
      Option.isSome_some, Option.filter_some]
    split_ifs <;> rfl

open Overlay in
/-- Whatever the two threads did, the boxes the overlay draws come with the frame they
were found in, every byte it samples is one that frame had, and as long as the counter
stands still it is that frame's own. -/
theorem rendering_sound {events : List Event}
    (hevents : ∀ boxes frame moved, .publish boxes frame moved ∈ events → boxes ≠ [] →
      frame.Valid ∧ ∃ data, frame.data = some data ∧ 0 < data.length)
    {s : Handover} (hrun : Runs.exec step {} events = some s) {boxes : List BoundingBox}
    {f : SharedFrame} (hmain : s.main = .rendering boxes (some f)) (config : OverlayConfig) (n : ℕ)
    (w h : UInt32) :
    ∃ frame data moved, .publish boxes frame moved ∈ events ∧ frame.data = some data ∧
      f.view data = frame ∧ data.length ≤ s.sharedFrameBuf.bytes.length ∧
      (∀ o ∈ paintReads config n w h (some (f.view s.sharedFrameBuf.bytes)) boxes,
        o < data.length) ∧
      (s.rawFrameSeq = s.lastProcessedSeq → s.published = false →
        s.sharedFrameBuf.bytes.take data.length = data) := by
  have hcaptured : ∀ e ∈ events, Captured
      (fun boxes frame => frame.Valid ∧ ∃ moved, .publish boxes frame moved ∈ events) e := by
    intro e he
    cases e with
    | publish boxes frame moved =>
      intro hne
      obtain ⟨hvalid, hdata⟩ := hevents boxes frame moved he hne
      exact ⟨⟨hvalid, moved, he⟩, hdata⟩
    | _ => trivial
  obtain ⟨frame, data, block, ⟨hvalid, moved, hmem⟩, hdata, rfl, hlen, hstill⟩ :=
    (paired_of_exec hcaptured hrun).rendering boxes f hmain
  refine ⟨frame, data, moved, hmem, hdata, view_copyOf hdata _ _, hlen, fun o ho => ?_, hstill⟩
  rw [paintReads_view config n w h _ _ data, view_copyOf hdata] at ho
  obtain ⟨_, data', hframe, hdata', hlt⟩ :=
    paintReads_lt (fun _ hf => Option.some.inj hf ▸ hvalid) ho
  cases hframe
  cases hdata.symm.trans hdata'
  exact hlt

theorem rendering_sound_firstList :
    ∃ s boxes f, Runs.exec step {} firstList = some s ∧ s.main = .rendering boxes (some f) ∧
      ∃ frame data moved, .publish boxes frame moved ∈ firstList ∧ frame.data = some data ∧
        f.view data = frame ∧ data.length ≤ s.sharedFrameBuf.bytes.length ∧
        (∀ o ∈ Overlay.paintReads {} (2 ^ 32) 4 2 (some (f.view s.sharedFrameBuf.bytes)) boxes,
          o < data.length) ∧
        (s.rawFrameSeq = s.lastProcessedSeq → s.published = false →
          s.sharedFrameBuf.bytes.take data.length = data) := by
  refine ⟨_, _, _, rfl, rfl, rendering_sound ?_ rfl rfl {} (2 ^ 32) 4 2⟩
  intro boxes frame moved hmem _
  simp only [firstList, List.mem_cons, reduceCtorEq, List.not_mem_nil, or_false,
    Event.publish.injEq] at hmem
  obtain ⟨-, rfl, -⟩ := hmem
  exact ⟨Overlay.grayFrame_valid, _, rfl, by decide⟩

end Handover

end Degoonification.Ipc
