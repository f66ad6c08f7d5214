import Degoonification.Browser.Content

/-! Scan against observer. Both shield the videos and the suspicious images. Beyond
them the observer shields the roots of added subtrees for their background, and the
scan, where images are not blurred, those below a marked ancestor. So the same elements
are shielded exactly where these two kinds are the same. -/

namespace Degoonification.Browser

open Ipc (ascii)
open RoseTree (root_of_mem_walk mem_walk_insertAt walk_subset_insertAt mem_keys key_mem_keys)

/-- A page on which the general rules apply. -/
structure General (page : Page) : Prop where
  enabled : page.config.enabled = true
  site : page.onAdultSite = false

/-! ### What is shielded -/

/-- The targets that scan and observer have in common. -/
def SharedTarget (page : Page) (x : Placed) : Prop :=
  page.config.blurVideos = true ∧ x.el.tag = .video ∨
    page.config.blurImages = true ∧ x.el.tag = .img ∧ isSuspicious page x = true

/-- What the last rule of `processNode` shields. -/
def BackgroundTarget (page : Page) (x : Placed) : Prop :=
  ¬ (page.config.blurVideos = true ∧ x.el.tag = .video) ∧
    ¬ (page.config.blurImages = true ∧ x.el.tag = .img) ∧
    hasBackground x.el = true ∧ isSuspicious page x = true

/-- What only the last rule of `scanDOM` shields. -/
def MarkedImage (page : Page) (x : Placed) : Prop :=
  page.config.blurImages = false ∧ x.el.tag = .img ∧ x.ancestors.any isMarked = true

/-- What the callback owes an added node: the node itself and the shared targets below. -/
def Owed (page : Page) (node : ℕ) (x : Placed) : Prop :=
  x.el.id = node ∧ (SharedTarget page x ∨ BackgroundTarget page x) ∨
    (∃ a ∈ x.ancestors, a.id = node) ∧ SharedTarget page x

instance (page : Page) (x : Placed) : Decidable (BackgroundTarget page x) :=
  inferInstanceAs (Decidable (_ ∧ _))

instance (page : Page) (x : Placed) : Decidable (MarkedImage page x) :=
  inferInstanceAs (Decidable (_ ∧ _))

variable {page : Page} {d : Dom} {x : Placed}

theorem not_shared_of_background (h : BackgroundTarget page x) : ¬ SharedTarget page x := by
  rintro (hv | ⟨hi, htag, -⟩)
  · exact h.1 hv
  · exact h.2.1 ⟨hi, htag⟩

theorem not_shared_of_markedImage (h : MarkedImage page x) : ¬ SharedTarget page x := by
  obtain ⟨hoff, himg, -⟩ := h
  rintro (⟨-, hv⟩ | ⟨hon, -⟩)
  · exact absurd (himg.symm.trans hv) (by decide)
  · exact absurd (hoff.symm.trans hon) (by decide)

/-- `closest` starts at the element itself, so a marked ancestor is enough. -/
theorem isSuspicious_of_marked (h : x.ancestors.any isMarked = true) :
    isSuspicious page x = true := by
  obtain ⟨a, ha, hmarked⟩ := List.any_eq_true.mp h
  have hclosest : (closest x isMarked).isSome = true := by
    rw [closest, List.find?_isSome]
    exact ⟨a, List.mem_cons_of_mem _ ha, hmarked⟩
  rw [isSuspicious, hclosest, if_pos rfl]
  exact ite_self true

theorem shared_or_marked_iff : (SharedTarget page x ∨ MarkedImage page x) ↔
    SharedTarget page x ∨ x.el.tag = .img ∧ x.ancestors.any isMarked = true := by
  constructor
  · rintro (h | ⟨-, h⟩)
    · exact Or.inl h
    · exact Or.inr h
  · rintro (h | ⟨himg, hmarked⟩)
    · exact Or.inl h
    · cases hon : page.config.blurImages with
      | false => exact Or.inr ⟨hon, himg, hmarked⟩
      | true => exact Or.inl (Or.inr ⟨hon, himg, isSuspicious_of_marked hmarked⟩)

theorem processNode_iff (hpage : General page) :
    processNode page x = true ↔ SharedTarget page x ∨ BackgroundTarget page x := by
  rw [processNode, hpage.enabled, hpage.site, SharedTarget, BackgroundTarget]
  simp only [Bool.not_true, Bool.false_eq_true, if_false]
  split_ifs with hv hi
  all_goals simp only [Bool.and_eq_true, beq_iff_eq] at *
  · exact iff_of_true trivial (Or.inl (Or.inl hv))
  · tauto
  · tauto

/-- The two selections that scan and observer make alike. -/
theorem mem_selected {xs : List Placed} :
    x ∈ (if page.config.blurVideos then xs.filter fun x => x.el.tag == .video else []) ++
        (if page.config.blurImages then
          xs.filter fun x => x.el.tag == .img && isSuspicious page x else []) ↔
      x ∈ xs ∧ SharedTarget page x := by
  rw [SharedTarget, List.mem_append]
  cases page.config.blurVideos <;> cases page.config.blurImages <;>
    simp [List.mem_filter, and_or_left]

theorem mem_scanDOM (hpage : General page) : x ∈ scanDOM page d ↔
    x ∈ d.walk [] ∧ (SharedTarget page x ∨ MarkedImage page x) := by
  have hmarked : x ∈ (d.walk []).filter (fun x => x.el.tag == .img && x.ancestors.any isMarked) ↔
      x ∈ d.walk [] ∧ x.el.tag = .img ∧ x.ancestors.any isMarked = true := by
    rw [List.mem_filter, Bool.and_eq_true, beq_iff_eq]
  rw [scanDOM, hpage.enabled, hpage.site, shared_or_marked_iff, and_or_left, ← hmarked,
    ← mem_selected, ← List.mem_append]
  rfl

theorem mem_onAdded (hpage : General page) {node : ℕ} : x ∈ onAdded page d node ↔
    x ∈ d.walk [] ∧ Owed page node x := by
  have hself : x ∈ (d.walk []).filter (fun x => x.el.id == node && processNode page x) ↔
      x ∈ d.walk [] ∧ x.el.id = node ∧ (SharedTarget page x ∨ BackgroundTarget page x) := by
    rw [List.mem_filter, Bool.and_eq_true, beq_iff_eq, processNode_iff hpage]
  have hbelow : x ∈ (d.walk []).filter (fun x => x.ancestors.any fun a => a.id == node) ↔
      x ∈ d.walk [] ∧ ∃ a ∈ x.ancestors, a.id = node := by
    simp only [List.mem_filter, List.any_eq_true, beq_iff_eq]
  rw [onAdded, hpage.enabled, hpage.site, Owed, and_or_left, ← hself, ← and_assoc, ← hbelow,
    ← mem_selected, ← List.mem_append]
  rfl

/-! ### Shielding twice -/

theorem mem_shieldElement {i : ℕ} {ps : List ℕ} :
    i ∈ shieldElement ps x ↔ i ∈ ps ∨ i = x.el.id := by
  rw [shieldElement]
  split_ifs with h
  · exact ⟨Or.inl, fun hi => hi.elim id fun hx => hx ▸ h⟩
  · rw [List.mem_append, List.mem_singleton]

theorem mem_foldl_shieldElement {i : ℕ} (xs : List Placed) (ps : List ℕ) :
    i ∈ xs.foldl shieldElement ps ↔ i ∈ ps ∨ ∃ x ∈ xs, x.el.id = i := by
  induction xs generalizing ps with
  | nil => simp
  | cons x xs ih =>
    rw [List.foldl_cons, ih, mem_shieldElement, List.exists_mem_cons_iff, or_assoc, eq_comm]

/-! ### Runs -/

/-- What a page built so far is due: the shared targets, and the roots with a background. -/
def Due (page : Page) (s : Observed) (x : Placed) : Prop :=
  SharedTarget page x ∨ x.el.id ∈ s.inserted ∧ BackgroundTarget page x

/-- Nothing but what is due is shielded, and what is due and not yet shielded is owed to an
added node that waits for the callback. -/
structure Keeping (page : Page) (s : Observed) : Prop where
  distinct : s.document.Distinct Element.id
  records : ∀ r ∈ s.records, r ∈ s.inserted
  inserted : ∀ r ∈ s.inserted, r ∈ s.document.ids
  processed : ∀ i ∈ s.processed, i ∈ s.document.ids
  sound : ∀ x ∈ s.document.walk [], x.el.id ∈ s.processed → Due page s x
  complete : ∀ x ∈ s.document.walk [], Due page s x →
    x.el.id ∈ s.processed ∨ ∃ r ∈ s.records, Owed page r x

variable {s s' : Observed}

theorem keeping_start (root : Element) : Keeping page (Observed.start root) where
  distinct x hx y hy _ := by
    rw [List.mem_singleton.mp hx, List.mem_singleton.mp hy]
  records r hr := absurd hr List.not_mem_nil
  inserted r hr := absurd hr List.not_mem_nil
  processed i hi := absurd hi List.not_mem_nil
  sound x _ hi := absurd hi List.not_mem_nil
  complete x hx hdue := by
    obtain rfl := List.mem_singleton.mp hx
    rcases hdue with (⟨-, htag⟩ | ⟨-, htag, -⟩) | ⟨hin, -⟩
    · exact absurd htag (by simp)
    · exact absurd htag (by simp)
    · exact absurd hin List.not_mem_nil

theorem mem_deliver (hpage : General page) {i : ℕ} :
    i ∈ (s.records.flatMap (onAdded page s.document)).foldl shieldElement s.processed ↔
      i ∈ s.processed ∨
        ∃ x ∈ s.document.walk [], x.el.id = i ∧ ∃ r ∈ s.records, Owed page r x := by
  rw [mem_foldl_shieldElement]
  refine or_congr_right ⟨?_, ?_⟩
  · rintro ⟨x, hx, hi⟩
    obtain ⟨r, hr, hx⟩ := List.mem_flatMap.mp hx
    obtain ⟨hwalk, howed⟩ := (mem_onAdded hpage).mp hx
    exact ⟨x, hwalk, hi, r, hr, howed⟩
  · rintro ⟨x, hwalk, hi, r, hr, howed⟩
    exact ⟨x, List.mem_flatMap.mpr ⟨r, hr, (mem_onAdded hpage).mpr ⟨hwalk, howed⟩⟩, hi⟩

theorem due_of_owed {r : ℕ} (hr : r ∈ s.inserted) (h : Owed page r x) : Due page s x := by
  rcases h with ⟨hid, hshared | hback⟩ | ⟨-, hshared⟩
  · exact Or.inl hshared
  · exact Or.inr ⟨hid ▸ hr, hback⟩
  · exact Or.inl hshared

/-- A shared target of a subtree is owed to its root. -/
theorem owed_of_shared {t : Dom} {as : List Element} (hx : x ∈ t.walk as)
    (h : SharedTarget page x) : Owed page t.label.id x := by
  rcases root_of_mem_walk hx with hroot | hbelow
  · exact Or.inl ⟨congrArg Element.id hroot, Or.inl h⟩
  · exact Or.inr ⟨⟨t.label, hbelow, rfl⟩, h⟩

theorem Keeping.deliver (hpage : General page) (h : Keeping page s) :
    Keeping page { s with
      records := []
      processed :=
        (s.records.flatMap (onAdded page s.document)).foldl shieldElement s.processed } where
  distinct := h.distinct
  records r hr := absurd hr List.not_mem_nil
  inserted := h.inserted
  processed i hi := by
    rcases (mem_deliver hpage).mp hi with hi | ⟨x, hx, rfl, -⟩
    · exact h.processed i hi
    · exact key_mem_keys hx
  sound x hx hi := by
    rcases (mem_deliver hpage).mp hi with hi | ⟨y, hy, hid, r, hr, howed⟩
    · exact h.sound x hx hi
    · obtain rfl := h.distinct y hy x hx hid
      exact due_of_owed (h.records r hr) howed
  complete x hx hdue := by
    refine Or.inl ((mem_deliver hpage).mpr ?_)
    rcases h.complete x hx hdue with hi | howed
    · exact Or.inl hi
    · exact Or.inr ⟨x, hx, rfl, howed⟩

theorem Keeping.insert (h : Keeping page s) {parent index : ℕ} {t : Dom}
    (hparent : parent ∈ s.document.ids) (hnodup : t.ids.Nodup)
    (hfresh : ∀ i ∈ t.ids, i ∉ s.document.ids) :
    Keeping page { s with
      document := RoseTree.insertAt Element.id parent index t s.document
      records := s.records ++ [t.label.id]
      inserted := s.inserted ++ [t.label.id] } where
  distinct := RoseTree.distinct_insertAt h.distinct hnodup hfresh
  records r hr := by
    rcases List.mem_append.mp hr with hr | hr
    · exact List.mem_append_left _ (h.records r hr)
    · exact List.mem_append_right _ hr
  inserted r hr := by
    rcases List.mem_append.mp hr with hr | hr
    · exact RoseTree.keys_subset_insertAt (h.inserted r hr)
    · exact List.mem_singleton.mp hr ▸ RoseTree.label_mem_keys_insertAt hparent
  processed i hi := RoseTree.keys_subset_insertAt (h.processed i hi)
  sound x hx hi := by
    rcases mem_walk_insertAt hx with hx | ⟨y, -, -, hx⟩
    · rcases h.sound x hx hi with hshared | ⟨hin, hback⟩
      · exact Or.inl hshared
      · exact Or.inr ⟨List.mem_append_left _ hin, hback⟩
    · exact absurd (h.processed _ hi) (hfresh _ (key_mem_keys hx))
  complete x hx hdue := by
    rcases mem_walk_insertAt hx with hx | ⟨y, -, -, hx⟩
    · -- an old element: its identity is not the new root's, so it was due before
      have hold : Due page s x := by
        rcases hdue with hshared | ⟨hin, hback⟩
        · exact Or.inl hshared
        · rcases List.mem_append.mp hin with hin | hin
          · exact Or.inr ⟨hin, hback⟩
          · exact absurd (key_mem_keys hx)
              (hfresh _ (List.mem_singleton.mp hin ▸ key_mem_keys (RoseTree.mem_walk_label [] t)))
      rcases h.complete x hx hold with hi | ⟨r, hr, howed⟩
      · exact Or.inl hi
      · exact Or.inr ⟨r, List.mem_append_left _ hr, howed⟩
    · -- a new element: the record of its subtree covers it
      refine Or.inr ⟨t.label.id, List.mem_append_right _ (List.mem_singleton.mpr rfl), ?_⟩
      rcases hdue with hshared | ⟨hin, hback⟩
      · exact owed_of_shared hx hshared
      · rcases List.mem_append.mp hin with hin | hin
        · exact absurd (h.inserted _ hin) (hfresh _ (key_mem_keys hx))
        · exact Or.inl ⟨List.mem_singleton.mp hin, Or.inr hback⟩

theorem Keeping.step (hpage : General page) {e : PageEvent}
    (hstep : Observed.step page s e = some s') (h : Keeping page s) : Keeping page s' := by
  cases e with
  | insert parent index t =>
    rw [Observed.step] at hstep
    split_ifs at hstep with hok
    obtain rfl := Option.some.inj hstep
    exact h.insert hok.1 hok.2.1 hok.2.2
  | deliver =>
    obtain rfl := Option.some.inj hstep
    exact h.deliver hpage

/-! ### Scan and observer -/

theorem mem_processed_iff (h : Keeping page s) (hdone : s.records = [])
    (hx : x ∈ s.document.walk []) : x.el.id ∈ s.processed ↔ Due page s x := by
  refine ⟨h.sound x hx, fun hdue => ?_⟩
  rcases h.complete x hx hdue with hi | ⟨r, hr, -⟩
  · exact hi
  · exact absurd (hdone ▸ hr) List.not_mem_nil

theorem mem_scanned_iff (hpage : General page) (hd : d.Distinct Element.id) (hx : x ∈ d.walk []) :
    x.el.id ∈ (scanDOM page d).foldl shieldElement [] ↔
      SharedTarget page x ∨ MarkedImage page x := by
  rw [mem_foldl_shieldElement]
  constructor
  · rintro (hi | ⟨y, hy, hid⟩)
    · exact absurd hi List.not_mem_nil
    · obtain ⟨hwalk, htarget⟩ := (mem_scanDOM hpage).mp hy
      exact hd y hwalk x hx hid ▸ htarget
  · exact fun h => Or.inr ⟨x, (mem_scanDOM hpage).mpr ⟨hx, h⟩, rfl⟩

theorem scanned_mem_ids (hpage : General page) {i : ℕ}
    (hi : i ∈ (scanDOM page d).foldl shieldElement []) : i ∈ d.ids := by
  obtain ⟨x, hx, rfl⟩ := ((mem_foldl_shieldElement _ _).mp hi).resolve_left List.not_mem_nil
  exact key_mem_keys ((mem_scanDOM hpage).mp hx).1

/-- Both sides shield elements of the document only, so these decide. -/
theorem same_ids_iff (hpage : General page) (h : Keeping page s) :
    (∀ i, i ∈ s.processed ↔ i ∈ (scanDOM page s.document).foldl shieldElement []) ↔
      ∀ x ∈ s.document.walk [],
        (x.el.id ∈ s.processed ↔ x.el.id ∈ (scanDOM page s.document).foldl shieldElement []) := by
  refine ⟨fun hall x _ => hall x.el.id, fun hwalk i => ?_⟩
  by_cases hi : i ∈ s.document.ids
  · obtain ⟨x, hx, rfl⟩ := mem_keys.mp hi
    exact hwalk x hx
  · exact iff_of_false (fun hp => hi (h.processed i hp)) fun hs => hi (scanned_mem_ids hpage hs)

theorem due_iff_scanned : (Due page s x ↔ SharedTarget page x ∨ MarkedImage page x) ↔
    (x.el.id ∈ s.inserted ∧ BackgroundTarget page x ↔ MarkedImage page x) := by
  by_cases hshared : SharedTarget page x
  · -- a shared target is neither of the two others
    have hback : ¬ (x.el.id ∈ s.inserted ∧ BackgroundTarget page x) := fun h =>
      not_shared_of_background h.2 hshared
    have hmarked : ¬ MarkedImage page x := fun h => not_shared_of_markedImage h hshared
    exact iff_of_true (iff_of_true (Or.inl hshared) (Or.inl hshared)) (iff_of_false hback hmarked)
  · rw [Due, or_iff_right hshared, or_iff_right hshared]

/-- However a page is built, once every record is delivered the observer has shielded what a
scan of the finished page shields exactly if the suspicious roots with a background are the
images that only their marked ancestors condemn. -/
theorem observed_iff_scanned (hpage : General page) (root : Element) (es : List PageEvent)
    (hrun : Runs.exec (Observed.step page) (Observed.start root) es = some s)
    (hdone : s.records = []) :
    (∀ i, i ∈ s.processed ↔ i ∈ (scanDOM page s.document).foldl shieldElement []) ↔
      ∀ x ∈ s.document.walk [],
        (x.el.id ∈ s.inserted ∧ BackgroundTarget page x ↔ MarkedImage page x) := by
  have hkeep : Keeping page s :=
    Runs.exec_invariant (fun _ _ _ hstep h => h.step hpage hstep) (keeping_start root) hrun
  rw [same_ids_iff hpage hkeep]
  refine forall₂_congr fun x hx => ?_
  rw [mem_processed_iff hkeep hdone hx, mem_scanned_iff hpage hkeep.distinct hx, due_iff_scanned]

/-- A post with a video and a picture that its text gives away, added at once. -/
def post : List PageEvent :=
  [.insert 0 0 (.node { id := 1, tag := .other (ascii "div") }
    [.node { id := 2, tag := .video } [],
      .node { id := 3, tag := .img, alt := ascii "Nude" } []]), .deliver]

theorem observed_iff_scanned_post : ∃ s,
    Runs.exec (Observed.step {}) (Observed.start { id := 0, tag := .html }) post = some s ∧
      s.processed = [2, 3] ∧
      ∀ i, i ∈ s.processed ↔ i ∈ (scanDOM {} s.document).foldl shieldElement [] :=
  ⟨_, rfl, by decide +kernel,
    (observed_iff_scanned ⟨rfl, rfl⟩ { id := 0, tag := .html } post rfl rfl).mpr
      (by decide +kernel)⟩

/-- A banner with a background. -/
def banner : Element :=
  { id := 1, tag := .other (ascii "div"), title := ascii "nsfw", backgroundImage := ascii "url(x)" }

/-- The observer shields a banner, a scan never looks at it. -/
theorem banner_not_scanned : ∃ s,
    Runs.exec (Observed.step {}) (Observed.start { id := 0, tag := .html })
        [.insert 0 0 (.node banner []), .deliver] = some s ∧
      s.records = [] ∧ banner.id ∈ s.processed ∧
      banner.id ∉ (scanDOM {} s.document).foldl shieldElement [] :=
  ⟨_, rfl, rfl, by decide +kernel, by decide +kernel⟩

end Degoonification.Browser
