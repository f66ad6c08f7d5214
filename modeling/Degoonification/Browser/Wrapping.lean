import Degoonification.Browser.Shielding
import Degoonification.Library.Splice
import Mathlib.Logic.Function.Iterate

/-! What shielding does to the page. `shieldElement` moves a video into a wrapper with a
badge beside it, and the observer that called it sees that too: the wrapper, the video in
its new place and the badge are added nodes of the next callback. The callbacks come to
rest, the page is left as it was but for the wrappers, and what is shielded in the end is
what `Observed` says, where shielding has no look. The callback is delivered with all
records so far; the page inserts below its own elements. -/

namespace Degoonification.Browser

open Ipc (ascii)
open RoseTree (splice spliceAll)

/-! ### A page with shields -/

/-- A node of the document: the page's own, or made by `shieldElement` for a video. -/
inductive Node where
  | own (el : Element)
  | wrapper (video : ℕ)
  | badge (video : ℕ)
  | span (video : ℕ) (second : Bool)

inductive NodeKey where
  | own (id : ℕ)
  | wrapper (video : ℕ)
  | badge (video : ℕ)
  | span (video : ℕ) (second : Bool)
  deriving DecidableEq

namespace Node

def key : Node → NodeKey
  | own el => .own el.id
  | wrapper v => .wrapper v
  | badge v => .badge v
  | span v second => .span v second

/-- The page's own element. -/
def own? : Node → Option Element
  | own el => some el
  | _ => none

/-- What the script reads of a node; `style` is the computed background of the nodes that
the script made. -/
def element (style : NodeKey → Bytes) : Node → Element
  | own el => el
  | wrapper v =>
    { id := 0, tag := .other (ascii "div"), className := ascii "degoon-video-wrapper"
      backgroundImage := style (.wrapper v) }
  | badge v =>
    { id := 0, tag := .other (ascii "div"), className := ascii "degoon-shield-badge"
      backgroundImage := style (.badge v) }
  | span v second =>
    { id := 0, tag := .other (ascii "span"), backgroundImage := style (.span v second) }

/-- `classList.contains('degoon-video-wrapper')`. -/
def isWrapper : Node → Bool
  | own el => el.classList.contains (ascii "degoon-video-wrapper")
  | wrapper _ => true
  | _ => false

end Node

/-- A wrapper around a video, with its badge. -/
def wrapped (v : ℕ) (t : RoseTree Node) : RoseTree Node :=
  .node (.wrapper v)
    [t, .node (.badge v) [.node (.span v false) [], .node (.span v true) []]]

mutual
/-- Moves the element with identity `v` into a wrapper, unless it stands in one. -/
def wrap (v : ℕ) : RoseTree Node → RoseTree Node
  | .node a cs => .node a (wrapAll v a cs)
def wrapAll (v : ℕ) (parent : Node) : List (RoseTree Node) → List (RoseTree Node)
  | [] => []
  | c :: cs =>
    (if c.label.key = .own v ∧ parent.isWrapper = false then wrapped v (wrap v c) else wrap v c) ::
      wrapAll v parent cs
end

mutual
/-- A page of which the elements chosen by `W` stand in wrappers. -/
def render (W : Element → Bool) : Dom → RoseTree Node
  | .node el cs => .node (.own el) (renderAll W el cs)
def renderAll (W : Element → Bool) (parent : Element) : List Dom → List (RoseTree Node)
  | [] => []
  | c :: cs =>
    (if W c.label && !(Node.own parent).isWrapper then wrapped c.label.id (render W c)
      else render W c) :: renderAll W parent cs
end

/-! ### The script on such a page -/

abbrev Page.asVideo (page : Page) (el : Element) : Bool :=
  el.tag == .video && (page.onAdultSite || page.config.blurVideos)

/-- The document, the added nodes not yet delivered, and `processedElements`. -/
structure Shielded where
  document : RoseTree Node
  records : List NodeKey := []
  processed : List NodeKey := []

namespace Shielded

/-- The added nodes of a wrapping, if the video has a parent and that is no wrapper. -/
def wrapRecords (v : ℕ) (parent : Option Node) : List NodeKey :=
  if parent.any fun p => !p.isWrapper then [.wrapper v, .own v, .badge v] else []

/-- `shieldElement`. Its `isVideo` says that the element is a video that is shielded as one. -/
def shield (page : Page) (s : Shielded) (k : NodeKey) : Shielded :=
  if k ∈ s.processed then s
  else
    let s := { s with processed := s.processed ++ [k] }
    match (s.document.walk []).find? fun x => x.el.key == k with
    | some ⟨.own el, ancestors⟩ =>
      if page.asVideo el then
        { s with
          document := wrap el.id s.document
          records := s.records ++ wrapRecords el.id ancestors.head? }
      else s
    | _ => s

/-- A node as `processNode` and `isSuspicious` read it. -/
def read (style : NodeKey → Bytes) (x : RoseTree.Placed Node) : Placed :=
  ⟨x.el.element style, x.ancestors.map (Node.element style)⟩

/-- A list of nodes is made, then each is shielded. -/
def shieldAll (page : Page) (s : Shielded) (p : RoseTree.Placed Node → Bool) : Shielded :=
  (((s.document.walk []).filter p).map fun x => x.el.key).foldl (shield page) s

/-- `querySelectorAll` on a node looks below it. -/
def isBelow (k : NodeKey) (x : RoseTree.Placed Node) : Bool := x.ancestors.any fun a => a.key == k

/-- The callback for one added node. -/
def onNode (page : Page) (style : NodeKey → Bytes) (s : Shielded) (k : NodeKey) : Shielded :=
  if !page.config.enabled then s
  else
    let s := shieldAll page s fun x => x.el.key == k && processNode page (read style x)
    if page.onAdultSite then
      shieldAll page s fun x => isBelow k x && ((x.el.element style).tag == .img ||
        (x.el.element style).tag == .video || (x.el.element style).tag == .canvas)
    else
      let s := if page.config.blurVideos then
          shieldAll page s fun x => isBelow k x && (x.el.element style).tag == .video
        else s
      if page.config.blurImages then
        shieldAll page s fun x => isBelow k x && ((x.el.element style).tag == .img &&
          isSuspicious page (read style x))
      else s

/-- The callback. -/
def deliver (page : Page) (style : NodeKey → Bytes) (s : Shielded) : Shielded :=
  s.records.foldl (onNode page style) { s with records := [] }

def step (page : Page) (style : NodeKey → Bytes) (s : Shielded) : PageEvent → Option Shielded
  | .insert parent index subtree =>
    let keys := s.document.keys Node.key
    if .own parent ∈ keys ∧ subtree.ids.Nodup ∧ ∀ i ∈ subtree.ids, .own i ∉ keys then
      some { s with
        document := RoseTree.insertAt Node.key (.own parent) index (render (fun _ => false) subtree)
          s.document
        records := s.records ++ [.own subtree.label.id] }
    else none
  | .deliver => some (deliver page style s)

def start (root : Element) : Shielded :=
  { document := render (fun _ => false) (.node { root with tag := .html } []) }

end Shielded

/-! ### Wrapped pages -/

section Render

variable {W W' : Element → Bool}

theorem renderAll_eq_map (parent : Element) (cs : List Dom) :
    renderAll W parent cs = cs.map fun c =>
      if W c.label && !(Node.own parent).isWrapper then wrapped c.label.id (render W c)
      else render W c := by
  induction cs with
  | nil => rfl
  | cons c cs ih => rw [renderAll, ih, List.map_cons]

@[simp] theorem label_render (d : Dom) : (render W d).label = .own d.label := by
  cases d
  rfl

@[simp] theorem splice_wrapped (v : ℕ) (t : RoseTree Node) :
    splice Node.own? (wrapped v t) = splice Node.own? t := by
  simp [wrapped, splice, spliceAll, Node.own?]

theorem wrap_wrapped (u v : ℕ) (t : RoseTree Node) :
    wrap v (wrapped u t) = wrapped u (wrap v t) := by
  simp [wrapped, wrap, wrapAll, Node.isWrapper, Node.key, RoseTree.label]

mutual
/-- Without its wrappers a page is as it was. -/
theorem splice_render : ∀ d : Dom, splice Node.own? (render W d) = [d]
  | .node el cs => by
    rw [render, splice]
    simp only [Node.own?]
    rw [spliceAll_renderAll el cs]
theorem spliceAll_renderAll (parent : Element) : ∀ cs : List Dom,
    spliceAll Node.own? (renderAll W parent cs) = cs
  | [] => rfl
  | c :: cs => by
    rw [renderAll, spliceAll, spliceAll_renderAll parent cs]
    split_ifs
    · rw [splice_wrapped, splice_render c]
      rfl
    · rw [splice_render c]
      rfl
end

mutual
theorem render_congr : ∀ {as : List Element} {d : Dom},
    (∀ x ∈ d.walk as, W x.el = W' x.el) → render W d = render W' d
  | as, .node el cs, h => by
    rw [render, render, renderAll_congr fun x hx => h x (List.mem_cons_of_mem _ hx)]
theorem renderAll_congr : ∀ {as : List Element} {parent : Element} {cs : List Dom},
    (∀ x ∈ RoseTree.walkAll as cs, W x.el = W' x.el) →
      renderAll W parent cs = renderAll W' parent cs
  | as, parent, [], h => rfl
  | as, parent, c :: cs, h => by
    rw [RoseTree.walkAll] at h
    obtain ⟨hc, hcs⟩ := List.forall_mem_append.mp h
    rw [renderAll, renderAll, renderAll_congr hcs, render_congr hc,
      hc _ (RoseTree.mem_walk_label as c)]
end

mutual
/-- Wrapping one more element. -/
theorem wrap_render {v : ℕ} (hv : ∀ el, el.id = v → W el = false) : ∀ d : Dom,
    wrap v (render W d) = render (fun el => W el || el.id == v) d
  | .node el cs => by
    rw [render, render, wrap, wrapAll_renderAll hv el cs]
theorem wrapAll_renderAll {v : ℕ} (hv : ∀ el, el.id = v → W el = false) (parent : Element) :
    ∀ cs : List Dom, wrapAll v (.own parent) (renderAll W parent cs) =
      renderAll (fun el => W el || el.id == v) parent cs
  | [] => rfl
  | c :: cs => by
    rw [renderAll, renderAll, wrapAll, wrapAll_renderAll hv parent cs, ← wrap_render hv c]
    congr 1
    cases hp : (Node.own parent).isWrapper with
    | true => simp
    | false =>
      by_cases hc : c.label.id = v
      · simp [hv c.label hc, hc, Node.key]
      · cases hW : W c.label with
        | true =>
          have hframe : ((wrapped c.label.id (render W c)).label).key ≠ .own v := by
            simp [wrapped, RoseTree.label, Node.key]
          simp [hframe, wrap_wrapped]
        | false => simp [hc, Node.key]
end

mutual
/-- The page inserts below its own elements, wherever their children stand. -/
theorem insertAt_render {parent index : ℕ} {t : Dom} (ht : ∀ x ∈ t.walk [], W x.el = false) :
    ∀ d : Dom, RoseTree.insertAt Node.key (.own parent) index (render (fun _ => false) t)
        (render W d) = render W (RoseTree.insertAt Element.id parent index t d)
  | .node el cs => by
    have hnew : render (fun _ => false) t = render W t :=
      render_congr fun x hx => (ht x hx).symm
    have hlabel : W t.label = false := ht _ (RoseTree.mem_walk_label [] t)
    rw [render, RoseTree.insertAt, RoseTree.insertAt]
    by_cases hp : el.id = parent
    · rw [if_pos hp, if_pos (by simp [Node.key, hp]), render, hnew]
      simp only [renderAll_eq_map, List.map_append, List.map_cons, List.map_take, List.map_drop,
        hlabel, Bool.false_and, Bool.false_eq_true, if_false]
    · rw [if_neg hp, if_neg (by simp [Node.key, hp]), render, insertAll_renderAll ht el cs]
theorem insertAll_renderAll {parent index : ℕ} {t : Dom} (ht : ∀ x ∈ t.walk [], W x.el = false)
    (el : Element) : ∀ cs : List Dom,
      RoseTree.insertAll Node.key (.own parent) index (render (fun _ => false) t)
          (renderAll W el cs) =
        renderAll W el (RoseTree.insertAll Element.id parent index t cs)
  | [] => rfl
  | c :: cs => by
    rw [renderAll, RoseTree.insertAll, RoseTree.insertAll, renderAll, insertAll_renderAll ht el cs,
      RoseTree.label_insertAt, ← insertAt_render ht c]
    congr 1
    split_ifs
    · simp [wrapped, RoseTree.insertAt, RoseTree.insertAll, Node.key]
    · rfl
end

end Render

/-! ### One shield -/

/-- The videos that were shielded as such. -/
def isWrapped (page : Page) (processed : List NodeKey) (el : Element) : Bool :=
  decide (NodeKey.own el.id ∈ processed) && page.asVideo el

/-- The document is the page with wrappers around the shielded videos. -/
def Dressed (page : Page) (d : Dom) (s : Shielded) : Prop :=
  s.document = render (isWrapped page s.processed) d

theorem strip_eq_some {x : RoseTree.Placed Node} {y : Placed} :
    x.strip Node.own? = some y ↔
      x.el = .own y.el ∧ y.ancestors = x.ancestors.filterMap Node.own? := by
  obtain ⟨n, as⟩ := x
  obtain ⟨el, bs⟩ := y
  cases n <;> simp [RoseTree.Placed.strip, Node.own?, eq_comm]

theorem key_eq_own {n : Node} {i : ℕ} : n.key = .own i ↔ ∃ el, n = .own el ∧ el.id = i := by
  cases n <;> simp [Node.key]

section Shield

variable {page : Page} {d : Dom} {s : Shielded} {k : NodeKey}

/-- The page's own nodes are where they were. -/
theorem Dressed.walk (h : Dressed page d s) :
    d.walk [] = (s.document.walk []).filterMap (RoseTree.Placed.strip Node.own?) :=
  RoseTree.walk_of_splice (by rw [h]; exact splice_render d)

theorem Dressed.mem_walk (h : Dressed page d s) {y : Placed} :
    y ∈ d.walk [] ↔ ∃ x ∈ s.document.walk [], x.strip Node.own? = some y := by
  rw [h.walk, List.mem_filterMap]

theorem Dressed.own_mem_walk (h : Dressed page d s) {x : RoseTree.Placed Node} {el : Element}
    (hx : x ∈ s.document.walk []) (hel : x.el = .own el) : ∃ y ∈ d.walk [], y.el = el :=
  ⟨⟨el, x.ancestors.filterMap Node.own?⟩, h.mem_walk.mpr ⟨x, hx, strip_eq_some.mpr ⟨hel, rfl⟩⟩, rfl⟩

theorem Dressed.own_mem_keys (h : Dressed page d s) {i : ℕ} :
    NodeKey.own i ∈ s.document.keys Node.key ↔ i ∈ d.ids := by
  unfold Dom.ids
  rw [RoseTree.mem_keys, RoseTree.mem_keys]
  constructor
  · rintro ⟨x, hx, hkey⟩
    obtain ⟨el, hel, rfl⟩ := key_eq_own.mp hkey
    obtain ⟨y, hy, rfl⟩ := h.own_mem_walk hx hel
    exact ⟨y, hy, rfl⟩
  · rintro ⟨y, hy, rfl⟩
    obtain ⟨x, hx, hstrip⟩ := h.mem_walk.mp hy
    exact ⟨x, hx, by rw [(strip_eq_some.mp hstrip).1]; rfl⟩

theorem isWrapped_concat (processed : List NodeKey) (el : Element) :
    isWrapped page (processed ++ [k]) el =
      (isWrapped page processed el || (decide (k = .own el.id) && page.asVideo el)) := by
  unfold isWrapped
  by_cases hp : NodeKey.own el.id ∈ processed
  · simp [hp]
  · by_cases hk : k = .own el.id
    · simp [hk]
    · simp [hp, hk, Ne.symm hk]

/-- What happens in `shieldElement` to a node that was not processed. -/
theorem shield_cases (h : Dressed page d s) (hk : k ∉ s.processed) :
    (∃ y ∈ d.walk [], k = .own y.el.id ∧ page.asVideo y.el = true ∧ ∃ parent,
      Shielded.shield page s k =
        { document := wrap y.el.id s.document
          records := s.records ++ Shielded.wrapRecords y.el.id parent
          processed := s.processed ++ [k] }) ∨
    (∀ y ∈ d.walk [], k = .own y.el.id → ∃ x ∈ d.walk [], x.el.id = y.el.id ∧
      page.asVideo x.el = false) ∧
      Shielded.shield page s k = { s with processed := s.processed ++ [k] } := by
  unfold Shielded.shield
  rw [if_neg hk]
  dsimp only
  cases hfind : (s.document.walk []).find? fun x => x.el.key == k with
  | none =>
    refine Or.inr ⟨fun y hy hkey => ?_, rfl⟩
    obtain ⟨x, hx, hstrip⟩ := h.mem_walk.mp hy
    have hne := List.find?_eq_none.mp hfind x hx
    rw [(strip_eq_some.mp hstrip).1, hkey] at hne
    simp [Node.key] at hne
  | some x =>
    have hx := List.mem_of_find?_eq_some hfind
    have hkey : x.el.key = k := by simpa using List.find?_some hfind
    obtain ⟨n, as⟩ := x
    cases n with
    | own el =>
      obtain ⟨y, hy, rfl⟩ := h.own_mem_walk hx rfl
      cases hvideo : page.asVideo y.el with
      | true => exact Or.inl ⟨y, hy, hkey.symm, hvideo, as.head?, by simp [hvideo]⟩
      | false =>
        refine Or.inr ⟨fun z _ hz => ⟨y, hy, ?_, hvideo⟩, by simp [hvideo]⟩
        exact NodeKey.own.inj (hkey.trans hz)
    | wrapper v | badge v | span v second =>
      refine Or.inr ⟨fun y _ hy => ?_, rfl⟩
      rw [← hkey] at hy
      cases hy

theorem Dressed.shield (h : Dressed page d s) (hd : d.Distinct Element.id) (k : NodeKey) :
    Dressed page d (Shielded.shield page s k) := by
  by_cases hk : k ∈ s.processed
  · rw [Shielded.shield, if_pos hk]
    exact h
  obtain ⟨y, hy, rfl, hvideo, parent, heq⟩ | ⟨hother, heq⟩ := shield_cases h hk
  · rw [heq]
    show wrap y.el.id s.document = render (isWrapped page (s.processed ++ [NodeKey.own y.el.id])) d
    have hfresh : ∀ el, el.id = y.el.id → isWrapped page s.processed el = false := by
      intro el hel
      simp [isWrapped, hel, hk]
    rw [h, wrap_render hfresh]
    refine render_congr fun x (hx : x ∈ d.walk []) => ?_
    rw [isWrapped_concat]
    by_cases hid : y.el.id = x.el.id
    · obtain rfl := hd y hy x hx hid
      simp [hvideo]
    · simp [hid, Ne.symm hid]
  · rw [heq]
    show s.document = render (isWrapped page (s.processed ++ [k])) d
    rw [h]
    refine render_congr fun x (hx : x ∈ d.walk []) => ?_
    rw [isWrapped_concat]
    by_cases hid : k = .own x.el.id
    · obtain ⟨z, hz, hzid, hvideo⟩ := hother x hx hid
      obtain rfl := hd z hz x hx hzid
      simp [hvideo]
    · simp [hid]

@[simp] theorem mem_shield {j : NodeKey} :
    j ∈ (Shielded.shield page s k).processed ↔ j ∈ s.processed ∨ j = k := by
  unfold Shielded.shield
  split_ifs with hk
  · exact ⟨Or.inl, fun hj => hj.elim id fun hjk => hjk ▸ hk⟩
  · have hproc (b : Bool) (t u : Shielded) (ht : t.processed = s.processed ++ [k])
        (hu : u.processed = s.processed ++ [k]) : (if b then t else u).processed =
          s.processed ++ [k] := by
      cases b
      · exact hu
      · exact ht
    dsimp only
    split
    · rw [hproc _ _ _ rfl rfl, List.mem_append, List.mem_singleton]
    · rw [List.mem_append, List.mem_singleton]

end Shield

/-! ### The callbacks come to rest -/

section Rest

variable {page : Page} {style : NodeKey → Bytes} {d : Dom} {s t : Shielded}

/-- What every shield of a node of the document keeps, a callback for one node keeps. -/
theorem onNode_keeps {P : Shielded → Prop} (hdressed : ∀ s, P s → Dressed page d s)
    (hstep : ∀ s k, P s → (∀ i, k = .own i → i ∈ d.ids) → P (Shielded.shield page s k))
    (hs : P s) (k : NodeKey) : P (Shielded.onNode page style s k) := by
  have hall (p : RoseTree.Placed Node → Bool) {s : Shielded} (hs : P s) :
      P (Shielded.shieldAll page s p) := by
    refine List.foldlRecOn _ _ hs fun t ht k hk => hstep t k ht fun i hi => ?_
    obtain ⟨x, hx, rfl⟩ := List.mem_map.mp hk
    rw [← (hdressed s hs).own_mem_keys, ← hi]
    exact RoseTree.mem_keys.mpr ⟨x, (List.mem_filter.mp hx).1, rfl⟩
  unfold Shielded.onNode
  dsimp only
  split_ifs
  · exact hs
  · exact hall _ (hall _ hs)
  · exact hall _ (hall _ (hall _ hs))
  · exact hall _ (hall _ hs)
  · exact hall _ (hall _ hs)
  · exact hall _ hs

theorem deliver_keeps {P : Shielded → Prop} (hdressed : ∀ s, P s → Dressed page d s)
    (hstep : ∀ s k, P s → (∀ i, k = .own i → i ∈ d.ids) → P (Shielded.shield page s k))
    (hs : P { s with records := [] }) : P (Shielded.deliver page style s) :=
  List.foldlRecOn _ _ hs fun _ hs k _ => onNode_keeps hdressed hstep hs k

/-- From `s` to `t` nothing was forgotten, and there are new records only if another video
was shielded. -/
structure Progress (page : Page) (d : Dom) (s t : Shielded) : Prop where
  dressed : Dressed page d t
  processed : ∀ k ∈ s.processed, k ∈ t.processed
  records : t.records = s.records ∨ ∃ x ∈ d.walk [], page.asVideo x.el = true ∧
    NodeKey.own x.el.id ∉ s.processed ∧ NodeKey.own x.el.id ∈ t.processed

theorem Progress.shield (h : Progress page d s t) (hd : d.Distinct Element.id) (k : NodeKey) :
    Progress page d s (Shielded.shield page t k) := by
  refine ⟨h.dressed.shield hd k, fun j hj => mem_shield.mpr (Or.inl (h.processed j hj)), ?_⟩
  obtain hrec | ⟨x, hx, hvideo, hnot, hin⟩ := h.records
  · by_cases hk : k ∈ t.processed
    · rw [Shielded.shield, if_pos hk]
      exact Or.inl hrec
    obtain ⟨y, hy, rfl, hvideo, parent, heq⟩ | ⟨-, heq⟩ := shield_cases h.dressed hk
    · exact Or.inr ⟨y, hy, hvideo, fun hin => hk (h.processed _ hin),
        mem_shield.mpr (Or.inr rfl)⟩
    · rw [heq]
      exact Or.inl hrec
  · exact Or.inr ⟨x, hx, hvideo, hnot, mem_shield.mpr (Or.inl hin)⟩

/-- The videos still to be shielded. -/
def pending (page : Page) (d : Dom) (s : Shielded) : List Placed :=
  (d.walk []).filter fun x => page.asVideo x.el && decide (NodeKey.own x.el.id ∉ s.processed)

theorem Dressed.deliver (style : NodeKey → Bytes) (h : Dressed page d s)
    (hd : d.Distinct Element.id) :
    Dressed page d (Shielded.deliver page style s) ∧
      ((Shielded.deliver page style s).records = [] ∨
        (pending page d (Shielded.deliver page style s)).length < (pending page d s).length) := by
  have hprogress : Progress page d { s with records := [] } (Shielded.deliver page style s) :=
    deliver_keeps (fun _ ht => ht.dressed) (fun _ k ht _ => ht.shield hd k)
      ⟨h, fun _ hk => hk, Or.inl rfl⟩
  refine ⟨hprogress.dressed, hprogress.records.imp_right ?_⟩
  rintro ⟨x, hx, hvideo, hnot, hin⟩
  have hsub : pending page d (Shielded.deliver page style s) =
      (pending page d s).filter fun x =>
        decide (NodeKey.own x.el.id ∉ (Shielded.deliver page style s).processed) := by
    unfold pending
    rw [List.filter_filter]
    refine List.filter_congr fun y _ => ?_
    by_cases hy : NodeKey.own y.el.id ∈ s.processed
    · simp [hy, hprogress.processed _ hy]
    · simp [hy, Bool.and_comm]
  rw [hsub, List.length_filter_lt_length_iff_exists]
  exact ⟨x, List.mem_filter.mpr ⟨hx, by simpa [hvideo] using hnot⟩, by simpa using hin⟩

end Rest

/-! ### What is shielded -/

section Read

variable {page : Page} {style : NodeKey → Bytes} {x : RoseTree.Placed Node} {y : Placed}

theorem find?_element {p : Element → Bool}
    (hp : ∀ n : Node, n.own? = none → p (n.element style) = false) (ns : List Node) :
    (ns.map (Node.element style)).find? p = (ns.filterMap Node.own?).find? p := by
  induction ns with
  | nil => rfl
  | cons n ns ih =>
    cases hown : n.own? with
    | none =>
      rw [List.map_cons, List.find?_cons_of_neg (by simp [hp n hown]),
        List.filterMap_cons_none hown, ih]
    | some el =>
      cases n with
      | own el' =>
        obtain rfl := Option.some.inj hown
        rw [List.map_cons, List.filterMap_cons_some hown, List.find?_cons, List.find?_cons, ih]
        rfl
      | _ => cases hown

/-- The nodes that the script made are no match for its own selectors. -/
theorem closest_read (style : NodeKey → Bytes) (hy : x.strip Node.own? = some y)
    {p : Element → Bool}
    (hp : ∀ n : Node, n.own? = none → p (n.element style) = false) :
    closest (Shielded.read style x) p = closest y p := by
  obtain ⟨hel, has⟩ := strip_eq_some.mp hy
  have hfind := find?_element hp (x.el :: x.ancestors)
  rw [List.filterMap_cons_some (b := y.el) (by rw [hel]; rfl), ← has] at hfind
  exact hfind

theorem isMarked_made (n : Node) (hn : n.own? = none) : isMarked (n.element style) = false := by
  cases n with
  | own el => cases hn
  | wrapper v =>
    have hclass : (ascii "degoon-video-wrapper").splitOnP (fun c => c == 32 || c == 9 || c == 10 ||
      c == 12 || c == 13) = [ascii "degoon-video-wrapper"] := by decide +kernel
    simp [isMarked, Node.element, Element.classList, hclass]
    decide
  | badge v =>
    have hclass : (ascii "degoon-shield-badge").splitOnP (fun c => c == 32 || c == 9 || c == 10 ||
      c == 12 || c == 13) = [ascii "degoon-shield-badge"] := by decide +kernel
    simp [isMarked, Node.element, Element.classList, hclass]
    decide
  | span v second =>
    simp [isMarked, Node.element, Element.classList]
    decide

theorem isSuspicious_read (hy : x.strip Node.own? = some y) :
    isSuspicious page (Shielded.read style x) = isSuspicious page y := by
  have hel : (Shielded.read style x).el = y.el := by
    show x.el.element style = y.el
    rw [(strip_eq_some.mp hy).1]
    rfl
  have hmarked := closest_read style hy isMarked_made
  have htweet := closest_read style hy (p := isTweetMedia) fun n hn => by
    cases n with
    | own el => cases hn
    | _ => simp [isTweetMedia, Node.element]
  have harticle := closest_read style hy (p := fun el => el.tag == .article)
    fun n hn => by
      cases n with
      | own el => cases hn
      | _ => simp [Node.element]
  unfold isSuspicious
  rw [hmarked, htweet, harticle, hel]

theorem processNode_read (hy : x.strip Node.own? = some y) :
    processNode page (Shielded.read style x) = processNode page y := by
  have hel : (Shielded.read style x).el = y.el := by
    show x.el.element style = y.el
    rw [(strip_eq_some.mp hy).1]
    rfl
  unfold processNode
  rw [isSuspicious_read hy, hel]

theorem isBelow_own (hy : x.strip Node.own? = some y) {j : ℕ} :
    Shielded.isBelow (.own j) x = true ↔ ∃ a ∈ y.ancestors, a.id = j := by
  unfold Shielded.isBelow
  rw [(strip_eq_some.mp hy).2]
  simp only [List.any_eq_true, beq_iff_eq, key_eq_own, List.mem_filterMap]
  constructor
  · rintro ⟨n, hn, el, rfl, hid⟩
    exact ⟨el, ⟨.own el, hn, rfl⟩, hid⟩
  · rintro ⟨el, ⟨n, hn, hown⟩, hid⟩
    cases n with
    | own el' =>
      obtain rfl := Option.some.inj hown
      exact ⟨_, hn, el', rfl, hid⟩
    | _ => cases hown

end Read

section Members

variable {page : Page} {style : NodeKey → Bytes} {d : Dom} {s t : Shielded}

theorem mem_foldl_shield {ks : List NodeKey} {j : NodeKey} :
    ∀ {s : Shielded}, j ∈ (ks.foldl (Shielded.shield page) s).processed ↔
      j ∈ s.processed ∨ j ∈ ks := by
  induction ks with
  | nil => simp
  | cons k ks ih =>
    intro s
    rw [List.foldl_cons, ih, mem_shield, List.mem_cons, or_assoc]

/-- Of the page's own elements, those that the list holds are shielded. -/
theorem Dressed.mem_shieldAll (h : Dressed page d s) {p : RoseTree.Placed Node → Bool} {i : ℕ} :
    NodeKey.own i ∈ (Shielded.shieldAll page s p).processed ↔ NodeKey.own i ∈ s.processed ∨
      ∃ x y, x ∈ s.document.walk [] ∧ x.strip Node.own? = some y ∧ y ∈ d.walk [] ∧ y.el.id = i ∧
        p x = true := by
  unfold Shielded.shieldAll
  rw [mem_foldl_shield, List.mem_map]
  refine or_congr_right ⟨?_, ?_⟩
  · rintro ⟨x, hx, hkey⟩
    obtain ⟨hwalk, hp⟩ := List.mem_filter.mp hx
    obtain ⟨el, hel, rfl⟩ := key_eq_own.mp hkey
    have hstrip : x.strip Node.own? = some ⟨el, x.ancestors.filterMap Node.own?⟩ :=
      strip_eq_some.mpr ⟨hel, rfl⟩
    exact ⟨x, _, hwalk, hstrip, h.mem_walk.mpr ⟨x, hwalk, hstrip⟩, rfl, hp⟩
  · rintro ⟨x, y, hx, hstrip, -, rfl, hp⟩
    refine ⟨x, List.mem_filter.mpr ⟨hx, hp⟩, ?_⟩
    rw [(strip_eq_some.mp hstrip).1]
    rfl

theorem Dressed.shieldAll (h : Dressed page d s) (hd : d.Distinct Element.id)
    (p : RoseTree.Placed Node → Bool) : Dressed page d (Shielded.shieldAll page s p) :=
  List.foldlRecOn _ _ h fun _ hs k _ => hs.shield hd k

theorem subset_shieldAll {p : RoseTree.Placed Node → Bool} {k : NodeKey} (hk : k ∈ s.processed) :
    k ∈ (Shielded.shieldAll page s p).processed :=
  mem_foldl_shield.mpr (Or.inl hk)

/-- The three lists of a callback for a node. -/
theorem onNode_eq (hpage : General page) (k : NodeKey) :
    Shielded.onNode page style s k =
      let s₁ := Shielded.shieldAll page s fun x =>
        x.el.key == k && processNode page (Shielded.read style x)
      let s₂ := Shielded.shieldAll page s₁ fun x =>
        page.config.blurVideos && (Shielded.isBelow k x && (x.el.element style).tag == .video)
      Shielded.shieldAll page s₂ fun x =>
        page.config.blurImages && (Shielded.isBelow k x && ((x.el.element style).tag == .img &&
          isSuspicious page (Shielded.read style x))) := by
  have hnone (s : Shielded) : Shielded.shieldAll page s (fun _ => false) = s := by
    simp [Shielded.shieldAll]
  unfold Shielded.onNode
  simp only [hpage.enabled, hpage.site, Bool.not_true, Bool.false_eq_true, if_false]
  cases page.config.blurVideos <;> cases page.config.blurImages <;> simp [hnone]

/-- A callback shields targets, and a background only at the added node itself. -/
theorem Dressed.target_of_mem_onNode (h : Dressed page d s) (hd : d.Distinct Element.id)
    (hpage : General page) {k : NodeKey} {i : ℕ}
    (hi : NodeKey.own i ∈ (Shielded.onNode page style s k).processed) :
    NodeKey.own i ∈ s.processed ∨ ∃ y ∈ d.walk [], y.el.id = i ∧
      (SharedTarget page y ∨ k = .own i ∧ BackgroundTarget page y) := by
  rw [onNode_eq hpage] at hi
  have h₁ := h.shieldAll hd fun x => x.el.key == k && processNode page (Shielded.read style x)
  have h₂ := h₁.shieldAll hd fun x =>
    page.config.blurVideos && (Shielded.isBelow k x && (x.el.element style).tag == .video)
  obtain hi | ⟨x, y, -, hstrip, hy, rfl, hp⟩ := h₂.mem_shieldAll.mp hi
  · obtain hi | ⟨x, y, -, hstrip, hy, rfl, hp⟩ := h₁.mem_shieldAll.mp hi
    · obtain hi | ⟨x, y, -, hstrip, hy, rfl, hp⟩ := h.mem_shieldAll.mp hi
      · exact Or.inl hi
      · rw [Bool.and_eq_true, beq_iff_eq, processNode_read hstrip, processNode_iff hpage,
          (strip_eq_some.mp hstrip).1] at hp
        exact Or.inr ⟨y, hy, rfl, hp.2.imp_right fun hback => ⟨hp.1.symm, hback⟩⟩
    · rw [(strip_eq_some.mp hstrip).1] at hp
      simp only [Node.element, Bool.and_eq_true, beq_iff_eq] at hp
      exact Or.inr ⟨y, hy, rfl, Or.inl (Or.inl ⟨hp.1, hp.2.2⟩)⟩
  · rw [(strip_eq_some.mp hstrip).1, isSuspicious_read hstrip] at hp
    simp only [Node.element, Bool.and_eq_true, beq_iff_eq] at hp
    exact Or.inr ⟨y, hy, rfl, Or.inl (Or.inr ⟨hp.1, hp.2.2⟩)⟩

/-- What is owed to an added node of the page is shielded in its callback. -/
theorem Dressed.mem_onNode_of_owed (h : Dressed page d s) (hd : d.Distinct Element.id)
    (hpage : General page) {j : ℕ} {y : Placed} (hy : y ∈ d.walk []) (howed : Owed page j y) :
    NodeKey.own y.el.id ∈ (Shielded.onNode page style s (.own j)).processed := by
  rw [onNode_eq hpage]
  have h₁ := h.shieldAll hd fun x =>
    x.el.key == .own j && processNode page (Shielded.read style x)
  have h₂ := h₁.shieldAll hd fun x => page.config.blurVideos &&
    (Shielded.isBelow (.own j) x && (x.el.element style).tag == .video)
  obtain ⟨hid, htarget⟩ | ⟨hbelow, ⟨hon, htag⟩ | ⟨hon, htag, hsus⟩⟩ := howed
  · obtain ⟨x, hx, hstrip⟩ := h.mem_walk.mp hy
    refine subset_shieldAll (subset_shieldAll (h.mem_shieldAll.mpr (Or.inr
      ⟨x, y, hx, hstrip, hy, rfl, ?_⟩)))
    rw [Bool.and_eq_true, beq_iff_eq, processNode_read hstrip, processNode_iff hpage,
      (strip_eq_some.mp hstrip).1, ← hid]
    exact ⟨rfl, htarget⟩
  · obtain ⟨x, hx, hstrip⟩ := h₁.mem_walk.mp hy
    refine subset_shieldAll (h₁.mem_shieldAll.mpr (Or.inr ⟨x, y, hx, hstrip, hy, rfl, ?_⟩))
    rw [(strip_eq_some.mp hstrip).1]
    simp [hon, (isBelow_own hstrip).mpr hbelow, Node.element, htag]
  · obtain ⟨x, hx, hstrip⟩ := h₂.mem_walk.mp hy
    refine h₂.mem_shieldAll.mpr (Or.inr ⟨x, y, hx, hstrip, hy, rfl, ?_⟩)
    rw [(strip_eq_some.mp hstrip).1, isSuspicious_read hstrip]
    simp [hon, (isBelow_own hstrip).mpr hbelow, Node.element, htag, hsus]

/-- A callback for one node forgets nothing. -/
theorem Dressed.onNode (style : NodeKey → Bytes) (h : Dressed page d s)
    (hd : d.Distinct Element.id) (k : NodeKey) :
    Dressed page d (Shielded.onNode page style s k) ∧
      ∀ j ∈ s.processed, j ∈ (Shielded.onNode page style s k).processed :=
  onNode_keeps (P := fun t => Dressed page d t ∧ ∀ j ∈ s.processed, j ∈ t.processed)
    (fun _ ht => ht.1)
    (fun _ k ht _ => ⟨ht.1.shield hd k, fun j hj => mem_shield.mpr (Or.inl (ht.2 j hj))⟩)
    ⟨h, fun _ hj => hj⟩ k

theorem Dressed.foldl_onNode (style : NodeKey → Bytes) (hd : d.Distinct Element.id)
    (ks : List NodeKey) :
    ∀ {s : Shielded}, Dressed page d s →
      Dressed page d (ks.foldl (Shielded.onNode page style) s) ∧
        ∀ j ∈ s.processed, j ∈ (ks.foldl (Shielded.onNode page style) s).processed := by
  induction ks with
  | nil => exact fun h => ⟨h, fun _ hj => hj⟩
  | cons k ks ih =>
    intro s h
    obtain ⟨hk, hkeep⟩ := h.onNode style hd k
    obtain ⟨hks, hkeeps⟩ := ih hk
    exact ⟨hks, fun j hj => hkeeps j (hkeep j hj)⟩

theorem Dressed.mem_deliver_of_owed (h : Dressed page d s) (hd : d.Distinct Element.id)
    (hpage : General page) {j : ℕ} (hj : NodeKey.own j ∈ s.records) {y : Placed}
    (hy : y ∈ d.walk []) (howed : Owed page j y) :
    NodeKey.own y.el.id ∈ (Shielded.deliver page style s).processed := by
  obtain ⟨before, after, hsplit⟩ := List.append_of_mem hj
  unfold Shielded.deliver
  rw [hsplit, List.foldl_append, List.foldl_cons]
  have hstart : Dressed page d { s with records := [] } := h
  have hbefore := (hstart.foldl_onNode style hd before).1
  exact ((hbefore.onNode style hd _).1.foldl_onNode style hd after).2 _
    (hbefore.mem_onNode_of_owed hd hpage hy howed)

theorem Dressed.target_of_mem_deliver (h : Dressed page d s) (hd : d.Distinct Element.id)
    (hpage : General page) {i : ℕ}
    (hi : NodeKey.own i ∈ (Shielded.deliver page style s).processed) :
    NodeKey.own i ∈ s.processed ∨ ∃ y ∈ d.walk [], y.el.id = i ∧
      (SharedTarget page y ∨ NodeKey.own i ∈ s.records ∧ BackgroundTarget page y) := by
  have hall : ∀ ks : List NodeKey, (∀ k ∈ ks, k ∈ s.records) → ∀ u : Shielded, Dressed page d u →
      NodeKey.own i ∈ (ks.foldl (Shielded.onNode page style) u).processed →
        NodeKey.own i ∈ u.processed ∨ ∃ y ∈ d.walk [], y.el.id = i ∧
          (SharedTarget page y ∨ NodeKey.own i ∈ s.records ∧ BackgroundTarget page y) := by
    intro ks
    induction ks with
    | nil => exact fun _ u _ hi => Or.inl hi
    | cons k ks ih =>
      intro hks u hu hi
      obtain ⟨hk, hks⟩ := List.forall_mem_cons.mp hks
      obtain hi | htarget := ih hks _ (hu.onNode style hd k).1 hi
      · obtain hi | ⟨y, hy, hid, htarget⟩ := hu.target_of_mem_onNode hd hpage hi
        · exact Or.inl hi
        · obtain hshared | ⟨rfl, hback⟩ := htarget
          · exact Or.inr ⟨y, hy, hid, Or.inl hshared⟩
          · exact Or.inr ⟨y, hy, hid, Or.inr ⟨hk, hback⟩⟩
      · exact Or.inr htarget
  exact hall s.records (fun _ hk => hk) { s with records := [] } h hi

end Members

/-! ### Pages that are built -/

/-- The document without wrappers and the one with them. -/
structure Sim (page : Page) (s : Observed) (t : Shielded) : Prop where
  distinct : s.document.Distinct Element.id
  dressed : Dressed page s.document t
  known : ∀ i, NodeKey.own i ∈ t.processed → i ∈ s.document.ids
  added : ∀ i, NodeKey.own i ∈ t.records → i ∈ s.inserted ∨ NodeKey.own i ∈ t.processed
  keeping : General page → ∃ rs ps, Keeping page { s with records := rs, processed := ps } ∧
    (∀ r ∈ rs, NodeKey.own r ∈ t.records) ∧ ∀ i, i ∈ ps ↔ NodeKey.own i ∈ t.processed

section Sim

variable {page : Page} {style : NodeKey → Bytes} {s s' : Observed} {t : Shielded}

theorem Sim.insert (h : Sim page s t) {parent index : ℕ} {subtree : Dom}
    (hstep : Observed.step page s (.insert parent index subtree) = some s') :
    ∃ t', Shielded.step page style t (.insert parent index subtree) = some t' ∧
      Sim page s' t' := by
  rw [Observed.step] at hstep
  split_ifs at hstep with hok
  obtain rfl := Option.some.inj hstep
  obtain ⟨hparent, hnodup, hfresh⟩ := hok
  have hguard : NodeKey.own parent ∈ t.document.keys Node.key ∧ subtree.ids.Nodup ∧
      ∀ i ∈ subtree.ids, NodeKey.own i ∉ t.document.keys Node.key := by
    refine ⟨h.dressed.own_mem_keys.mpr hparent, hnodup, fun i hi => ?_⟩
    rw [h.dressed.own_mem_keys]
    exact hfresh i hi
  refine ⟨_, if_pos hguard, RoseTree.distinct_insertAt h.distinct hnodup hfresh, ?_, fun i hi => ?_,
    fun i hi => ?_, fun hpage => ?_⟩
  · show RoseTree.insertAt _ _ _ _ t.document = render (isWrapped page t.processed) _
    rw [h.dressed]
    refine insertAt_render (fun x hx => ?_) _
    have hnot : NodeKey.own x.el.id ∉ t.processed := fun hin =>
      hfresh _ (RoseTree.key_mem_keys hx) (h.known _ hin)
    simp [isWrapped, hnot]
  · exact RoseTree.keys_subset_insertAt (h.known i hi)
  · obtain hi | hi := List.mem_append.mp hi
    · exact (h.added i hi).imp_left (List.mem_append_left _)
    · exact Or.inl (List.mem_append_right _ (List.mem_singleton.mpr
        (NodeKey.own.inj (List.mem_singleton.mp hi))))
  · obtain ⟨rs, ps, hkeep, hrs, hps⟩ := h.keeping hpage
    refine ⟨rs ++ [subtree.label.id], ps, hkeep.insert hparent hnodup hfresh, fun r hr => ?_, hps⟩
    obtain hr | hr := List.mem_append.mp hr
    · exact List.mem_append_left _ (hrs r hr)
    · rw [List.mem_singleton.mp hr]
      exact List.mem_append_right _ (List.mem_singleton_self _)

/-- A wrapping is recorded for a video that is processed. -/
theorem shield_added {page : Page} {d : Dom} {t : Shielded} (h : Dressed page d t)
    (hadd : ∀ i, NodeKey.own i ∈ t.records → NodeKey.own i ∈ t.processed) (k : NodeKey) (i : ℕ)
    (hi : NodeKey.own i ∈ (Shielded.shield page t k).records) :
    NodeKey.own i ∈ (Shielded.shield page t k).processed := by
  by_cases hk : k ∈ t.processed
  · rw [Shielded.shield, if_pos hk] at hi ⊢
    exact hadd i hi
  rw [mem_shield]
  obtain ⟨y, -, rfl, -, parent, heq⟩ | ⟨-, heq⟩ := shield_cases h hk
  · rw [heq] at hi
    obtain hi | hi := List.mem_append.mp hi
    · exact Or.inl (hadd i hi)
    · unfold Shielded.wrapRecords at hi
      split_ifs at hi
      · exact Or.inr (by simpa using hi)
      · exact absurd hi List.not_mem_nil
  · rw [heq] at hi
    exact Or.inl (hadd i hi)

theorem Sim.deliver (style : NodeKey → Bytes) (h : Sim page s t) :
    Sim page s (Shielded.deliver page style t) := by
  have hkept : (Dressed page s.document (Shielded.deliver page style t) ∧
      ∀ i, NodeKey.own i ∈ (Shielded.deliver page style t).processed → i ∈ s.document.ids) ∧
        ∀ i, NodeKey.own i ∈ (Shielded.deliver page style t).records →
          NodeKey.own i ∈ (Shielded.deliver page style t).processed := by
    refine deliver_keeps (P := fun u => (Dressed page s.document u ∧
      ∀ i, NodeKey.own i ∈ u.processed → i ∈ s.document.ids) ∧
        ∀ i, NodeKey.own i ∈ u.records → NodeKey.own i ∈ u.processed) (fun _ hu => hu.1.1)
      (fun u k hu hk => ⟨⟨hu.1.1.shield h.distinct k, fun i hi => ?_⟩,
        shield_added hu.1.1 hu.2 k⟩) ⟨⟨h.dressed, h.known⟩, fun i hi => absurd hi List.not_mem_nil⟩
    obtain hi | hi := mem_shield.mp hi
    · exact hu.1.2 i hi
    · exact hk i hi.symm
  obtain ⟨⟨hdressed, hknown⟩, hadded⟩ := hkept
  refine ⟨h.distinct, hdressed, hknown, fun i hi => Or.inr (hadded i hi), fun hpage => ?_⟩
  obtain ⟨rs, ps, hkeep, hrs, hps⟩ := h.keeping hpage
  have hstart : Dressed page s.document { t with records := [] } := h.dressed
  have hmono := (hstart.foldl_onNode style h.distinct t.records).2
  refine ⟨[], s.document.ids.filter fun i =>
    decide (NodeKey.own i ∈ (Shielded.deliver page style t).processed),
    ⟨h.distinct, fun r hr => absurd hr List.not_mem_nil, hkeep.inserted,
      fun i hi => (List.mem_filter.mp hi).1, fun y hy hi => ?_, fun y hy hdue => ?_⟩,
    fun r hr => absurd hr List.not_mem_nil, fun i => ?_⟩
  · have hi : NodeKey.own y.el.id ∈ (Shielded.deliver page style t).processed := by
      simpa using (List.mem_filter.mp hi).2
    obtain hi | ⟨z, hz, hid, htarget⟩ := h.dressed.target_of_mem_deliver h.distinct hpage hi
    · exact hkeep.sound y hy ((hps _).mpr hi)
    · obtain rfl := h.distinct z hz y hy hid
      obtain hshared | ⟨hrec, hback⟩ := htarget
      · exact Or.inl hshared
      · obtain hin | hin := h.added _ hrec
        · exact Or.inr ⟨hin, hback⟩
        · exact hkeep.sound z hz ((hps _).mpr hin)
  · have hin : NodeKey.own y.el.id ∈ (Shielded.deliver page style t).processed := by
      obtain hi | ⟨r, hr, howed⟩ := hkeep.complete y hy hdue
      · exact hmono _ ((hps _).mp hi)
      · exact h.dressed.mem_deliver_of_owed h.distinct hpage (hrs r hr) hy howed
    exact Or.inl (List.mem_filter.mpr ⟨RoseTree.key_mem_keys hy, by simpa using hin⟩)
  · rw [List.mem_filter, decide_eq_true_eq]
    exact ⟨fun hi => hi.2, fun hi => ⟨hknown i hi, hi⟩⟩

theorem Sim.step {e : PageEvent} (h : Sim page s t) (hstep : Observed.step page s e = some s') :
    ∃ t', Shielded.step page style t e = some t' ∧ Sim page s' t' := by
  cases e with
  | insert parent index subtree => exact h.insert hstep
  | deliver =>
    obtain rfl := Option.some.inj hstep
    obtain ⟨hdistinct, hdressed, hknown, hadded, hkeeping⟩ := h.deliver style
    exact ⟨_, rfl, hdistinct, hdressed, hknown, hadded, hkeeping⟩

theorem Sim.exec (style : NodeKey → Bytes) {es : List PageEvent} :
    ∀ {s s' : Observed} {t : Shielded}, Sim page s t →
      Runs.exec (Observed.step page) s es = some s' →
        ∃ t', Runs.exec (Shielded.step page style) t es = some t' ∧ Sim page s' t' := by
  induction es with
  | nil =>
    intro s s' t h hrun
    obtain rfl := Option.some.inj hrun
    exact ⟨t, rfl, h⟩
  | cons e es ih =>
    intro s s' t h hrun
    obtain ⟨u, hu, hrest⟩ := Runs.exec_cons.mp hrun
    obtain ⟨t₁, ht₁, hsim⟩ := h.step hu
    obtain ⟨t', ht', hsim'⟩ := ih hsim hrest
    exact ⟨t', Runs.exec_cons.mpr ⟨t₁, ht₁, ht'⟩, hsim'⟩

/-- A page at rest has the shields of the page without wrappers. -/
theorem Sim.mem_processed_iff (h : Sim page s t) (hpage : General page) (hkeep : Keeping page s)
    (hrest : t.records = []) (i : ℕ) :
    NodeKey.own i ∈ t.processed ↔
      i ∈ (s.records.flatMap (onAdded page s.document)).foldl shieldElement s.processed := by
  obtain ⟨rs, ps, hkeep', hrs, hps⟩ := h.keeping hpage
  have hrs' : rs = [] := List.eq_nil_iff_forall_not_mem.mpr fun r hr =>
    absurd (hrest ▸ hrs r hr) List.not_mem_nil
  have hplain := hkeep.deliver hpage
  rw [← hps]
  by_cases hi : i ∈ s.document.ids
  · obtain ⟨y, hy, rfl⟩ := RoseTree.mem_keys.mp hi
    exact (Browser.mem_processed_iff hkeep' hrs' hy).trans
      (Browser.mem_processed_iff hplain rfl hy).symm
  · exact iff_of_false (fun hp => hi (hkeep'.processed i hp)) fun hp => hi (hplain.processed i hp)

end Sim

end Degoonification.Browser
