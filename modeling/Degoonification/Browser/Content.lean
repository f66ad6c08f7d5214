import Degoonification.Ipc.Status
import Degoonification.Library.RoseTree
import Degoonification.Library.Runs
import Mathlib.Data.List.Infix

/-! The content script: which elements of a page it shields, once by `scanDOM` over the
whole document, once by the callback of its `MutationObserver` over what is added. An
element is an object with an identity; a document is the tree of its elements.
`toLowerCase` is a parameter. What a shield looks like is left out: the class that
`shieldElement` adds and the wrapper it puts around a video hold no trigger. -/

namespace Degoonification.Browser

open Ipc (ascii)

/-! ### Elements and documents -/

inductive Tag where
  | html | video | img | canvas | article | shredderMediaItem
  | other (name : Bytes)
  deriving DecidableEq

/-- The properties the script reads, empty texts where the element has none. -/
structure Element where
  id : ℕ
  tag : Tag
  src : Bytes := []
  currentSrc : Bytes := []
  dataSrc : Bytes := []
  alt : Bytes := []
  title : Bytes := []
  className : Bytes := []
  dataNsfw : Option Bytes := none
  dataTestid : Option Bytes := none
  innerText : Bytes := []
  /-- `getComputedStyle(node).backgroundImage`. -/
  backgroundImage : Bytes := ascii "none"
  deriving DecidableEq

/-- The tokens of `class`, between ASCII whitespace. -/
def Element.classList (el : Element) : List Bytes :=
  el.className.splitOnP fun c => c == 32 || c == 9 || c == 10 || c == 12 || c == 13

abbrev Dom := RoseTree Element

/-- An element where it stands. -/
abbrev Placed := RoseTree.Placed Element

def Dom.ids (d : Dom) : List ℕ := d.keys Element.id

/-! ### What is suspicious -/

structure ContentConfig where
  enabled : Bool := true
  blurVideos : Bool := true
  blurImages : Bool := true
  strictMode : Bool := false

/-- What is fixed while a page is open. -/
structure Page where
  config : ContentConfig := {}
  onAdultSite : Bool := false
  toLowerCase : Bytes → Bytes := lower

def adultKeywords : List Bytes :=
  [ascii "porn", ascii "xxx", ascii "nsfw", ascii "adult", ascii "erotic", ascii "naked",
    ascii "nude", ascii "sex", ascii "bikini", ascii "swimwear", ascii "swimsuit",
    ascii "lingerie", ascii "underwear", ascii "thong", ascii "boobs", ascii "butt", ascii "ass",
    ascii "hentai", ascii "uncensored", ascii "camgirl"]

namespace Page

def containsTrigger (page : Page) (text : Bytes) : Bool :=
  if text = [] then false
  else adultKeywords.any fun kw => decide (kw <:+: page.toLowerCase text)

end Page

/-- `closest` for one simple selector. -/
def closest (x : Placed) (selector : Element → Bool) : Option Element :=
  (x.el :: x.ancestors).find? selector

/-- `[data-nsfw="true"]`, `.nsfw` or `shredder-media-item`. -/
def isMarked (el : Element) : Bool :=
  el.dataNsfw == some (ascii "true") || el.classList.contains (ascii "nsfw") ||
    el.tag == .shredderMediaItem

/-- `[data-testid="tweetPhoto"], [data-testid="videoComponent"]`. -/
def isTweetMedia (el : Element) : Bool :=
  el.dataTestid == some (ascii "tweetPhoto") || el.dataTestid == some (ascii "videoComponent")

/-- `a || b` on texts. -/
def orElse (a b : Bytes) : Bytes := if a = [] then b else a

def isSuspicious (page : Page) (x : Placed) : Bool :=
  if page.onAdultSite || page.config.strictMode then true
  else if (closest x isMarked).isSome then true
  else if (closest x isTweetMedia).isSome &&
      (closest x fun el => el.tag == .article).any fun tweet =>
        page.containsTrigger tweet.innerText then true
  else
    page.containsTrigger (orElse x.el.src (orElse x.el.currentSrc x.el.dataSrc)) ||
      page.containsTrigger x.el.alt || page.containsTrigger x.el.title ||
      page.containsTrigger x.el.className

/-! ### Shielding -/

/-- `shieldElement` on `processedElements`. -/
def shieldElement (processed : List ℕ) (x : Placed) : List ℕ :=
  if x.el.id ∈ processed then processed else processed ++ [x.el.id]

/-- `bg && bg !== 'none'`. -/
def hasBackground (el : Element) : Bool :=
  el.backgroundImage != [] && el.backgroundImage != ascii "none"

/-- Whether `processNode` shields the node. -/
def processNode (page : Page) (x : Placed) : Bool :=
  if !page.config.enabled then false
  else if page.onAdultSite then x.el.tag == .video || x.el.tag == .img || x.el.tag == .canvas
  else if page.config.blurVideos && x.el.tag == .video then true
  else if page.config.blurImages && x.el.tag == .img then isSuspicious page x
  else hasBackground x.el && isSuspicious page x

/-- The elements `scanDOM` shields, in the order of its calls. -/
def scanDOM (page : Page) (document : Dom) : List Placed :=
  let all := document.walk []
  if !page.config.enabled then []
  else if page.onAdultSite then
    all.filter fun x => x.el.tag == .img || x.el.tag == .video || x.el.tag == .canvas
  else
    (if page.config.blurVideos then all.filter fun x => x.el.tag == .video else []) ++
      (if page.config.blurImages then
        all.filter fun x => x.el.tag == .img && isSuspicious page x else []) ++
      all.filter fun x => x.el.tag == .img && x.ancestors.any isMarked

/-- The elements the callback of the observer shields for one added node. -/
def onAdded (page : Page) (document : Dom) (node : ℕ) : List Placed :=
  let all := document.walk []
  let below := all.filter fun x => x.ancestors.any fun a => a.id == node
  if !page.config.enabled then []
  else
    (all.filter fun x => x.el.id == node && processNode page x) ++
      if page.onAdultSite then
        below.filter fun x => x.el.tag == .img || x.el.tag == .video || x.el.tag == .canvas
      else
        (if page.config.blurVideos then below.filter fun x => x.el.tag == .video else []) ++
          if page.config.blurImages then
            below.filter fun x => x.el.tag == .img && isSuspicious page x else []

/-! ### A page that is built -/

/-- The document, the added nodes not yet delivered to the callback, the processed
elements, and the roots of all subtrees inserted so far. -/
structure Observed where
  document : Dom
  records : List ℕ := []
  processed : List ℕ := []
  inserted : List ℕ := []

inductive PageEvent where
  /-- A subtree of new elements is inserted below an element of the document. -/
  | insert (parent index : ℕ) (subtree : Dom)
  /-- The callback gets all records so far. -/
  | deliver

namespace Observed

def step (page : Page) (s : Observed) : PageEvent → Option Observed
  | .insert parent index subtree =>
    if parent ∈ s.document.ids ∧ subtree.ids.Nodup ∧ ∀ i ∈ subtree.ids, i ∉ s.document.ids then
      some { s with
        document := RoseTree.insertAt Element.id parent index subtree s.document
        records := s.records ++ [subtree.label.id]
        inserted := s.inserted ++ [subtree.label.id] }
    else none
  | .deliver =>
    some { s with
      records := []
      processed := (s.records.flatMap (onAdded page s.document)).foldl shieldElement s.processed }

/-- A page with nothing but its `html` element. -/
def start (root : Element) : Observed := { document := .node { root with tag := .html } [] }

end Observed

end Degoonification.Browser
