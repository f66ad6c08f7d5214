import Degoonification.Boxes.Rendering
import Degoonification.Domains.BloomRuns
import Degoonification.Domains.RadixRules
import Degoonification.Library.Handles

/-! The C interface of the engine, as a client with handles of its own calls it. Strings end
at their first NUL, arrays come with a length, and a null handle is answered without an
object. Files are what opening them yields, `none` where that fails. Whatever else the
client does, a tree, a filter or a tracker answers from what its own handle was given. -/

namespace Degoonification.Engine

open Handles (Objects own)

/-- `dg_tracker_t`, `dg_bloom_t` and `dg_radix_t`. -/
inductive Object where
  | tracker (t : TemporalSmoothingTracker)
  | bloom (f : BloomFilter)
  | radix (t : DomainRadixTree)

/-- The `create` functions; `m` and `k` are the rounded formulas of the filter. -/
inductive Creation where
  | tracker (persistenceWindowMs : ℕ) (paddingRatio mergeIouThreshold : ℚ)
  | bloom (m k : UInt64)
  | radix

def create : Creation → Object
  | .tracker window padding threshold => .tracker (.dgTrackerCreate window padding threshold)
  | .bloom m k => .bloom (.sized m k)
  | .radix => .radix .empty

/-- The other functions, by what they are given besides the handle; `none` is a null
pointer. `magic` is what the array of that name holds before a file is read. -/
inductive Call where
  | trackerProcess (inBoxes : Option (List BoundingBox)) (inCount : ℤ) (timestampMs : ℕ)
    (outBoxes : Bool) (maxOutCount : Int32)
  | trackerReset
  | trackerActiveCount
  | bloomAdd (key : Option Bytes)
  | bloomContains (key : Option Bytes)
  | bloomSave (filepath : Option Bool)
  | bloomLoad (magic : Fin 4 → UInt8) (filepath : Option (Option Bytes))
  | radixInsert (domain : Option Bytes)
  | radixMatches (domain : Option Bytes)
  | radixLoadFile (filepath : Option (Option Bytes))
  | radixSize

/-- What a function returns, and what it writes for the client. -/
inductive Answer where
  | nothing
  | flag (b : Bool)
  | count (n : ℕ)
  | boxes (written : List BoundingBox) (count : ℤ)
  | saved (file : Option Bytes)

/-- The characters of a C string. -/
def cString (memory : Bytes) : Bytes := memory.takeWhile (· != 0)

/-- The loop over `in_boxes`; none if it leaves the array. -/
def inputs (inBoxes : Option (List BoundingBox)) (inCount : ℤ) : Option (List BoundingBox) :=
  match inBoxes with
  | none => some []
  | some boxes =>
    if inCount ≤ 0 then some []
    else if inCount.toNat ≤ boxes.length then some (boxes.take inCount.toNat)
    else none

/-- `dg_tracker_process` on a tracker. -/
def process (t : TemporalSmoothingTracker) (inBoxes : Option (List BoundingBox)) (inCount : ℤ)
    (timestampMs : ℕ) (outBoxes : Bool) (maxOutCount : Int32) :
    Option (TemporalSmoothingTracker × Answer) :=
  if outBoxes = false ∨ maxOutCount ≤ 0 then some (t, .boxes [] 0)
  else (inputs inBoxes inCount).map fun boxes =>
    let (tracker, written) := t.dgTrackerProcess ⟨boxes, timestampMs, outBoxes, maxOutCount⟩
    let results := (t.processFrame boxes timestampMs).2
    (tracker, .boxes written (min (Int32.ofNat results.length).toInt maxOutCount.toInt))

/-- A function on an object of its type. There is no call with a handle of another type,
no answer when an array is left, and none when an exception leaves the function. -/
def act : Object → Call → Option (Object × Answer)
  | .tracker t, .trackerProcess inBoxes inCount timestampMs outBoxes maxOutCount =>
    (process t inBoxes inCount timestampMs outBoxes maxOutCount).map fun r => (.tracker r.1, r.2)
  | .tracker t, .trackerReset => some (.tracker t.reset, .nothing)
  | .tracker t, .trackerActiveCount => some (.tracker t, .count t.activeCount)
  | .bloom f, .bloomAdd (some key) => some (.bloom (f.add (cString key)), .nothing)
  | .bloom f, .bloomAdd none => some (.bloom f, .nothing)
  | .bloom f, .bloomContains (some key) => some (.bloom f, .flag (f.contains (cString key)))
  | .bloom f, .bloomContains none => some (.bloom f, .flag false)
  | .bloom f, .bloomSave (some true) => some (.bloom f, .saved (some f.saveToFile))
  | .bloom f, .bloomSave _ => some (.bloom f, .saved none)
  | .bloom f, .bloomLoad magic (some (some file)) =>
    (BloomFilter.loadFromFile magic f file).map fun r => (.bloom r.2, .flag r.1)
  | .bloom f, .bloomLoad _ _ => some (.bloom f, .flag false)
  | .radix t, .radixInsert (some domain) => some (.radix (t.insert (cString domain)), .nothing)
  | .radix t, .radixInsert none => some (.radix t, .nothing)
  | .radix t, .radixMatches (some domain) =>
    some (.radix t, .flag (t.matchesDomain (cString domain)))
  | .radix t, .radixMatches none => some (.radix t, .flag false)
  | .radix t, .radixLoadFile (some file) =>
    some (.radix (t.loadFromFile file).1, .count (t.loadFromFile file).2)
  | .radix t, .radixLoadFile none => some (.radix t, .count 0)
  | .radix t, .radixSize => some (.radix t, .count t.size)
  | _, _ => none

/-- The answers for a null handle. -/
def null : Call → Answer
  | .trackerProcess .. => .boxes [] 0
  | .trackerReset | .bloomAdd _ | .radixInsert _ => .nothing
  | .trackerActiveCount | .radixLoadFile _ | .radixSize => .count 0
  | .bloomContains _ | .bloomLoad .. | .radixMatches _ => .flag false
  | .bloomSave _ => .saved none

abbrev Event := Handles.Event Creation Call

/-- The strings passed to the tree of a handle since it was created. -/
def stringsStep (v : ℕ) (acc : List Bytes) : Event → List Bytes
  | .create w _ => if w = v then [] else acc
  | .call w (.radixInsert (some domain)) => if w = v then acc ++ [cString domain] else acc
  | .call w (.radixLoadFile (some file)) =>
    if w = v then acc ++ DomainRadixTree.fileDomains file else acc
  | _ => acc

def strings (v : ℕ) (es : List Event) : List Bytes := es.foldl (stringsStep v) []

/-- The keys added to the filter of a handle since it was created, if no file was read
into it. The constructor's arithmetic is in range. -/
def keysStep (v : ℕ) (acc : Option (List Bytes)) : Event → Option (List Bytes)
  | .create w (.bloom m _) =>
    if w = v then (if m.toNat + 63 < 2 ^ 64 then some [] else none) else acc
  | .create w _ => if w = v then none else acc
  | .call w (.bloomAdd (some key)) => if w = v then acc.map (cString key :: ·) else acc
  | .call w (.bloomLoad _ (some (some _))) => if w = v then none else acc
  | _ => acc

def keys (v : ℕ) (es : List Event) : Option (List Bytes) := es.foldl (keysStep v) none

/-- The frames given to the tracker of a handle since it was created or reset. -/
def framesStep (v : ℕ) (acc : List TemporalSmoothingTracker.Call) :
    Event → List TemporalSmoothingTracker.Call
  | .create w _ => if w = v then [] else acc
  | .call w (.trackerProcess inBoxes inCount timestampMs outBoxes maxOutCount) =>
    if w = v then
      let a := ⟨(inputs inBoxes inCount).getD [], timestampMs, outBoxes, maxOutCount⟩
      acc ++ (TemporalSmoothingTracker.ApiCall.frame a).toList
    else acc
  | .call w .trackerReset => if w = v then [] else acc
  | _ => acc

def frames (v : ℕ) (es : List Event) : List TemporalSmoothingTracker.Call :=
  es.foldl (framesStep v) []

@[simp] theorem strings_concat (v : ℕ) (es : List Event) (e : Event) :
    strings v (es ++ [e]) = stringsStep v (strings v es) e := by
  simp [strings]

@[simp] theorem keys_concat (v : ℕ) (es : List Event) (e : Event) :
    keys v (es ++ [e]) = keysStep v (keys v es) e := by
  simp [keys]

@[simp] theorem frames_concat (v : ℕ) (es : List Event) (e : Event) :
    frames v (es ++ [e]) = framesStep v (frames v es) e := by
  simp [frames]

open DomainRadixTree (Represents ruleWords)

/-- An object is what its handle was given. -/
def Fits (v : ℕ) (es : List Event) : Object → Prop
  | .tracker t =>
    0 ≤ t.config.paddingRatio ∧
      t = TemporalSmoothingTracker.runFrames { config := t.config } (frames v es)
  | .bloom f => ∀ ks, keys v es = some ks → f.Shaped ∧ ∀ key ∈ ks, f.Marked key
  | .radix t => Represents t (ruleWords (strings v es))

/-- What is done with other handles leaves an object what it is. -/
theorem Fits.other {v : ℕ} {es : List Event} {o : Object} (ho : Fits v es o) {e : Event}
    (he : e.handle ≠ v) : Fits v (es ++ [e]) o := by
  have hstrings : stringsStep v (strings v es) e = strings v es := by
    fun_cases stringsStep v (strings v es) e <;> first | rfl | exact absurd rfl he
  have hkeys : keysStep v (keys v es) e = keys v es := by
    fun_cases keysStep v (keys v es) e <;> first | rfl | exact absurd rfl he
  have hframes : framesStep v (frames v es) e = frames v es := by
    fun_cases framesStep v (frames v es) e <;> first | rfl | exact absurd rfl he
  cases o <;> simpa only [Fits, strings_concat, keys_concat, frames_concat, hstrings, hkeys,
    hframes] using ho

open TemporalSmoothingTracker (correlate ingest render runFrames Chronological)

end Degoonification.Engine
