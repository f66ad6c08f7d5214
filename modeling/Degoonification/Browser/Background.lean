import Degoonification.Browser.Domains
import Degoonification.Library.Runs

/-! The background page of the extension between `storage.local`, the popup and the
network. Storage is a key-value map: a `set` is applied after it was called, in the
order of the calls, a `get` is answered at some point after it was called, and both
the answer and the `onChanged` events reach the page later still. A restart gives a
page with its initial variables and a new `get`; events not yet delivered to the
old page are gone. -/

namespace Degoonification.Browser

open Ipc (ascii)

/-- The settings of the background page. -/
inductive Key where
  | enabled | blockAdultSites | enforceSafeSearch
  deriving DecidableEq

/-- `config`, with its initial values. -/
abbrev Config := Key → Bool

def Config.initial : Config := fun _ => true

structure Stats where
  totalBlockedMedia : ℕ := 0
  totalBlockedSites : ℕ := 0
  sessionsProtected : ℕ := 1
  deriving DecidableEq

/-- What one `set` stores, and one `onChanged` event reports. -/
inductive Item where
  | setting (key : Key) (value : Bool)
  | stats (stats : Stats)

/-- `storage.local`: the two keys of the background page's `get`, and the settings. -/
structure Storage where
  config : Option Config := none
  stats : Option Stats := none
  setting : Key → Option Bool := fun _ => none

def Storage.set (st : Storage) : Item → Storage
  | .setting key value => { st with setting := Function.update st.setting key (some value) }
  | .stats stats => { st with stats := some stats }

/-- The `set` would change nothing. -/
def Storage.holds (st : Storage) : Item → Bool
  | .setting key value => st.setting key == some value
  | .stats stats => st.stats == some stats

/-- The start's `storage.local.get({ config, stats })`: called, answered, handled. -/
inductive Get where
  | called
  | answered (config : Config) (stats : Stats)
  | handled

structure Extension where
  storage : Storage
  /-- The `set` calls not yet applied, and the changes not yet delivered. -/
  writes : List Item := []
  changes : List Item := []
  config : Config := .initial
  stats : Stats := {}
  get : Get := .called
  /-- What the popup last asked to store. -/
  lastSet : Key → Option Bool

/-- The extension as it starts on a storage. -/
def started (storage : Storage) : Extension := { storage, lastSet := storage.setting }

/-! ### The listeners -/

structure Url where
  hostname : Bytes
  pathname : Bytes
  searchParams : List (Bytes × Bytes)

/-- A request: its URL as text and as `new URL` parses it, `none` where that throws. -/
structure Details where
  url : Bytes
  parsed : Option Url
  mainFrame : Bool

/-- `{}`, the redirect to the page for a blocked URL, or the redirect to the same URL
with one search parameter set. -/
inductive Response where
  | proceed
  | blockedPage (url : Bytes)
  | safeSearch (param value : Bytes)

def includes (s part : Bytes) : Bool := decide (part <:+: s)

def nsfwSubs : List Bytes :=
  [ascii "/r/nsfw", ascii "/r/gonewild", ascii "/r/porn", ascii "/r/hentai", ascii "/r/realgirls",
    ascii "/r/rule34", ascii "/r/ecchi", ascii "/r/boobs", ascii "/r/ass", ascii "/r/milf",
    ascii "/r/camgirls", ascii "/r/fetish", ascii "/r/onlyfans", ascii "/r/leaks"]

def isRedditNsfwPath (pathname : Bytes) : Bool :=
  if pathname = [] then false else nsfwSubs.any fun sub => sub.isPrefixOf (lower pathname)

/-- `isBlockedDomain || isRedditNsfw`. -/
def isAdultUrl (domains : List Bytes) (url : Url) : Bool :=
  isDomainBlocked domains blockedTlds blockedPatterns url.hostname ||
    (includes url.hostname (ascii "reddit.com") && isRedditNsfwPath url.pathname)

/-- The search engines in order: a part of the host, a part of the path, the parameter
and its value. -/
def enforceSafeSearch (url : Url) : Response :=
  if includes url.hostname (ascii "google.") && includes url.pathname (ascii "/search") &&
      url.searchParams.lookup (ascii "safe") != some (ascii "active") then
    .safeSearch (ascii "safe") (ascii "active")
  else if includes url.hostname (ascii "duckduckgo.com") &&
      url.searchParams.lookup (ascii "kp") != some (ascii "1") then
    .safeSearch (ascii "kp") (ascii "1")
  else if includes url.hostname (ascii "bing.com") && includes url.pathname (ascii "/search") &&
      url.searchParams.lookup (ascii "adlt") != some (ascii "strict") then
    .safeSearch (ascii "adlt") (ascii "strict")
  else .proceed

/-- `stats` after an increment, which is also handed to `storage.local.set`. -/
def Extension.saveStats (s : Extension) (stats : Stats) : Extension :=
  { s with stats, writes := s.writes ++ [.stats stats] }

def onBeforeRequest (domains : List Bytes) (s : Extension) (details : Details) :
    Extension × Response :=
  match s.config .enabled, details.parsed with
  | false, _ => (s, .proceed)
  | true, none => (s, .proceed)
  | true, some url =>
    if s.config .blockAdultSites && isAdultUrl domains url then
      (s.saveStats { s.stats with totalBlockedSites := s.stats.totalBlockedSites + 1 },
        .blockedPage details.url)
    else if s.config .enforceSafeSearch && details.mainFrame then (s, enforceSafeSearch url)
    else (s, .proceed)

/-- The listener takes the blocking branch. -/
def blocks (domains : List Bytes) (s : Extension) (details : Details) : Bool :=
  s.config .enabled && s.config .blockAdultSites && details.parsed.any (isAdultUrl domains)

theorem onBeforeRequest_fst (domains : List Bytes) (s : Extension) (details : Details) :
    (onBeforeRequest domains s details).1 =
      if blocks domains s details then
        s.saveStats { s.stats with totalBlockedSites := s.stats.totalBlockedSites + 1 }
      else s := by
  rw [onBeforeRequest, blocks]
  cases s.config .enabled with
  | false => rfl
  | true =>
    cases details.parsed with
    | none => simp
    | some url =>
      rw [Bool.true_and, Option.any_some]
      dsimp only
      split_ifs <;> rfl

inductive Message where
  | blockedMedia | getStats

def onMessage (s : Extension) : Message → Extension × Option Stats
  | .blockedMedia =>
    (s.saveStats { s.stats with totalBlockedMedia := s.stats.totalBlockedMedia + 1 }, none)
  | .getStats => (s, some s.stats)

/-- The listener of `onChanged`. -/
def onChanged (config : Config) : Item → Config
  | .setting key value => Function.update config key value
  | .stats _ => config

/-! ### The steps -/

/-- The toggles of the popup that the background page reads. -/
inductive Toggle where
  | masterToggle | blockSitesToggle
  deriving DecidableEq

def Toggle.key : Toggle → Key
  | masterToggle => .enabled
  | blockSitesToggle => .blockAdultSites

/-- `apply` is the next `set` taking effect; it reports no change only if there is
none. `answer` is the moment the `get` reads the storage. -/
inductive Event where
  | restart
  | toggle (toggle : Toggle) (value : Bool)
  | apply (reports : Bool)
  | answer | callback | change
  | request (details : Details)
  | message (message : Message)

variable (domains : List Bytes)

def step (s : Extension) : Event → Option Extension
  | .restart =>
    some { s with changes := [], config := .initial, stats := {}, get := .called }
  | .toggle toggle value =>
    some { s with
      writes := s.writes ++ [.setting toggle.key value]
      lastSet := Function.update s.lastSet toggle.key (some value) }
  | .apply reports =>
    match s.writes with
    | [] => none
    | item :: writes =>
      if reports || s.storage.holds item then
        some { s with
          storage := s.storage.set item
          writes
          changes := if reports then s.changes ++ [item] else s.changes }
      else none
  | .answer =>
    match s.get with
    | .called =>
      some { s with
        get := .answered (s.storage.config.getD .initial) (s.storage.stats.getD {}) }
    | _ => none
  | .callback =>
    match s.get with
    | .answered config stats => some { s with config, stats, get := .handled }
    | _ => none
  | .change =>
    match s.changes with
    | [] => none
    | item :: changes => some { s with config := onChanged s.config item, changes }
  | .request details => some (onBeforeRequest domains s details).1
  | .message message => some (onMessage s message).1

variable {domains} {s s' : Extension}

theorem step_apply {reports : Bool} (h : step domains s (.apply reports) = some s') :
    ∃ item writes, s.writes = item :: writes ∧ (reports || s.storage.holds item) = true ∧
      s' = { s with
        storage := s.storage.set item
        writes
        changes := if reports then s.changes ++ [item] else s.changes } := by
  simp only [step] at h
  split at h
  · cases h
  · rename_i item writes hwrites
    by_cases happly : (reports || s.storage.holds item) = true
    · rw [if_pos happly] at h
      exact ⟨item, writes, hwrites, happly, (Option.some.inj h).symm⟩
    · rw [if_neg happly] at h
      cases h

theorem step_request {details : Details} (h : step domains s (.request details) = some s') :
    s' = if blocks domains s details then
      s.saveStats { s.stats with totalBlockedSites := s.stats.totalBlockedSites + 1 } else s :=
  (Option.some.inj h).symm.trans (onBeforeRequest_fst domains s details)

theorem step_answer (h : step domains s .answer = some s') :
    s.get = .called ∧ s' = { s with
      get := .answered (s.storage.config.getD .initial) (s.storage.stats.getD {}) } := by
  simp only [step] at h
  split at h
  · rename_i hget
    exact ⟨hget, (Option.some.inj h).symm⟩
  · cases h

theorem step_callback (h : step domains s .callback = some s') :
    ∃ config stats, s.get = .answered config stats ∧
      s' = { s with config, stats, get := .handled } := by
  simp only [step] at h
  split at h
  · rename_i config stats hget
    exact ⟨config, stats, hget, (Option.some.inj h).symm⟩
  · cases h

theorem step_change (h : step domains s .change = some s') :
    ∃ item changes, s.changes = item :: changes ∧
      s' = { s with config := onChanged s.config item, changes } := by
  simp only [step] at h
  split at h
  · cases h
  · rename_i item changes hchanges
    exact ⟨item, changes, hchanges, (Option.some.inj h).symm⟩

end Degoonification.Browser
