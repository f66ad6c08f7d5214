import Degoonification.Browser.Background
import Mathlib.Data.List.Count

/-! A navigation through the interceptor of the background page. A request that lacks the
parameter of a search engine is redirected to itself with the parameter set, and comes
back as a new request; between the two the settings may change, other requests come and
the page may even restart. Every redirect settles one parameter for good and touches no
other, so there are never more redirects than parameters were missing, and the last
request is let through or blocked. -/

namespace Degoonification.Browser

open Ipc (ascii)

/-! ### Search parameters -/

/-- `URLSearchParams.set`: the first parameter of the name takes the value and the others
of the name go, or there is a new one at the end. -/
def setParam (name value : Bytes) : List (Bytes × Bytes) → List (Bytes × Bytes)
  | [] => [(name, value)]
  | p :: ps =>
    if p.1 = name then (name, value) :: ps.filter fun q => q.1 ≠ name
    else p :: setParam name value ps

section Params

variable {name value : Bytes}

theorem lookup_setParam (ps : List (Bytes × Bytes)) :
    (setParam name value ps).lookup name = some value := by
  induction ps with
  | nil => exact List.lookup_cons_self
  | cons p ps ih =>
    unfold setParam
    split_ifs with hp
    · exact List.lookup_cons_self
    · obtain ⟨key, old⟩ := p
      have hne : (name == key) = false := beq_eq_false_iff_ne.mpr (Ne.symm hp)
      rw [List.lookup_cons, hne, ih]

theorem lookup_filter_ne {other : Bytes} (hne : other ≠ name) (ps : List (Bytes × Bytes)) :
    (ps.filter fun q => q.1 ≠ name).lookup other = ps.lookup other := by
  induction ps with
  | nil => rfl
  | cons p ps ih =>
    obtain ⟨key, old⟩ := p
    by_cases hk : key = name
    · have hother : (other == key) = false := beq_eq_false_iff_ne.mpr (hk ▸ hne)
      rw [List.filter_cons_of_neg (by simpa using hk), ih, List.lookup_cons, hother]
    · rw [List.filter_cons_of_pos (by simpa using hk), List.lookup_cons, List.lookup_cons, ih]

theorem lookup_setParam_of_ne {other : Bytes} (hne : other ≠ name) (ps : List (Bytes × Bytes)) :
    (setParam name value ps).lookup other = ps.lookup other := by
  induction ps with
  | nil =>
    have hother : (other == name) = false := beq_eq_false_iff_ne.mpr hne
    rw [setParam, List.lookup_cons, hother]
  | cons p ps ih =>
    obtain ⟨key, old⟩ := p
    unfold setParam
    split_ifs with hp
    · have hother : (other == name) = false := beq_eq_false_iff_ne.mpr hne
      have hother' : (other == key) = false :=
        beq_eq_false_iff_ne.mpr fun heq => hne (heq.trans hp)
      rw [List.lookup_cons, hother, lookup_filter_ne hne, List.lookup_cons, hother']
    · rw [List.lookup_cons, List.lookup_cons, ih]

/-- The parameters of other names stay, in their order. -/
theorem filter_setParam {keep : Bytes → Bool} (hname : keep name = false)
    (ps : List (Bytes × Bytes)) :
    ((setParam name value ps).filter fun q => keep q.1) = ps.filter fun q => keep q.1 := by
  induction ps with
  | nil => exact List.filter_cons_of_neg (by simp [hname])
  | cons p ps ih =>
    unfold setParam
    split_ifs with hp
    · have hkeep : ∀ q : Bytes × Bytes, (keep q.1 && decide (q.1 ≠ name)) = keep q.1 := by
        intro q
        by_cases hq : q.1 = name <;> simp [hq, hname]
      rw [List.filter_cons_of_neg (by simp [hname]), List.filter_cons_of_neg (by simp [hp, hname]),
        List.filter_filter]
      simp only [hkeep]
    · rw [List.filter_cons, List.filter_cons, ih]

end Params

/-! ### Search engines -/

/-- A part of the host, a part of the path, the parameter and the value it must have. -/
structure Engine where
  host : Bytes
  path : Bytes
  param : Bytes
  value : Bytes
  deriving DecidableEq

/-- The three tests of `enforceSafeSearch`, in order. -/
def engines : List Engine :=
  [⟨ascii "google.", ascii "/search", ascii "safe", ascii "active"⟩,
    ⟨ascii "duckduckgo.com", [], ascii "kp", ascii "1"⟩,
    ⟨ascii "bing.com", ascii "/search", ascii "adlt", ascii "strict"⟩]

/-- The URL is one of the engine, without its parameter. -/
def Engine.lacks (url : Url) (e : Engine) : Bool :=
  includes url.hostname e.host && includes url.pathname e.path &&
    url.searchParams.lookup e.param != some e.value

/-- The number of engines whose parameter is missing. -/
def Url.missing (url : Url) : ℕ := engines.countP (Engine.lacks url)

def Url.set (url : Url) (name value : Bytes) : Url :=
  { url with searchParams := setParam name value url.searchParams }

theorem enforceSafeSearch_eq (url : Url) : enforceSafeSearch url =
    (engines.find? (Engine.lacks url)).elim .proceed fun e => .safeSearch e.param e.value := by
  have hempty : includes url.pathname [] = true := decide_eq_true (List.nil_infix)
  simp only [enforceSafeSearch, engines, List.find?_cons, Engine.lacks, hempty, Bool.and_true]
  split_ifs with hgoogle hduckduckgo hbing
  · rw [hgoogle]
    rfl
  · rw [Bool.eq_false_iff.mpr hgoogle, hduckduckgo]
    rfl
  · rw [Bool.eq_false_iff.mpr hgoogle, Bool.eq_false_iff.mpr hduckduckgo, hbing]
    rfl
  · rw [Bool.eq_false_iff.mpr hgoogle, Bool.eq_false_iff.mpr hduckduckgo,
      Bool.eq_false_iff.mpr hbing]
    rfl

theorem missing_le (url : Url) : url.missing ≤ 3 := List.countP_le_length

/-- Setting the parameter of one engine leaves the others as they were. -/
theorem lacks_set {e e' : Engine} (url : Url) (he : e ∈ engines) (he' : e' ∈ engines) :
    e'.lacks (url.set e.param e.value) = (e'.lacks url && decide (e' ≠ e)) := by
  have hinj : ∀ a ∈ engines, ∀ b ∈ engines, a.param = b.param → a = b := by decide
  unfold Engine.lacks Url.set
  by_cases heq : e' = e
  · rw [heq, lookup_setParam]
    simp
  · rw [lookup_setParam_of_ne fun hparam => heq (hinj e' he' e he hparam)]
    simp [heq]

theorem missing_set {e : Engine} {url : Url} (he : e ∈ engines) (hlacks : e.lacks url = true) :
    (url.set e.param e.value).missing + 1 = url.missing := by
  have hnodup : engines.Nodup := by decide
  have hrest : (url.set e.param e.value).missing = (engines.erase e).countP (Engine.lacks url) := by
    rw [hnodup.erase_eq_filter, List.countP_filter]
    refine List.countP_congr fun e' he' => ?_
    rw [lacks_set url he he']
    simp
  have hpos : 0 < url.missing := List.countP_pos_iff.mpr ⟨e, he, hlacks⟩
  unfold Url.missing at hpos
  rw [hrest, List.countP_erase, if_pos ⟨he, hlacks⟩, Url.missing]
  omega

/-! ### A navigation -/

/-- Waiting for the listener; let through, under the settings the listener saw; or at the
page of the extension, whose own address the listener is not asked about. -/
inductive Nav where
  | loading (details : Details)
  | loaded (details : Details) (config : Config)
  | blocked (details : Details)

/-- A tab and the extension, with the number of redirects to a safe search. -/
structure Navigation where
  extension : Extension
  nav : Nav
  redirects : ℕ := 0

/-- A request of the tab reaches the listener, or something else happens to the
extension. -/
inductive NavEvent where
  | visit
  | other (e : Event)

def NavEvent.isVisit : NavEvent → Bool
  | visit => true
  | other _ => false

/-- The browser follows the answer to a request. `href` is `url.toString()`, a text that
parses to the URL it is made from. -/
def visit (href : Url → Bytes) (domains : List Bytes) (s : Navigation) (details : Details) :
    Navigation :=
  let r := onBeforeRequest domains s.extension details
  match r.2, details.parsed with
  | .safeSearch name value, some url =>
    { extension := r.1
      nav := .loading
        { details with url := href (url.set name value), parsed := some (url.set name value) }
      redirects := s.redirects + 1 }
  | .blockedPage _, _ => { s with extension := r.1, nav := .blocked details }
  | _, _ => { s with extension := r.1, nav := .loaded details s.extension.config }

def navigate (href : Url → Bytes) (domains : List Bytes) (s : Navigation) :
    NavEvent → Option Navigation
  | .visit =>
    match s.nav with
    | .loading details => some (visit href domains s details)
    | _ => none
  | .other e => (step domains s.extension e).map fun extension => { s with extension }

def Nav.details : Nav → Details
  | .loading details => details
  | .loaded details _ => details
  | .blocked details => details

def Details.missing (details : Details) : ℕ := details.parsed.elim 0 Url.missing

def Details.isAdult (domains : List Bytes) (details : Details) : Bool :=
  details.parsed.any (isAdultUrl domains)

/-- What a redirect leaves of a URL: the host, the path and the parameters of other names. -/
def Url.rest (url : Url) : Bytes × Bytes × List (Bytes × Bytes) :=
  (url.hostname, url.pathname, url.searchParams.filter fun p => p.1 ∉ engines.map Engine.param)

/-- The same request but for the parameters of the engines. -/
structure SameButSafe (d d' : Details) : Prop where
  rest : d.parsed.map Url.rest = d'.parsed.map Url.rest
  mainFrame : d.mainFrame = d'.mainFrame

variable {href : Url → Bytes} {domains : List Bytes}

theorem rest_set {e : Engine} (he : e ∈ engines) (url : Url) :
    (url.set e.param e.value).rest = url.rest := by
  have hparams := @filter_setParam e.param e.value (fun p => p ∉ engines.map Engine.param)
    (decide_eq_false (not_not.mpr (List.mem_map_of_mem he))) url.searchParams
  unfold Url.rest Url.set
  rw [hparams]

/-- Whether a site is blocked depends on its host and path. -/
theorem isAdult_eq {d d' : Details} (h : SameButSafe d d') :
    d.isAdult domains = d'.isAdult domains := by
  have hrest := h.rest
  unfold Details.isAdult
  cases hd : d.parsed with
  | none =>
    rw [hd, Option.map_none] at hrest
    rw [Option.map_eq_none_iff.mp hrest.symm]
  | some url =>
    rw [hd, Option.map_some] at hrest
    obtain ⟨url', hurl', heq⟩ := Option.map_eq_some_iff.mp hrest.symm
    rw [hurl', Option.any_some, Option.any_some]
    simp only [Url.rest, Prod.mk.injEq] at heq
    simp only [isAdultUrl, heq.1, heq.2.1]

/-- What a visit can do. -/
inductive Visits (href : Url → Bytes) (domains : List Bytes) (s : Navigation) (d : Details) :
    Navigation → Prop
  | redirect {e : Engine} {url : Url} (he : e ∈ engines) (hlacks : e.lacks url = true)
    (hurl : d.parsed = some url) (extension : Extension) :
    Visits href domains s d
      { extension
        nav := .loading { d with
          url := href (url.set e.param e.value), parsed := some (url.set e.param e.value) }
        redirects := s.redirects + 1 }
  | blocked (hadult : d.isAdult domains = true) (extension : Extension) :
    Visits href domains s d { s with extension, nav := .blocked d }
  | loaded (hadult : s.extension.config .enabled = true →
      s.extension.config .blockAdultSites = true → d.isAdult domains = false)
    (hsafe : s.extension.config .enabled = true → s.extension.config .enforceSafeSearch = true →
      d.mainFrame = true → d.missing = 0) (extension : Extension) :
    Visits href domains s d { s with extension, nav := .loaded d s.extension.config }

theorem visits_visit (s : Navigation) (d : Details) :
    Visits href domains s d (visit href domains s d) := by
  unfold visit
  cases henabled : s.extension.config .enabled with
  | false =>
    simp only [onBeforeRequest, henabled]
    exact .loaded (fun h => absurd (henabled.symm.trans h) Bool.false_ne_true)
      (fun h => absurd (henabled.symm.trans h) Bool.false_ne_true) _
  | true =>
    cases hparsed : d.parsed with
    | none =>
      simp only [onBeforeRequest, henabled, hparsed]
      exact .loaded (fun _ _ => by simp [Details.isAdult, hparsed])
        (fun _ _ _ => by simp [Details.missing, hparsed]) _
    | some url =>
      have hadult_eq : d.isAdult domains = isAdultUrl domains url := by
        rw [Details.isAdult, hparsed, Option.any_some]
      have hclean (hnot : ¬ (s.extension.config .blockAdultSites && isAdultUrl domains url) = true)
          (hblock : s.extension.config .blockAdultSites = true) : d.isAdult domains = false := by
        rw [hblock, Bool.true_and, Bool.not_eq_true] at hnot
        exact hadult_eq.trans hnot
      simp only [onBeforeRequest, henabled, hparsed]
      split_ifs with hadult hsafe
      · exact .blocked (hadult_eq.trans (Bool.and_eq_true_iff.mp hadult).2) _
      · rw [enforceSafeSearch_eq]
        cases hfind : engines.find? (Engine.lacks url) with
        | none =>
          refine .loaded (fun _ => hclean hadult) (fun _ _ _ => ?_) _
          rw [Details.missing, hparsed]
          exact List.countP_eq_zero.mpr (List.find?_eq_none.mp hfind)
        | some e =>
          exact .redirect (List.mem_of_find?_eq_some hfind) (List.find?_some hfind) hparsed _
      · refine .loaded (fun _ => hclean hadult) (fun _ henforce hframe => ?_) _
        exact absurd (Bool.and_eq_true_iff.mpr ⟨henforce, hframe⟩) hsafe

/-! ### Runs -/

/-- The requests that a tab has had after so many redirects. -/
def Nav.visits (redirects : ℕ) : Nav → ℕ
  | .loading _ => redirects
  | _ => redirects + 1

/-- What the listener has decided, if it has. -/
def Nav.Decided (domains : List Bytes) : Nav → Prop
  | .loading _ => True
  | .loaded d config => config .enabled = true →
      (config .blockAdultSites = true → d.isAdult domains = false) ∧
        (config .enforceSafeSearch = true → d.mainFrame = true → d.missing = 0)
  | .blocked d => d.isAdult domains = true

/-- A tab on its way from a first request. -/
structure Travels (domains : List Bytes) (first : Details) (s : Navigation) (visits : ℕ) :
    Prop where
  missing : s.redirects + s.nav.details.missing = first.missing
  same : SameButSafe s.nav.details first
  visits : visits = s.nav.visits s.redirects
  decided : s.nav.Decided domains

theorem Travels.visit {first d : Details} {s t : Navigation} {visits : ℕ}
    (h : Travels domains first s visits) (hnav : s.nav = .loading d)
    (hvisit : Visits href domains s d t) : Travels domains first t (visits + 1) := by
  obtain ⟨hmissing, hsame, hvisits, -⟩ := h
  rw [hnav] at hmissing hsame hvisits
  cases hvisit with
  | @redirect e url he hlacks hurl extension =>
    have hset := missing_set he hlacks
    simp only [Nav.details, Details.missing, hurl, Option.elim_some] at hmissing
    refine ⟨?_, ⟨?_, hsame.mainFrame⟩, congrArg (· + 1) hvisits, trivial⟩
    · simp only [Nav.details, Details.missing, Option.elim_some]
      omega
    · rw [← hsame.rest]
      simp only [Nav.details, hurl, Option.map_some, rest_set he]
  | blocked hadult extension => exact ⟨hmissing, hsame, congrArg (· + 1) hvisits, hadult⟩
  | loaded hadult hsafe extension =>
    exact ⟨hmissing, hsame, congrArg (· + 1) hvisits, fun henabled =>
      ⟨hadult henabled, hsafe henabled⟩⟩

theorem Travels.step {first : Details} {s t : Navigation} {visits : ℕ} {e : NavEvent}
    (h : Travels domains first s visits) (hstep : navigate href domains s e = some t) :
    Travels domains first t (visits + if e.isVisit then 1 else 0) := by
  cases e with
  | visit =>
    simp only [navigate] at hstep
    split at hstep
    · next d hnav =>
      obtain rfl := Option.some.inj hstep
      exact h.visit hnav (visits_visit s d)
    · cases hstep
  | other e =>
    obtain ⟨extension, -, rfl⟩ := Option.map_eq_some_iff.mp hstep
    exact ⟨h.missing, h.same, h.visits, h.decided⟩

theorem Travels.exec {first : Details} {es : List NavEvent} :
    ∀ {s t : Navigation} {visits : ℕ}, Travels domains first s visits →
      Runs.exec (navigate href domains) s es = some t →
        Travels domains first t (visits + es.countP NavEvent.isVisit) := by
  induction es with
  | nil =>
    intro s t visits h hrun
    obtain rfl := Option.some.inj hrun
    exact h
  | cons e es ih =>
    intro s t visits h hrun
    obtain ⟨u, hu, hrest⟩ := Runs.exec_cons.mp hrun
    have hind := ih (h.step hu) hrest
    rwa [Nat.add_assoc, Nat.add_comm (if e.isVisit then 1 else 0), ← List.countP_cons] at hind

/-- Whatever happens to the extension between the requests of a tab: there is one redirect
at most for each parameter that is missing at first, three in all, and with one request
more than redirects the tab is decided. The host, the path and the other parameters are
kept. What is let through is no adult site and lacks no parameter, where the settings of
that moment ask for it, and what is blocked is an adult site. -/
theorem navigation_settles {extension : Extension} {first : Details} {es : List NavEvent}
    {s : Navigation}
    (hrun : Runs.exec (navigate href domains) { extension, nav := .loading first } es = some s) :
    (s.redirects ≤ first.missing ∧ first.missing ≤ 3) ∧
      es.countP NavEvent.isVisit = s.nav.visits s.redirects ∧
      SameButSafe s.nav.details first ∧
      (∀ d config, s.nav = .loaded d config → config .enabled = true →
        (config .blockAdultSites = true → first.isAdult domains = false) ∧
          (config .enforceSafeSearch = true → first.mainFrame = true → d.missing = 0)) ∧
      ∀ d, s.nav = .blocked d → first.isAdult domains = true := by
  have hstart : Travels domains first { extension, nav := .loading first } 0 :=
    ⟨Nat.zero_add _, ⟨rfl, rfl⟩, rfl, trivial⟩
  obtain ⟨hmissing, hsame, hvisits, hdecided⟩ := hstart.exec hrun
  rw [Nat.zero_add] at hvisits
  have hthree : first.missing ≤ 3 := by
    unfold Details.missing
    cases first.parsed with
    | none => exact Nat.zero_le 3
    | some url => exact missing_le url
  refine ⟨⟨by omega, hthree⟩, hvisits, hsame, ?_, ?_⟩
  · intro d config hnav henabled
    rw [hnav] at hdecided hsame
    have hloaded := hdecided henabled
    exact ⟨fun hblock => (isAdult_eq hsame).symm.trans (hloaded.1 hblock),
      fun henforce hframe => hloaded.2 henforce (hsame.mainFrame.trans hframe)⟩
  · intro d hnav
    rw [hnav] at hdecided hsame
    exact (isAdult_eq hsame).symm.trans hdecided

/-- A host that all three engines match: it takes three redirects, during which a setting
changes. -/
def threeEngines : Details where
  url := ascii "https://google.bing.com.duckduckgo.com/search"
  parsed := some ⟨ascii "google.bing.com.duckduckgo.com", ascii "/search", []⟩
  mainFrame := true

theorem navigation_settles_threeEngines :
    ∃ s, Runs.exec (navigate (fun _ => []) [])
        { extension := started {}, nav := .loading threeEngines }
        [.visit, .other .answer, .visit, .other (.toggle .blockSitesToggle false), .visit,
          .visit] = some s ∧ s.redirects ≤ threeEngines.missing ∧ s.nav.visits s.redirects = 4 := by
  refine ⟨_, rfl, ?_⟩
  obtain ⟨⟨hle, -⟩, hvisits, -⟩ := @navigation_settles (fun _ => []) [] (started {}) threeEngines
    [.visit, .other .answer, .visit, .other (.toggle .blockSitesToggle false), .visit, .visit] _ rfl
  exact ⟨hle, hvisits.symm⟩

end Degoonification.Browser
