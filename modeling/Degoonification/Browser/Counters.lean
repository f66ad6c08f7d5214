import Degoonification.Browser.Background
import Mathlib.Data.List.Count

/-! The counters of blocked sites and media across a start. Every counted event adds
one to the variables and stores them; the callback of the start's `get` puts back
what the storage held when the `get` was answered. Nothing is lost exactly if no
event was counted before the callback, or if the counters were zero and every event
counted before the callback was stored before the answer. -/

namespace Degoonification.Browser

open Ipc (ascii)
open Runs (tally)

def countedSites (domains : List Bytes) (s : Extension) : Event → ℕ
  | .request details => if blocks domains s details then 1 else 0
  | _ => 0

def countedMedia : Event → ℕ
  | .message .blockedMedia => 1
  | _ => 0

def Item.counters : Item → Option Stats
  | .stats st => some st
  | .setting _ _ => none

/-- The step stores the counters. -/
def storesStats (s : Extension) : Event → ℕ
  | .apply _ => if (s.writes.head?.bind Item.counters).isSome then 1 else 0
  | _ => 0

/-- The answer and the callback of the `get`. -/
def Event.isGet : Event → Bool
  | .answer | .callback => true
  | _ => false

/-- Which of the two the start has had. -/
def Get.rank : Get → ℕ
  | .called => 0
  | .answered _ _ => 1
  | .handled => 2

variable {domains : List Bytes}

/-! ### One step -/

theorem get_step {s s' : Extension} {e : Event} (hone : e ≠ .restart) (hget : e.isGet = false)
    (h : step domains s e = some s') : s'.get = s.get := by
  cases e with
  | restart => exact absurd rfl hone
  | answer | callback => cases hget
  | toggle => obtain rfl := Option.some.inj h; rfl
  | apply => obtain ⟨item, writes, -, -, rfl⟩ := step_apply h; rfl
  | change => obtain ⟨item, changes, -, rfl⟩ := step_change h; rfl
  | request details =>
    obtain rfl := step_request h
    split_ifs <;> rfl
  | message message => obtain rfl := Option.some.inj h; cases message <;> rfl

theorem rank_step {s s' : Extension} {e : Event} (hone : e ≠ .restart)
    (h : step domains s e = some s') :
    s'.get.rank = s.get.rank + if e.isGet then 1 else 0 := by
  cases hget : e.isGet with
  | false => rw [get_step hone hget h]; rfl
  | true =>
    cases e with
    | answer =>
      obtain ⟨hget, rfl⟩ := step_answer h
      rw [hget]
      rfl
    | callback =>
      obtain ⟨config, stats, hget, rfl⟩ := step_callback h
      rw [hget]
      rfl
    | _ => cases hget

/-- Away from restarts and callbacks a step changes the counters by what it counts. -/
theorem stats_step {s s' : Extension} {e : Event} (hone : e ≠ .restart) (hcb : e ≠ .callback)
    (h : step domains s e = some s') :
    s'.stats.totalBlockedSites = s.stats.totalBlockedSites + countedSites domains s e ∧
      s'.stats.totalBlockedMedia = s.stats.totalBlockedMedia + countedMedia e := by
  cases e with
  | restart => exact absurd rfl hone
  | toggle => obtain rfl := Option.some.inj h; exact ⟨rfl, rfl⟩
  | apply => obtain ⟨item, writes, -, -, rfl⟩ := step_apply h; exact ⟨rfl, rfl⟩
  | answer => obtain ⟨hget, rfl⟩ := step_answer h; exact ⟨rfl, rfl⟩
  | callback => exact absurd rfl hcb
  | change => obtain ⟨item, changes, -, rfl⟩ := step_change h; exact ⟨rfl, rfl⟩
  | request details =>
    obtain rfl := step_request h
    rw [countedSites]
    split_ifs <;> exact ⟨rfl, rfl⟩
  | message message =>
    obtain rfl := Option.some.inj h
    cases message <;> exact ⟨rfl, rfl⟩

/-- No callback comes before the answer, and no two of a kind in one start. -/
theorem rank_run {s s' : Extension} {es : List Event} (hone : ∀ e ∈ es, e ≠ .restart)
    (h : Runs.exec (step domains) s es = some s') :
    s'.get.rank = s.get.rank + es.countP Event.isGet := by
  induction es generalizing s with
  | nil =>
    obtain rfl := Option.some.inj h
    rfl
  | cons e es ih =>
    obtain ⟨t, ht, hrest⟩ := Runs.exec_cons.mp h
    rw [ih (fun x hx => hone x (List.mem_cons_of_mem e hx)) hrest,
      rank_step (hone e List.mem_cons_self) ht, List.countP_cons]
    omega

/-- A run that stays at one rank has no answer and no callback. -/
theorem isGet_of_rank_le {s s' : Extension} {es : List Event} (hone : ∀ e ∈ es, e ≠ .restart)
    (h : Runs.exec (step domains) s es = some s') (hrank : s'.get.rank ≤ s.get.rank) :
    ∀ e ∈ es, e ≠ .restart ∧ e.isGet = false := by
  have hcount : es.countP Event.isGet = 0 := by
    have := rank_run hone h
    omega
  intro e he
  exact ⟨hone e he, Bool.eq_false_iff.mpr (List.countP_eq_zero.mp hcount e he)⟩

theorem ne_callback_of_isGet {e : Event} (h : e.isGet = false) : e ≠ .callback := by
  rintro rfl
  cases h

theorem get_run {s s' : Extension} {es : List Event}
    (hes : ∀ e ∈ es, e ≠ .restart ∧ e.isGet = false)
    (h : Runs.exec (step domains) s es = some s') : s'.get = s.get := by
  induction es generalizing s with
  | nil =>
    obtain rfl := Option.some.inj h
    rfl
  | cons e es ih =>
    obtain ⟨t, ht, hrest⟩ := Runs.exec_cons.mp h
    have he := hes e List.mem_cons_self
    rw [ih (fun x hx => hes x (List.mem_cons_of_mem e hx)) hrest, get_step he.1 he.2 ht]

theorem stats_run {s s' : Extension} {es : List Event}
    (hes : ∀ e ∈ es, e ≠ .restart ∧ e ≠ .callback)
    (h : Runs.exec (step domains) s es = some s') :
    s'.stats.totalBlockedSites =
        s.stats.totalBlockedSites + tally (step domains) (countedSites domains) s es ∧
      s'.stats.totalBlockedMedia =
        s.stats.totalBlockedMedia + tally (step domains) (fun _ => countedMedia) s es :=
  ⟨Runs.eq_add_tally (q := fun s => s.stats.totalBlockedSites)
      (fun _ _ _ he ht => (stats_step he.1 he.2 ht).1) hes h,
    Runs.eq_add_tally (q := fun s => s.stats.totalBlockedMedia)
      (fun _ _ _ he ht => (stats_step he.1 he.2 ht).2) hes h⟩

/-! ### Before the answer -/

/-- The `set` calls of the counters not yet applied. -/
def openStats (s : Extension) : List Stats := s.writes.filterMap Item.counters

def Stats.total (st : Stats) : ℕ := st.totalBlockedSites + st.totalBlockedMedia

def Stats.Within (st st' : Stats) : Prop :=
  st.totalBlockedSites ≤ st'.totalBlockedSites ∧ st.totalBlockedMedia ≤ st'.totalBlockedMedia

/-- What the storage holds when the counters were stored `saved` times since the
start: the prior value, or the counters after the first `saved` counted events. -/
def Holds (prior : Stats) (saved : ℕ) (stored now : Stats) : Prop :=
  saved = 0 ∧ stored = prior ∨ 0 < saved ∧ stored.total = saved ∧ stored.Within now

/-- The counters were stored `saved` times, and the open calls hold the counters
after each later event. -/
structure Saving (prior : Stats) (saved : ℕ) (s : Extension) : Prop where
  stored : Holds prior saved (s.storage.stats.getD {}) s.stats
  totals : (openStats s).map Stats.total = List.range' (saved + 1) (openStats s).length
  within : ∀ st ∈ openStats s, st.Within s.stats
  count : s.stats.total = saved + (openStats s).length

theorem Stats.Within.trans {a b c : Stats} (hab : a.Within b) (hbc : b.Within c) : a.Within c :=
  ⟨hab.1.trans hbc.1, hab.2.trans hbc.2⟩

theorem Holds.mono {prior stored now later : Stats} {saved : ℕ}
    (h : Holds prior saved stored now) (hlater : now.Within later) :
    Holds prior saved stored later := by
  rcases h with h | ⟨hpos, htot, hin⟩
  · exact Or.inl h
  · exact Or.inr ⟨hpos, htot, hin.trans hlater⟩

/-- One more counted event, stored by an open call. -/
theorem Saving.saveStats {prior : Stats} {saved : ℕ} {s : Extension} (h : Saving prior saved s)
    {st : Stats} (hwithin : s.stats.Within st) (htotal : st.total = s.stats.total + 1) :
    Saving prior saved (s.saveStats st) := by
  have hopen : openStats (s.saveStats st) = openStats s ++ [st] := by
    simp [openStats, Extension.saveStats, Item.counters]
  refine ⟨h.stored.mono hwithin, ?_, ?_, ?_⟩
  · rw [hopen, List.map_append, h.totals, List.length_append, List.map_singleton,
      List.length_singleton, List.range'_concat, htotal, h.count]
    congr 2
    omega
  · rw [hopen]
    rintro x hx
    rcases List.mem_append.mp hx with hx | hx
    · exact (h.within x hx).trans hwithin
    · rw [List.mem_singleton.mp hx]
      exact ⟨le_rfl, le_rfl⟩
  · rw [hopen, List.length_append, List.length_singleton]
    have := h.count
    exact htotal.trans (by omega)

/-- A `set` takes effect; if it stores the counters, it is the first of the open
calls that do. -/
theorem Saving.apply {prior : Stats} {saved : ℕ} {s : Extension} (h : Saving prior saved s)
    {item : Item} {writes : List Item} (reports : Bool) (hwrites : s.writes = item :: writes) :
    Saving prior (saved + storesStats s (.apply reports))
      { s with
        storage := s.storage.set item
        writes
        changes := if reports then s.changes ++ [item] else s.changes } := by
  obtain ⟨hstored, htotals, hwithin, hcount⟩ := h
  cases item with
  | setting key value =>
    have hopen : openStats s = writes.filterMap Item.counters := by
      rw [openStats, hwrites, List.filterMap_cons_none rfl]
    have hzero : storesStats s (.apply reports) = 0 := by
      simp [storesStats, hwrites, Item.counters]
    rw [hopen] at htotals hwithin hcount
    rw [hzero]
    exact ⟨hstored, htotals, hwithin, hcount⟩
  | stats st =>
    have hopen : openStats s = st :: writes.filterMap Item.counters := by
      rw [openStats, hwrites]
      rfl
    have hone : storesStats s (.apply reports) = 1 := by
      simp [storesStats, hwrites, Item.counters]
    rw [hopen] at htotals hwithin hcount
    rw [List.map_cons, List.length_cons, List.range'_succ] at htotals
    obtain ⟨hhead, htail⟩ := List.cons.inj htotals
    rw [hone]
    refine ⟨Or.inr ⟨Nat.succ_pos _, hhead, hwithin st List.mem_cons_self⟩, htail,
      fun x hx => hwithin x (List.mem_cons_of_mem st hx), ?_⟩
    rw [List.length_cons] at hcount
    exact hcount.trans (by simp only [openStats]; omega)

theorem Saving.step {prior : Stats} {saved : ℕ} {s s' : Extension} {e : Event}
    (hone : e ≠ .restart) (hget : e.isGet = false) (hs : step domains s e = some s')
    (h : Saving prior saved s) : Saving prior (saved + storesStats s e) s' := by
  cases e with
  | restart => exact absurd rfl hone
  | answer | callback => cases hget
  | toggle toggle value =>
    obtain rfl := Option.some.inj hs
    have hopen : openStats { s with
        writes := s.writes ++ [.setting toggle.key value]
        lastSet := Function.update s.lastSet toggle.key (some value) } = openStats s := by
      simp [openStats, Item.counters]
    exact ⟨h.stored, hopen ▸ h.totals, hopen ▸ h.within, hopen ▸ h.count⟩
  | apply reports =>
    obtain ⟨item, writes, hwrites, -, rfl⟩ := step_apply hs
    exact h.apply reports hwrites
  | change =>
    obtain ⟨item, changes, -, rfl⟩ := step_change hs
    exact ⟨h.stored, h.totals, h.within, h.count⟩
  | request details =>
    obtain rfl := step_request hs
    split_ifs
    · refine h.saveStats ⟨Nat.le_succ _, le_rfl⟩ ?_
      simp only [Stats.total]
      omega
    · exact h
  | message message =>
    obtain rfl := Option.some.inj hs
    cases message with
    | blockedMedia => exact h.saveStats ⟨le_rfl, Nat.le_succ _⟩ rfl
    | getStats => exact h

theorem saving_run {prior : Stats} {es : List Event} : ∀ {saved : ℕ} {s s' : Extension},
    (∀ e ∈ es, e ≠ .restart ∧ e.isGet = false) →
    Runs.exec (step domains) s es = some s' → Saving prior saved s →
    Saving prior (saved + tally (step domains) storesStats s es) s' := by
  induction es with
  | nil =>
    intro saved s s' _ h hs
    obtain rfl := Option.some.inj h
    exact hs
  | cons e es ih =>
    intro saved s s' hes h hs
    obtain ⟨t, ht, hrest⟩ := Runs.exec_cons.mp h
    have he := hes e List.mem_cons_self
    rw [Runs.tally_cons ht, ← Nat.add_assoc]
    exact ih (fun x hx => hes x (List.mem_cons_of_mem e hx)) hrest (hs.step he.1 he.2 ht)

theorem saving_started (storage : Storage) :
    Saving (storage.stats.getD {}) 0 (started storage) where
  stored := Or.inl ⟨rfl, rfl⟩
  totals := rfl
  within _ hst := nomatch hst
  count := rfl

/-! ### A start -/

/-- The counted events of a run. -/
def counted (domains : List Bytes) (s : Extension) (e : Event) : ℕ :=
  countedSites domains s e + countedMedia e

theorem tally_counted (s : Extension) (es : List Event) :
    tally (step domains) (counted domains) s es =
      tally (step domains) (countedSites domains) s es +
        tally (step domains) (fun _ => countedMedia) s es :=
  Runs.tally_add (countedSites domains) (fun _ => countedMedia) s es

/-- What the callback puts in place, against the prior counters and the events since
the start. -/
theorem snapshot_exact_iff {prior stored now : Stats} {saved : ℕ}
    (h : Holds prior saved stored now) :
    (stored.totalBlockedSites = prior.totalBlockedSites + now.totalBlockedSites ∧
        stored.totalBlockedMedia = prior.totalBlockedMedia + now.totalBlockedMedia) ↔
      now.total = 0 ∨ prior.total = 0 ∧ saved = now.total := by
  simp only [Stats.total]
  rcases h with ⟨rfl, rfl⟩ | ⟨hpos, htot, hsites, hmedia⟩
  · omega
  · simp only [Stats.total] at htot
    omega

theorem Get.rank_le (g : Get) : g.rank ≤ 2 := by
  cases g <;> simp [Get.rank]

/-- A run of one start up to its callback, the callback, and the rest. -/
theorem exec_start {storage : Storage} {pre mid post : List Event} {s : Extension}
    (hone : ∀ e ∈ pre ++ .answer :: (mid ++ .callback :: post), e ≠ .restart)
    (hrun : Runs.exec (step domains) (started storage)
      (pre ++ .answer :: (mid ++ .callback :: post)) = some s) :
    ∃ t t', Runs.exec (step domains) (started storage) (pre ++ .answer :: mid) = some t ∧
      step domains t .callback = some t' ∧ Runs.exec (step domains) t' post = some s ∧
      (∀ e ∈ pre ++ .answer :: mid, e ≠ .restart ∧ e ≠ .callback) ∧
      (∀ e ∈ post, e ≠ .restart ∧ e ≠ .callback) ∧
      Holds (storage.stats.getD {}) (tally (step domains) storesStats (started storage) pre)
        t'.stats t.stats := by
  obtain ⟨t₀, hpre, h⟩ := Runs.exec_append_iff.mp hrun
  obtain ⟨t₁, hanswer, h⟩ := Runs.exec_cons.mp h
  obtain ⟨t, hmid, h⟩ := Runs.exec_append_iff.mp h
  obtain ⟨t', hcallback, hpost⟩ := Runs.exec_cons.mp h
  have hearly := Runs.exec_append_iff.mpr ⟨t₀, hpre, Runs.exec_cons.mpr ⟨t₁, hanswer, hmid⟩⟩
  obtain ⟨hcalled, rfl⟩ := step_answer hanswer
  obtain ⟨config, stats, hanswered, rfl⟩ := step_callback hcallback
  -- no second answer or callback has a place in the run
  have hes₀ := isGet_of_rank_le (fun e he => hone e (by simp [he])) hpre (by rw [hcalled]; rfl)
  have hes₁ := isGet_of_rank_le (fun e he => hone e (by simp [he])) hmid (by rw [hanswered]; rfl)
  have hes₂ := isGet_of_rank_le (fun e he => hone e (by simp [he])) hpost (Get.rank_le _)
  have hne {es : List Event} (hes : ∀ e ∈ es, e ≠ .restart ∧ e.isGet = false) :
      ∀ e ∈ es, e ≠ .restart ∧ e ≠ .callback :=
    fun e he => ⟨(hes e he).1, ne_callback_of_isGet (hes e he).2⟩
  refine ⟨t, _, hearly, hcallback, hpost, ?_, hne hes₂, ?_⟩
  · intro e he
    rcases List.mem_append.mp he with he | he
    · exact hne hes₀ e he
    · rcases List.mem_cons.mp he with rfl | he
      · exact ⟨nofun, nofun⟩
      · exact hne hes₁ e he
  · have hsaving := (saving_run hes₀ hpre (saving_started storage)).stored
    rw [Nat.zero_add] at hsaving
    obtain ⟨-, rfl⟩ := Get.answered.inj ((get_run hes₁ hmid).symm.trans hanswered)
    obtain ⟨hsites, hmedia⟩ := stats_run (hne hes₁) hmid
    exact hsaving.mono ⟨hsites.ge.trans' (Nat.le_add_right _ _),
      hmedia.ge.trans' (Nat.le_add_right _ _)⟩

/-- A run of one start: the `get` is answered after `pre` and handled after `mid`.
The counters end as the prior values and the events of the run together exactly if
nothing was counted before the callback, or nothing had been before the start and
all that was counted before the callback was stored before the answer. -/
theorem counters_exact_iff (storage : Storage) {pre mid post : List Event} {s : Extension}
    (hone : ∀ e ∈ pre ++ .answer :: (mid ++ .callback :: post), e ≠ .restart)
    (hrun : Runs.exec (step domains) (started storage)
      (pre ++ .answer :: (mid ++ .callback :: post)) = some s) :
    (s.stats.totalBlockedSites = (storage.stats.getD {}).totalBlockedSites +
          tally (step domains) (countedSites domains) (started storage)
            (pre ++ .answer :: (mid ++ .callback :: post)) ∧
        s.stats.totalBlockedMedia = (storage.stats.getD {}).totalBlockedMedia +
          tally (step domains) (fun _ => countedMedia) (started storage)
            (pre ++ .answer :: (mid ++ .callback :: post))) ↔
      tally (step domains) (counted domains) (started storage) (pre ++ .answer :: mid) = 0 ∨
        (storage.stats.getD {}).total = 0 ∧
          tally (step domains) storesStats (started storage) pre =
            tally (step domains) (counted domains) (started storage) (pre ++ .answer :: mid) := by
  obtain ⟨t, t', hearly, hcallback, hpost, hes, hes', hholds⟩ := exec_start hone hrun
  obtain ⟨hsites, hmedia⟩ := stats_run hes hearly
  obtain ⟨hsites', hmedia'⟩ := stats_run hes' hpost
  have htotal : t.stats.total =
      tally (step domains) (counted domains) (started storage) (pre ++ .answer :: mid) := by
    rw [Stats.total, hsites, hmedia, tally_counted]
    change 0 + _ + (0 + _) = _
    rw [Nat.zero_add, Nat.zero_add]
  have hwhole (f : Extension → Event → ℕ) (hf : f t .callback = 0) :
      tally (step domains) f (started storage) (pre ++ .answer :: (mid ++ .callback :: post)) =
        tally (step domains) f (started storage) (pre ++ .answer :: mid) +
          tally (step domains) f t' post := by
    rw [← List.cons_append, ← List.append_assoc, Runs.tally_append hearly,
      Runs.tally_cons hcallback, hf, Nat.zero_add]
  rw [← htotal, ← snapshot_exact_iff hholds, hwhole _ rfl, hwhole _ rfl, hsites', hmedia', hsites,
    hmedia]
  change _ ↔ _ = _ + (0 + _) ∧ _ = _ + (0 + _)
  omega

/-- Ten sites were blocked before the start. -/
def tenSites : Storage := { stats := some { totalBlockedSites := 10 } }

/-- A message after the callback is added to what was stored. -/
theorem counters_exact_late :
    ∃ s, Runs.exec (step []) (started tenSites) [.answer, .callback, .message .blockedMedia] =
        some s ∧ s.stats.totalBlockedSites = 10 ∧ s.stats.totalBlockedMedia = 1 := by
  have hone : ∀ e ∈ [Event.answer, .callback, .message .blockedMedia], e ≠ .restart := by
    simp
  exact ⟨_, rfl,
    (@counters_exact_iff [] tenSites [] [] [.message .blockedMedia] _ hone rfl).mpr (Or.inl rfl)⟩

def adultRequest : Details where
  url := ascii "https://porn.example/"
  parsed := some
    { hostname := ascii "porn.example", pathname := ascii "/", searchParams := [] }
  mainFrame := true

/-- A site blocked between the answer and the callback is not counted. -/
theorem blockedSite_lost :
    ∃ s, Runs.exec (step []) (started tenSites) [.answer, .request adultRequest, .callback] =
        some s ∧
      tally (step []) (countedSites []) (started tenSites)
        [.answer, .request adultRequest, .callback] = 1 ∧
      s.stats.totalBlockedSites = 10 := by
  refine ⟨_, rfl, ?_, ?_⟩ <;> decide +kernel

end Degoonification.Browser
