import Degoonification.Ipc.Daemon

/-! The `STATUS` text read back by `IpcClient::parse_status`. Only one value of
the text is not the daemon's own: the last event quotes the text of a `RELAPSE`
request, and a newline in it starts a line of its own. -/

namespace Degoonification.Ipc

open DomainRadixTree (getlines)

/-! ### Lines -/

theorem getlines_append {l : Bytes} (h : newline ∉ l) (rest : Bytes) :
    getlines (l ++ newline :: rest) = l :: getlines rest := by
  have hsplit : (l ++ newline :: rest).splitOn newline = l :: rest.splitOn newline := by
    rw [List.splitOn_append_cons_self, List.splitOn_eq_singleton h, List.singleton_append]
  obtain ⟨m, ms, hm⟩ := List.exists_cons_of_ne_nil (List.splitOn_ne_nil newline rest)
  simp only [getlines, hsplit, hm, List.getLast?_cons_cons, List.dropLast_cons_cons]
  split_ifs <;> rfl

theorem newline_notMem_of_mem_splitOn {l text : Bytes} (h : l ∈ text.splitOn newline) :
    newline ∉ l := by
  induction text generalizing l with
  | nil =>
    obtain rfl := List.mem_singleton.mp h
    exact List.not_mem_nil
  | cons c text ih =>
    rw [List.splitOn_cons_eq_if_modifyHead] at h
    split_ifs at h with hc
    · obtain rfl | h := List.mem_cons.mp h
      · exact List.not_mem_nil
      · exact ih h
    · obtain ⟨m, ms, hm⟩ := List.exists_cons_of_ne_nil (List.splitOn_ne_nil newline text)
      rw [hm] at ih
      rw [hm, List.modifyHead_cons] at h
      obtain rfl | h := List.mem_cons.mp h
      · rw [List.mem_cons, not_or]
        exact ⟨fun heq => hc (by simp [heq]), ih List.mem_cons_self⟩
      · exact ih (List.mem_cons_of_mem m h)

theorem newline_notMem_of_mem_getlines {l text : Bytes} (h : l ∈ getlines text) : newline ∉ l := by
  simp only [getlines] at h
  split_ifs at h
  · exact newline_notMem_of_mem_splitOn (List.mem_of_mem_dropLast h)
  · exact newline_notMem_of_mem_splitOn h

section

variable (stof : Bytes → Option ℚ)

theorem parseLine_line (s : DaemonStatus) (key : Key) (v : Bytes) :
    parseLine stof s (line key v) = setField stof s key v := by
  have hne : ∀ c ∈ key.text, (decide (c ≠ equals)) = true := fun c hc =>
    decide_eq_true fun h => equals_notMem_text key (h ▸ hc)
  have htake : (line key v).takeWhile (· ≠ equals) = key.text := by
    rw [line, List.takeWhile_append_of_pos hne, List.takeWhile_cons_of_neg (by simp),
      List.append_nil]
  have hdrop : (line key v).dropWhile (· ≠ equals) = equals :: v := by
    rw [line, List.dropWhile_append_of_pos hne, List.dropWhile_cons_of_neg (by simp)]
  rw [parseLine, if_pos (by simp [line]), htake, hdrop, ofText_text]
  rfl

/-- A text of lines without inner newlines is read line by line. -/
theorem parseStatus_lines (keys : List Key) (v : Key → Bytes) (h : ∀ key, newline ∉ v key) :
    parseStatus stof (keys.flatMap fun key => line key (v key) ++ [newline]) =
      keys.foldlM (fun s key => setField stof s key (v key)) { running := true } := by
  have hlines : getlines (keys.flatMap fun key => line key (v key) ++ [newline]) =
      keys.map fun key => line key (v key) := by
    induction keys with
    | nil => rfl
    | cons key keys ih =>
      have hline : newline ∉ line key (v key) := by
        simp only [line, List.mem_append, List.mem_cons, not_or]
        exact ⟨newline_notMem_text key, by decide, h key⟩
      rw [List.flatMap_cons, List.append_assoc, List.singleton_append, getlines_append hline, ih,
        List.map_cons]
  rw [parseStatus, hlines, List.foldlM_map]
  simp only [parseLine_line]

variable {stof}

theorem lastEvent_setField {s s' : DaemonStatus} {key : Key} {v : Bytes}
    (h : setField stof s key v = some s') :
    s'.lastEvent = s.lastEvent ∨ s'.lastEvent = v := by
  cases key <;> simp only [setField, Option.map_eq_some_iff, Option.some.injEq] at h
  case paused | model | milestone => exact .inl (h ▸ rfl)
  case lastEvent => exact .inr (h ▸ rfl)
  all_goals
    obtain ⟨_, -, rfl⟩ := h
    exact .inl rfl

theorem newline_notMem_parseLine {s s' : DaemonStatus} {l : Bytes}
    (h : parseLine stof s l = some s') (hl : newline ∉ l) (hs : newline ∉ s.lastEvent) :
    newline ∉ s'.lastEvent := by
  have hkeep : some s = some s' → newline ∉ s'.lastEvent := fun h => Option.some.inj h ▸ hs
  rw [parseLine] at h
  split_ifs at h
  · split at h
    · obtain hlast | hlast := lastEvent_setField h
      · exact hlast ▸ hs
      · rw [hlast]
        exact fun hmem => hl ((List.dropWhile_sublist _).subset (List.mem_of_mem_tail hmem))
    · exact hkeep h
  · exact hkeep h

/-- A status that was read has no newline in its last event. -/
theorem newline_notMem_lastEvent {raw : Bytes} {s : DaemonStatus}
    (h : parseStatus stof raw = some s) : newline ∉ s.lastEvent := by
  have hfold : ∀ (lines : List Bytes) (s₀ : DaemonStatus), (∀ l ∈ lines, newline ∉ l) →
      newline ∉ s₀.lastEvent → lines.foldlM (parseLine stof) s₀ = some s →
      newline ∉ s.lastEvent := by
    intro lines
    induction lines with
    | nil =>
      intro s₀ _ hs₀ h
      exact Option.some.inj h ▸ hs₀
    | cons l lines ih =>
      intro s₀ hlines hs₀ h
      obtain ⟨hl, hlines⟩ := List.forall_mem_cons.mp hlines
      rw [List.foldlM_cons] at h
      obtain ⟨s₁, hs₁, hrest⟩ := Option.bind_eq_some_iff.mp h
      exact ih s₁ hlines (newline_notMem_parseLine hs₁ hl hs₀) hrest
  exact hfold _ _ (fun l hl => newline_notMem_of_mem_getlines hl) (by decide) h

end

/-! ### The daemon's text -/

namespace Daemon

variable (stof : Bytes → Option ℚ) (showRatio : ℚ → Bytes)

/-- The parsed status gives the daemon's values, floating-point fields apart. -/
structure Agrees (d : Daemon) (c : Counters) (s : DaemonStatus) : Prop where
  paused : s.visualBlurPaused = d.visualBlurPaused
  activeBoxes : s.activeBoxes = d.activeBoxCount
  fps : s.fps = c.fps
  uptime : s.uptimeSeconds = c.uptime
  totalFrames : s.totalFrames = c.totalFrames
  dnsTotal : s.dnsTotal = c.dnsTotal
  dnsBlocked : s.dnsBlocked = c.dnsBlocked
  dnsForwarded : s.dnsForwarded = c.dnsForwarded
  streakDays : s.streakDays = c.streakDays
  streakHours : s.streakHours = c.streakHours
  streakMinutes : s.streakMinutes = c.streakMinutes
  model : s.activeModel = if d.modelLoaded then ascii "YOLOv8n-NSFW" else ascii "Passthrough"
  milestone : s.currentMilestone = ascii "Dopamine Reset"
  lastEvent : s.lastEvent = d.lastEvent

/-- Whatever the counters are, the response to `STATUS` is read back without an
exception and as it was written. -/
def RoundTrips (d : Daemon) : Prop :=
  ∀ c, ∃ s, parseStatus stof (d.statusResponse stof showRatio c) = some s ∧ d.Agrees c s

theorem statusResponse_eq (d : Daemon) (c : Counters) :
    d.statusResponse stof showRatio c = d.statusText showRatio c := by
  have hparse : parseRequest (ascii "STATUS\n") = (ascii "STATUS", []) := by decide
  have hcommand : Command.ofText (ascii "STATUS") = some .status := by decide
  have hraw : ascii "STATUS\n" ≠ [] := by decide
  have hall : Key.all = Key.all.dropLast ++ [.lastEvent] := rfl
  have hlast : (d.statusText showRatio c).getLast? = some newline := by
    rw [statusText, hall, List.flatMap_append, List.flatMap_singleton, ← List.append_assoc,
      List.getLast?_concat]
  have hne : d.statusText showRatio c ≠ [] := by
    intro h
    rw [h] at hlast
    exact absurd hlast (by simp)
  simp only [statusResponse, serve, processPending, if_neg hraw, hparse, handle, hcommand,
    if_neg hne, hlast, if_true]

variable {showRatio} in
theorem newline_notMem_value (hshow : ∀ q, newline ∉ showRatio q) {d : Daemon}
    (hevent : newline ∉ d.lastEvent) (c : Counters) (key : Key) :
    newline ∉ d.value showRatio c key := by
  cases key
  case paused | model =>
    simp only [value]
    split_ifs <;> decide
  case paddingRatio => exact hshow _
  case milestone => exact (by decide : newline ∉ ascii "Dopamine Reset")
  case progress => exact (by decide : newline ∉ ascii "0.45")
  case lastEvent => exact hevent
  case streakDays | streakHours | streakMinutes => exact newline_notMem_showInt _
  all_goals exact newline_notMem_showNat _

/-- The status a client reads if nothing throws. -/
def readStatus (d : Daemon) (c : Counters) (ratio progress : ℚ) : DaemonStatus where
  running := true
  visualBlurPaused := d.visualBlurPaused
  activeBoxes := d.activeBoxCount
  fps := c.fps
  paddingRatio := ratio
  uptimeSeconds := c.uptime
  totalFrames := c.totalFrames
  dnsTotal := c.dnsTotal
  dnsBlocked := c.dnsBlocked
  dnsForwarded := c.dnsForwarded
  streakDays := c.streakDays
  streakHours := c.streakHours
  streakMinutes := c.streakMinutes
  activeModel := if d.modelLoaded then ascii "YOLOv8n-NSFW" else ascii "Passthrough"
  currentMilestone := ascii "Dopamine Reset"
  milestoneProgress := progress
  lastEvent := d.lastEvent

theorem agrees_readStatus (d : Daemon) (c : Counters) (ratio progress : ℚ) :
    d.Agrees c (d.readStatus c ratio progress) := by
  constructor <;> rfl

theorem paused_read (p : Bool) :
    ((if p then ascii "1" else ascii "0") == ascii "1" ||
      (if p then ascii "1" else ascii "0") == ascii "true") = p := by
  cases p <;> decide

/-- Field by field, only the floating-point values can throw. -/
theorem foldlM_value (d : Daemon) (c : Counters) :
    Key.all.foldlM (fun s key => setField stof s key (d.value showRatio c key))
        { running := true } =
      (stof (showRatio d.paddingRatio)).bind fun ratio =>
        (stof (ascii "0.45")).map fun progress => d.readStatus c ratio progress := by
  simp only [Key.all, List.foldlM_cons, List.foldlM_nil, setField, value, paused_read,
    stoull_showNat, stoull_showNat_toUInt64, stoi_showInt, Option.map_some,
    UInt32.toUInt32_toUInt64, Option.bind_eq_bind, Option.bind_some, Option.pure_def]
  cases stof (showRatio d.paddingRatio) with
  | none => rfl
  | some ratio => cases stof (ascii "0.45") <;> rfl

variable {stof showRatio}

theorem roundTrips_iff (hshow : ∀ q, newline ∉ showRatio q)
    (hprogress : (stof (ascii "0.45")).isSome) (d : Daemon) :
    d.RoundTrips stof showRatio ↔
      newline ∉ d.lastEvent ∧ (stof (showRatio d.paddingRatio)).isSome := by
  have hread (c : Counters) (hevent : newline ∉ d.lastEvent) :
      parseStatus stof (d.statusResponse stof showRatio c) =
        (stof (showRatio d.paddingRatio)).bind fun ratio =>
          (stof (ascii "0.45")).map fun progress => d.readStatus c ratio progress := by
    rw [statusResponse_eq, statusText,
      parseStatus_lines stof Key.all _ (newline_notMem_value hshow hevent c), foldlM_value]
  constructor
  · intro h
    obtain ⟨s, hs, hagrees⟩ := h {}
    have hevent : newline ∉ d.lastEvent := hagrees.lastEvent ▸ newline_notMem_lastEvent hs
    refine ⟨hevent, ?_⟩
    rw [hread {} hevent] at hs
    obtain ⟨ratio, hratio, -⟩ := Option.bind_eq_some_iff.mp hs
    rw [hratio, Option.isSome_some]
  · rintro ⟨hevent, hratio⟩ c
    obtain ⟨ratio, hratio⟩ := Option.isSome_iff_exists.mp hratio
    obtain ⟨progress, hprogress⟩ := Option.isSome_iff_exists.mp hprogress
    refine ⟨d.readStatus c ratio progress, ?_, d.agrees_readStatus c ratio progress⟩
    rw [hread c hevent, hratio, hprogress]
    rfl

/-! ### Runs -/

section

variable (stof showRatio)

/-- The text of a `RELAPSE` has no newline, and a ratio that `SET_PADDING` takes
is printed as text that `std::stof` takes again. -/
def cleanCommand (cmd args : Bytes) : Bool :=
  match Command.ofText cmd with
  | some .relapse => newline ∉ args
  | some .setPadding => (stof args).all fun ratio => (stof (showRatio ratio)).isSome
  | _ => true

def clean : Event → Bool
  | .request _ raw => cleanCommand stof showRatio (parseRequest raw).1 (parseRequest raw).2
  | _ => true

end

/-- A command leaves the last event free of newlines and the padding readable
exactly if it is clean. -/
theorem cleanCommand_iff {d : Daemon} (c : Counters) (cmd args : Bytes)
    (hevent : newline ∉ d.lastEvent) (hratio : (stof (showRatio d.paddingRatio)).isSome) :
    cleanCommand stof showRatio cmd args = true ↔
      newline ∉ (d.handle stof showRatio c cmd args).1.lastEvent ∧
        (stof (showRatio (d.handle stof showRatio c cmd args).1.paddingRatio)).isSome := by
  have hpause : newline ∉ ascii "Visual blur temporarily paused via CLI" := by decide
  have hresume : newline ∉ ascii "Visual blur resumed via CLI" := by decide
  have hstop : newline ∉ ascii "Daemon stop requested via CLI" := by decide
  rw [cleanCommand, handle]
  cases Command.ofText cmd with
  | none => exact iff_of_true rfl ⟨hevent, hratio⟩
  | some command =>
    cases command with
    | status => exact iff_of_true rfl ⟨hevent, hratio⟩
    | pause => exact iff_of_true rfl ⟨hpause, hratio⟩
    | resume => exact iff_of_true rfl ⟨hresume, hratio⟩
    | stop => exact iff_of_true rfl ⟨hstop, hratio⟩
    | setPadding =>
      cases stof args with
      | none => exact iff_of_true rfl ⟨hevent, hratio⟩
      | some ratio =>
        have htext : newline ∉ paddingEvent ratio := by
          simp only [paddingEvent, List.mem_append, not_or]
          exact ⟨⟨by decide, newline_notMem_showInt _⟩, by decide⟩
        exact ⟨fun h => ⟨htext, h⟩, fun h => h.2⟩
    | relapse =>
      have htext : newline ∉ ascii "Relapse logged: " ++ args ↔ newline ∉ args := by
        rw [List.mem_append, not_or]
        exact and_iff_right (by decide)
      rw [decide_eq_true_iff, ← htext]
      exact ⟨fun h => ⟨h, hratio⟩, fun h => h.1⟩

theorem clean_iff_roundTrips (hshow : ∀ q, newline ∉ showRatio q)
    (hprogress : (stof (ascii "0.45")).isSome) {d d' : Daemon} {e : Event}
    (hstep : step stof showRatio d e = some d') (h : d.RoundTrips stof showRatio) :
    clean stof showRatio e = true ↔ d'.RoundTrips stof showRatio := by
  rw [roundTrips_iff hshow hprogress] at h ⊢
  obtain ⟨hevent, hratio⟩ := h
  cases e with
  | request c raw =>
    simp only [step, Option.ite_none_right_eq_some, Option.some.injEq] at hstep
    obtain ⟨-, rfl⟩ := hstep
    rw [serve, processPending]
    split_ifs with hraw
    · rw [hraw]
      exact iff_of_true rfl ⟨hevent, hratio⟩
    · exact cleanCommand_iff c _ _ hevent hratio
  | frame f dets now =>
    obtain rfl := Option.some.inj hstep
    exact iff_of_true rfl ⟨hevent, hratio⟩
  | render boxes =>
    obtain rfl := Option.some.inj hstep
    refine iff_of_true rfl ?_
    simp only [render]
    split_ifs
    · exact ⟨hevent, hratio⟩
    · refine ⟨?_, hratio⟩
      simp only [List.mem_append, not_or]
      exact ⟨⟨by decide, newline_notMem_showNat _⟩, by decide⟩
    · exact ⟨hevent, hratio⟩

/-- In a run of the daemon, every state's `STATUS` comes back as it was written
exactly if every step of the run is clean. -/
theorem along_clean_iff_always_roundTrips (hshow : ∀ q, newline ∉ showRatio q)
    (hprogress : (stof (ascii "0.45")).isSome) (hstart : (stof (showRatio (35 / 100))).isSome)
    (modelLoaded : Bool) (events : List Event) :
    Runs.Along (step stof showRatio) (fun _ e => clean stof showRatio e = true)
        (initial modelLoaded) events ↔
      Runs.Always (step stof showRatio) (RoundTrips stof showRatio) (initial modelLoaded)
        events := by
  have hevent : newline ∉ ascii "Defense active and monitoring screen" := by decide
  have hinitial : (initial modelLoaded).RoundTrips stof showRatio :=
    (roundTrips_iff hshow hprogress _).mpr ⟨hevent, hstart⟩
  exact Runs.along_iff_always (I := fun _ => True) (fun _ _ _ _ _ => trivial)
    (fun _ _ _ hstep _ h => clean_iff_roundTrips hshow hprogress hstep h) trivial hinitial

theorem newline_notMem_plainShow (q : ℚ) : newline ∉ plainShow q := by
  have hsub : ∀ {p p' : UInt8 → Bool} {l : Bytes}, newline ∉ l →
      newline ∉ (l.rdropWhile p).rdropWhile p' := fun hl h =>
    hl ((List.rdropWhile_prefix _ _).subset ((List.rdropWhile_prefix _ _).subset h))
  have htext (n : ℕ) : newline ∉
      showNat (n / 100) ++ dot :: (showNat (n / 10 % 10) ++ showNat (n % 10)) := by
    simp only [List.mem_append, List.mem_cons, not_or]
    exact ⟨newline_notMem_showNat _, by decide, newline_notMem_showNat _, newline_notMem_showNat _⟩
  simp only [plainShow]
  split_ifs
  · rw [List.mem_cons, not_or]
    exact ⟨by decide, hsub (htext _)⟩
  · exact hsub (htext _)

/-- A day without newlines. -/
def quietEvents : List Event :=
  [.render 2, .request {} (ascii "SET_PADDING 0.5\n"), .request {} (ascii "RELAPSE late = bad\r\n")]

theorem quietEvents_roundTrip :
    Runs.Along (step plainStof plainShow) (fun _ e => clean plainStof plainShow e = true)
        (initial true) quietEvents ↔
      Runs.Always (step plainStof plainShow) (RoundTrips plainStof plainShow) (initial true)
        quietEvents :=
  along_clean_iff_always_roundTrips newline_notMem_plainShow (by decide +kernel)
    (by decide +kernel) true quietEvents

/-- A newline in the text of a relapse starts a line that is no number. -/
theorem relapse_breaks_status :
    ∃ d, Runs.exec (step plainStof plainShow) (initial true)
        [.request {} (ascii "RELAPSE a\nfps=x\n")] = some d ∧
      (parseStatus plainStof (d.statusResponse plainStof plainShow {})).isNone :=
  ⟨_, rfl, by decide +kernel⟩

end Daemon

end Degoonification.Ipc
