import Degoonification.Ipc.RoundTrip

/-! `IpcClient::send_command` against the daemon. The request travels as a line, and
the server cuts it at its buffer, at a NUL and at trailing blanks; the response comes
back in pieces of any size, each of which the client takes as a C string. Words
without NUL bytes that fit arrive as they were sent, and no response of the daemon
has a NUL in it. -/

namespace Degoonification.Ipc

/-- The message `send_command` writes. -/
def requestText (command : Bytes) : Bytes :=
  if command.getLast? = some newline then command else command ++ [newline]

/-- The loop over `read`: `chunk` says how many bytes more than one the read at each
position delivers at most, and a piece ends at its first NUL. -/
def readResponse (chunk : ℕ → ℕ) (pos : ℕ) (rest : Bytes) : Bytes :=
  if rest = [] then []
  else
    let n := min (chunk pos + 1) 4095
    (rest.take n).takeWhile (· ≠ 0) ++ readResponse chunk (pos + n) (rest.drop n)
termination_by rest.length
decreasing_by
  rw [List.length_drop]
  have := List.length_pos_of_ne_nil ‹_›
  omega

/-- Without a NUL the pieces make up the whole, however they were cut. -/
theorem readResponse_eq (chunk : ℕ → ℕ) (pos : ℕ) {resp : Bytes} (h : 0 ∉ resp) :
    readResponse chunk pos resp = resp := by
  induction pos, resp using readResponse.induct chunk with
  | case1 pos => rw [readResponse, if_pos rfl]
  | case2 pos resp hne n ih =>
    have hpiece : (resp.take n).takeWhile (· ≠ 0) = resp.take n := by
      refine List.takeWhile_eq_self_iff.mpr fun c hc => decide_eq_true ?_
      rintro rfl
      exact h (List.mem_of_mem_take hc)
    have hrest : 0 ∉ resp.drop n := fun hmem => h (List.mem_of_mem_drop hmem)
    rw [readResponse, if_neg hne]
    dsimp only
    rw [hpiece, ih hrest, List.take_append_drop]

/-! ### Requests -/

/-- The words of a request: a command of the handler and its text. -/
def words (command : Command) (args : Bytes) : Bytes := command.text ++ 32 :: args

/-- Text that survives the way: no NUL, no blank at the end, and room in the buffer. -/
structure Deliverable (command : Command) (args : Bytes) : Prop where
  noNul : 0 ∉ args
  noTrail : ∀ c ∈ args.getLast?, isTrailing c = false
  fits : command.text.length + 1 + args.length ≤ 2047

theorem text_clean (command : Command) :
    command.text ≠ [] ∧ command.text.length ≤ 11 ∧
      ∀ c ∈ command.text, c ≠ 0 ∧ c ≠ 32 ∧ isTrailing c = false := by
  cases command <;> decide +kernel

theorem rdropWhile_eq_self {p : UInt8 → Bool} {l : Bytes} (h : ∀ c ∈ l.getLast?, p c = false) :
    l.rdropWhile p = l := by
  refine List.rdropWhile_eq_self_iff.mpr fun hne hp => ?_
  have hlast := h (l.getLast hne) (by rw [List.getLast?_eq_some_getLast hne]; rfl)
  rw [hp] at hlast
  cases hlast

/-- What is left of a request in the buffer: no NUL, no blank at the end. -/
theorem parseRequest_cases (raw : Bytes) : ∃ req : Bytes, req.length ≤ 2047 ∧ 0 ∉ req ∧
    (∀ c ∈ req.getLast?, isTrailing c = false) ∧
    parseRequest raw =
      if 32 ∈ req then (req.takeWhile (· ≠ 32), (req.dropWhile (· ≠ 32)).tail) else (req, []) := by
  refine ⟨((raw.take 2047).takeWhile (· ≠ 0)).rdropWhile isTrailing, ?_, ?_, ?_, rfl⟩
  · refine (List.rdropWhile_prefix _ _).length_le.trans ?_
    refine (List.takeWhile_prefix _).length_le.trans ?_
    rw [List.length_take]
    exact min_le_left _ _
  · intro h0
    have hne := List.mem_takeWhile_imp ((List.rdropWhile_prefix _ _).subset h0)
    exact absurd rfl (of_decide_eq_true hne)
  · intro c hc
    have hne := List.ne_nil_of_mem (List.mem_of_getLast? hc)
    rw [List.getLast?_eq_some_getLast hne] at hc
    obtain rfl := Option.some.inj hc
    exact Bool.eq_false_iff.mpr (List.rdropWhile_last_not _ _ hne)

/-- A text taken apart at its first space. -/
theorem takeWhile_append_tail {c : UInt8} {l : Bytes} (h : c ∈ l) :
    l.takeWhile (· ≠ c) ++ c :: (l.dropWhile (· ≠ c)).tail = l := by
  induction l with
  | nil => cases h
  | cons d l ih =>
    by_cases hd : d = c
    · simp [hd]
    · have hmem : c ∈ l := (List.mem_cons.mp h).resolve_left (Ne.symm hd)
      simpa [hd] using ih hmem

/-- Words that reach the handler were deliverable. -/
theorem deliverable_of_parseRequest {raw args : Bytes} {command : Command}
    (h : parseRequest raw = (command.text, args)) : Deliverable command args := by
  obtain ⟨req, hlen, hnul, hlast, hreq⟩ := parseRequest_cases raw
  obtain ⟨-, hshort, -⟩ := text_clean command
  rw [hreq] at h
  split_ifs at h with hspace
  · obtain ⟨hcmd, hargs⟩ := Prod.mk.inj h
    have hsplit := takeWhile_append_tail hspace
    rw [hcmd, hargs] at hsplit
    rw [← hsplit] at hlen hnul hlast
    refine ⟨fun h0 => hnul (by simp [h0]), fun c hc => hlast c ?_, ?_⟩
    · rw [List.getLast?_append, List.getLast?_cons, Option.mem_def.mp hc]
      rfl
    · rw [List.length_append, List.length_cons] at hlen
      omega
  · obtain ⟨-, rfl⟩ := Prod.mk.inj h
    refine ⟨List.not_mem_nil, (fun _ hc => nomatch hc), ?_⟩
    rw [List.length_nil]
    omega

theorem rdropWhile_append (p : UInt8 → Bool) (l m : Bytes) :
    (l ++ m).rdropWhile p =
      if m.rdropWhile p = [] then l.rdropWhile p else l ++ m.rdropWhile p := by
  simp only [List.rdropWhile, List.reverse_append, List.dropWhile_append, List.isEmpty_iff,
    List.reverse_eq_nil_iff]
  split_ifs <;> simp

/-- A request that opens with a command is that command, with what the buffer, the first
NUL and the trailing blanks leave of the rest. -/
theorem parseRequest_words (command : Command) (rest : Bytes) :
    parseRequest (command.text ++ 32 :: rest) = (command.text,
      ((rest.take (2046 - command.text.length)).takeWhile (· ≠ 0)).rdropWhile isTrailing) := by
  obtain ⟨hne, hshort, hclean⟩ := text_clean command
  have htake : (command.text ++ 32 :: rest).take 2047 =
      command.text ++ 32 :: rest.take (2046 - command.text.length) := by
    rw [List.take_append, List.take_of_length_le (by omega),
      show 2047 - command.text.length = (2046 - command.text.length) + 1 by omega,
      List.take_succ_cons]
  have hnul (u : Bytes) : (command.text ++ 32 :: u).takeWhile (· ≠ 0) =
      command.text ++ 32 :: u.takeWhile (· ≠ 0) := by
    rw [List.takeWhile_append_of_pos fun c hc => decide_eq_true (hclean c hc).1,
      List.takeWhile_cons_of_pos (by decide)]
  have hkeep : command.text.rdropWhile isTrailing = command.text :=
    rdropWhile_eq_self fun c hc => (hclean c (List.mem_of_getLast? hc)).2.2
  have hword : ∀ c ∈ command.text, (decide (c ≠ 32)) = true := fun c hc =>
    decide_eq_true (hclean c hc).2.1
  have hspace : 32 ∉ command.text := fun h => (hclean 32 h).2.1 rfl
  simp only [parseRequest, htake, hnul]
  generalize (rest.take (2046 - command.text.length)).takeWhile (· ≠ 0) = u
  have hblank : ([32] : Bytes).rdropWhile isTrailing = [] := by decide
  have hsplit : command.text ++ 32 :: u = command.text ++ ([32] ++ u) := rfl
  rw [hsplit, rdropWhile_append, rdropWhile_append _ [32]]
  by_cases hnil : u.rdropWhile isTrailing = []
  · rw [if_pos hnil, hblank, if_pos rfl, hkeep, if_neg hspace, hnil]
  · have hmem : 32 ∈ command.text ++ 32 :: u.rdropWhile isTrailing :=
      List.mem_append_right _ List.mem_cons_self
    rw [if_neg hnil, List.singleton_append, if_neg (List.cons_ne_nil _ _), if_pos hmem,
      List.takeWhile_append_of_pos hword, List.takeWhile_cons_of_neg (by decide),
      List.dropWhile_append_of_pos hword, List.dropWhile_cons_of_neg (by decide),
      List.append_nil, List.tail_cons]

theorem parseRequest_requestText (command : Command) (args : Bytes) :
    ∃ args', parseRequest (requestText (words command args)) = (command.text, args') ∧
      (args' = args ↔ Deliverable command args) := by
  obtain ⟨rest, hrest⟩ : ∃ rest, requestText (words command args) = command.text ++ 32 :: rest := by
    rw [requestText]
    split_ifs
    · exact ⟨args, rfl⟩
    · exact ⟨args ++ [newline], by simp [words]⟩
  have hparse := parseRequest_words command rest
  rw [← hrest] at hparse
  refine ⟨_, hparse, fun h => deliverable_of_parseRequest (h ▸ hparse), fun h => ?_⟩
  have hlast : (words command args).getLast? ≠ some newline := by
    rw [words, List.getLast?_append, List.getLast?_cons, Option.some_or]
    cases hargs : args.getLast? with
    | none => decide
    | some c =>
      intro hc
      obtain rfl : c = newline := Option.some.inj hc
      exact absurd (h.noTrail _ hargs) (by decide)
  rw [requestText, if_neg hlast, words, List.append_assoc, List.append_cancel_left_eq,
    List.cons_append, List.cons.injEq, and_iff_right rfl] at hrest
  have hfits := h.fits
  rw [← hrest, List.take_append, List.take_of_length_le (by omega)]
  have hself : ∀ v : Bytes, v <+: [newline] →
      ((args ++ v).takeWhile (· ≠ 0)).rdropWhile isTrailing = args := by
    intro v hv
    have hmem : ∀ c ∈ v, c = newline := fun c hc => List.mem_singleton.mp (hv.subset hc)
    have hnul : (args ++ v).takeWhile (· ≠ 0) = args ++ v := by
      refine List.takeWhile_eq_self_iff.mpr fun c hc => decide_eq_true ?_
      rintro rfl
      obtain hc | hc := List.mem_append.mp hc
      · exact h.noNul hc
      · exact absurd (hmem 0 hc) (by decide)
    rw [hnul, rdropWhile_append, if_pos (List.rdropWhile_eq_nil_iff.mpr fun c hc => by
      rw [hmem c hc]; decide), rdropWhile_eq_self h.noTrail]
  exact hself _ (List.take_prefix _ _)

/-! ### Responses -/

theorem nul_notMem_parseRequest (raw : Bytes) :
    0 ∉ (parseRequest raw).1 ∧ 0 ∉ (parseRequest raw).2 := by
  obtain ⟨req, -, hnul, -, hreq⟩ := parseRequest_cases raw
  rw [hreq]
  split_ifs
  · exact ⟨fun h => hnul ((List.takeWhile_prefix _).subset h),
      fun h => hnul ((List.dropWhile_suffix _).subset (List.mem_of_mem_tail h))⟩
  · exact ⟨hnul, List.not_mem_nil⟩

theorem nul_notMem_showNat (n : ℕ) : 0 ∉ showNat n := by
  intro h
  exact absurd (Decimal.isDigit_of_mem_digits h) (by decide)

theorem nul_notMem_showInt (i : ℤ) : 0 ∉ showInt i := by
  rw [showInt]
  split_ifs
  · rw [List.mem_cons, not_or]
    exact ⟨by decide, nul_notMem_showNat _⟩
  · exact nul_notMem_showNat _

namespace Daemon

variable (stof : Bytes → Option ℚ) (showRatio : ℚ → Bytes)

theorem getLast?_statusText (d : Daemon) (c : Counters) :
    (d.statusText showRatio c).getLast? = some newline := by
  have hall : Key.all = Key.all.dropLast ++ [.lastEvent] := rfl
  rw [statusText, hall, List.flatMap_append, List.flatMap_singleton, ← List.append_assoc,
    List.getLast?_concat]

variable {showRatio} in
theorem nul_notMem_statusText (hshow : ∀ q, 0 ∉ showRatio q) {d : Daemon}
    (hd : 0 ∉ d.lastEvent) (c : Counters) : 0 ∉ d.statusText showRatio c := by
  have hvalue (key : Key) : 0 ∉ d.value showRatio c key := by
    cases key
    case paused | model =>
      simp only [value]
      split_ifs <;> decide
    case paddingRatio => exact hshow _
    case milestone => exact (by decide : 0 ∉ ascii "Dopamine Reset")
    case progress => exact (by decide : 0 ∉ ascii "0.45")
    case lastEvent => exact hd
    case streakDays | streakHours | streakMinutes => exact nul_notMem_showInt _
    all_goals exact nul_notMem_showNat _
  intro h
  obtain ⟨key, -, hkey⟩ := List.mem_flatMap.mp h
  have htext : 0 ∉ key.text := by cases key <;> decide
  simp only [line, List.mem_append, List.mem_cons, List.not_mem_nil, or_false] at hkey
  obtain (hkey | hkey | hkey) | hkey := hkey
  · exact htext hkey
  · exact absurd hkey (by decide)
  · exact hvalue key hkey
  · exact absurd hkey (by decide)

/-- `send_command` while the daemon serves it, with the pieces its response comes in. -/
def sendCommand (d : Daemon) (c : Counters) (chunk : ℕ → ℕ) (command : Bytes) : Daemon × Bytes :=
  let (d, resp) := d.serve stof showRatio c (requestText command)
  (d, readResponse chunk 0 resp)

variable {stof showRatio}

/-- The events of the handler quote text of requests, and it has no NUL. -/
theorem nul_notMem_lastEvent_handle {d : Daemon} (hd : 0 ∉ d.lastEvent) (c : Counters)
    {cmd args : Bytes} (hargs : 0 ∉ args) :
    0 ∉ (d.handle stof showRatio c cmd args).1.lastEvent := by
  rw [handle]
  split
  · exact hd
  · exact (by decide : 0 ∉ ascii "Visual blur temporarily paused via CLI")
  · exact (by decide : 0 ∉ ascii "Visual blur resumed via CLI")
  · split
    · simp only [paddingEvent, List.mem_append, not_or]
      exact ⟨⟨by decide, nul_notMem_showInt _⟩, by decide⟩
    · exact hd
  · rw [List.mem_append, not_or]
    exact ⟨by decide, hargs⟩
  · exact (by decide : 0 ∉ ascii "Daemon stop requested via CLI")
  · exact hd

theorem nul_notMem_step {d d' : Daemon} {e : Event} (hstep : step stof showRatio d e = some d')
    (hd : 0 ∉ d.lastEvent) : 0 ∉ d'.lastEvent := by
  cases e with
  | request c raw =>
    simp only [step, Option.ite_none_right_eq_some, Option.some.injEq] at hstep
    obtain ⟨-, rfl⟩ := hstep
    rw [serve, processPending]
    split_ifs
    · exact hd
    · exact nul_notMem_lastEvent_handle hd c (nul_notMem_parseRequest raw).2
  | frame f dets now =>
    obtain rfl := Option.some.inj hstep
    exact hd
  | render boxes =>
    obtain rfl := Option.some.inj hstep
    simp only [render]
    split_ifs
    · exact hd
    · simp only [List.mem_append, not_or]
      exact ⟨⟨by decide, nul_notMem_showNat _⟩, by decide⟩
    · exact hd

/-- The response depends on the command alone, `STATUS` apart. -/
theorem snd_handle (d : Daemon) (c : Counters) (cmd args : Bytes) :
    (d.handle stof showRatio c cmd args).2 =
      match Command.ofText cmd with
      | some .status => d.statusText showRatio c
      | some _ => ascii "OK\n"
      | none => ascii "UNKNOWN_COMMAND\n" := by
  rw [handle]
  cases Command.ofText cmd with
  | none => rfl
  | some command =>
    cases command with
    | setPadding => cases stof args <;> rfl
    | _ => rfl

/-- Every response of the handler ends a line, so the server adds nothing to it. -/
theorem getLast?_handle (d : Daemon) (c : Counters) (cmd args : Bytes) :
    (d.handle stof showRatio c cmd args).2.getLast? = some newline := by
  rw [snd_handle]
  split
  · exact getLast?_statusText showRatio d c
  · decide
  · decide

theorem nul_notMem_handle (hshow : ∀ q, 0 ∉ showRatio q) {d : Daemon} (hd : 0 ∉ d.lastEvent)
    (c : Counters) (cmd args : Bytes) : 0 ∉ (d.handle stof showRatio c cmd args).2 := by
  rw [snd_handle]
  split
  · exact nul_notMem_statusText hshow hd c
  · decide
  · decide

/-- A request that is not empty is one call of the handler. -/
theorem serve_eq (d : Daemon) (c : Counters) {raw : Bytes} (hraw : raw ≠ []) :
    d.serve stof showRatio c raw =
      d.handle stof showRatio c (parseRequest raw).1 (parseRequest raw).2 := by
  have hlast := @getLast?_handle stof showRatio d c (parseRequest raw).1 (parseRequest raw).2
  have hne : (d.handle stof showRatio c (parseRequest raw).1 (parseRequest raw).2).2 ≠ [] := by
    intro hnil
    rw [hnil] at hlast
    cases hlast
  rw [serve, processPending, if_neg hraw]
  simp only [if_neg hne, hlast, if_true]

theorem requestText_ne_nil (command : Bytes) : requestText command ≠ [] := by
  rw [requestText]
  split_ifs with h
  · rintro rfl
    cases h
  · simp

/-- As long as the daemon runs and however the response is cut up, a command of a client
is one call of the handler for that command, which the run goes on from, and comes back
with its response; the text behind the command is the client's exactly where that is
deliverable. -/
theorem sendCommand_spec (hshow : ∀ q, 0 ∉ showRatio q) {modelLoaded : Bool} {events : List Event}
    {d : Daemon} (hrun : Runs.exec (step stof showRatio) (initial modelLoaded) events = some d)
    (hrunning : d.running = true) (c : Counters) (chunk : ℕ → ℕ) (command : Command)
    (args : Bytes) :
    ∃ args', d.sendCommand stof showRatio c chunk (words command args) =
        d.handle stof showRatio c command.text args' ∧
      step stof showRatio d (.request c (requestText (words command args))) =
        some (d.handle stof showRatio c command.text args').1 ∧
      (args' = args ↔ Deliverable command args) := by
  have hevent : 0 ∉ d.lastEvent :=
    Runs.exec_invariant (I := fun d => 0 ∉ d.lastEvent) (fun _ _ _ => nul_notMem_step)
      (by decide : 0 ∉ ascii "Defense active and monitoring screen") hrun
  obtain ⟨args', hparse, hargs⟩ := parseRequest_requestText command args
  have hserve := @serve_eq stof showRatio d c _ (requestText_ne_nil (words command args))
  rw [hparse] at hserve
  refine ⟨args', ?_, ?_, hargs⟩
  · rw [sendCommand, hserve]
    exact Prod.ext rfl (readResponse_eq chunk 0 (nul_notMem_handle hshow hevent c _ _))
  · rw [step, if_pos hrunning, hserve]

theorem nul_notMem_plainShow (q : ℚ) : 0 ∉ plainShow q := by
  have hsub : ∀ {p p' : UInt8 → Bool} {l : Bytes}, 0 ∉ l → 0 ∉ (l.rdropWhile p).rdropWhile p' :=
    fun hl h => hl ((List.rdropWhile_prefix _ _).subset ((List.rdropWhile_prefix _ _).subset h))
  have htext (n : ℕ) :
      0 ∉ showNat (n / 100) ++ dot :: (showNat (n / 10 % 10) ++ showNat (n % 10)) := by
    simp only [List.mem_append, List.mem_cons, not_or]
    exact ⟨nul_notMem_showNat _, by decide, nul_notMem_showNat _, nul_notMem_showNat _⟩
  simp only [plainShow]
  split_ifs
  · rw [List.mem_cons, not_or]
    exact ⟨by decide, hsub (htext _)⟩
  · exact hsub (htext _)

/-- A relapse with a NUL in its text, its response cut into pieces of two bytes. -/
theorem sendCommand_spec_relapse :
    ∃ d, Runs.exec (step plainStof plainShow) (initial true) quietEvents = some d ∧
      ∃ args', d.sendCommand plainStof plainShow {} (fun _ => 1) (words .relapse [97, 0, 98]) =
          d.handle plainStof plainShow {} Command.relapse.text args' ∧
        step plainStof plainShow d (.request {} (requestText (words .relapse [97, 0, 98]))) =
          some (d.handle plainStof plainShow {} Command.relapse.text args').1 ∧
        (args' = [97, 0, 98] ↔ Deliverable .relapse [97, 0, 98]) :=
  ⟨_, rfl, @sendCommand_spec plainStof plainShow nul_notMem_plainShow true quietEvents _ rfl
    (by decide +kernel) {} (fun _ => 1) .relapse [97, 0, 98]⟩

end Daemon

end Degoonification.Ipc
