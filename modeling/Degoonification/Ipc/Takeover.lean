import Degoonification.Ipc.Status
import Degoonification.Library.Runs

/-! Servers that share socket paths: `init` and `stop` of `IpcServer` call by call, in
any interleaving, with processes that end at any point. A server removes whatever
has its name before it binds, and removes the name again when it stops, whoever it
belongs to by then. The name it binds is that of the path as far as `sun_path` holds
it, and the name it removes is that of the whole path. Which paths lead to one file is
a matter of the file system, and left open. -/

namespace Degoonification.Ipc

def getSocketPath (xdgRuntime : Option Bytes) (uid : ℕ) : Bytes :=
  match xdgRuntime with
  | some (c :: dir) => c :: dir ++ ascii "/degoon.sock"
  | _ => ascii "/tmp/degoon_" ++ Decimal.digits uid ++ ascii ".sock"

/-- What `strncpy` leaves of a path in `sun_path`. -/
def sunPath (path : Bytes) : Bytes := path.take 107

/-- A socket, by the server that made it and a number of its own. -/
structure Socket where
  server : ℕ
  number : ℕ
deriving DecidableEq

/-- Where a server stands: before `init`, after its `unlink`, `socket`, `bind` and
`listen`, and between the `close` and the `unlink` of `stop`. -/
inductive ServerPhase where
  | idle | cleared
  | opened (s : Socket)
  | bound (s : Socket)
  | listening (s : Socket)
  | closed
deriving DecidableEq

namespace ServerPhase

/-- The socket `server_fd_` is open on. -/
def serverFd : ServerPhase → Option Socket
  | opened s | bound s | listening s => some s
  | idle | cleared | closed => none

/-- The socket that was bound and is still open. -/
def held : ServerPhase → Option Socket
  | bound s | listening s => some s
  | idle | cleared | opened _ | closed => none

end ServerPhase

/-- The file that each path leads to, in directories that stay as they are, and the
path of each server. -/
structure Paths (File : Type*) where
  file : Bytes → File
  socketPath : ℕ → Bytes

namespace Paths

variable {File : Type*}

/-- The file whose name `bind` takes. -/
def bound (p : Paths File) (d : ℕ) : File := p.file (sunPath (p.socketPath d))

/-- The file whose name `unlink` removes. -/
def whole (p : Paths File) (d : ℕ) : File := p.file (p.socketPath d)

end Paths

/-- The names of sockets in the file system and the servers. -/
structure Servers (File : Type*) where
  names : File → Option Socket := fun _ => none
  phase : ℕ → ServerPhase := fun _ => .idle
  made : ℕ := 0

/-- The system calls of a server, with their success where it is open; at `exit` the
process ends wherever it is. -/
inductive Call where
  | unlinkStale
  | socket (ok : Bool)
  | bind (ok : Bool)
  | listen (ok : Bool)
  | close | unlinkOwn | exit

namespace Servers

variable {File : Type*} [DecidableEq File]

def goto (w : Servers File) (d : ℕ) (phase : ServerPhase) : Servers File :=
  { w with phase := Function.update w.phase d phase }

def unlink (w : Servers File) (f : File) : Servers File :=
  { w with names := Function.update w.names f none }

def link (w : Servers File) (f : File) (s : Socket) : Servers File :=
  { w with names := Function.update w.names f (some s) }

variable (p : Paths File)

def perform (w : Servers File) (d : ℕ) : Call → Option (Servers File)
  | .unlinkStale =>
    match w.phase d with
    | .idle => some ((w.unlink (p.whole d)).goto d .cleared)
    | _ => none
  | .socket ok =>
    match w.phase d with
    | .cleared =>
      if ok then some ({ w with made := w.made + 1 }.goto d (.opened ⟨d, w.made⟩))
      else some (w.goto d .idle)
    | _ => none
  | .bind ok =>
    match w.phase d with
    | .opened s =>
      if ok ∧ w.names (p.bound d) = none then
        some ((w.link (p.bound d) s).goto d (.bound s))
      else some (w.goto d .idle)
    | _ => none
  | .listen ok =>
    match w.phase d with
    | .bound s => if ok then some (w.goto d (.listening s)) else some (w.goto d .idle)
    | _ => none
  | .close =>
    match w.phase d with
    | .listening _ => some (w.goto d .closed)
    | _ => none
  | .unlinkOwn =>
    match w.phase d with
    | .closed => some ((w.unlink (p.whole d)).goto d .idle)
    | _ => none
  | .exit => some (w.goto d .idle)

/-- A call of one of the servers. -/
def step (w : Servers File) (e : ℕ × Call) : Option (Servers File) := w.perform p e.1 e.2

/-- The server that takes a connection to a path. -/
def answers (w : Servers File) (path : Bytes) : Option ℕ :=
  (w.names (p.file (sunPath path))).bind fun s =>
    if w.phase s.server = .listening s then some s.server else none

def isDaemonRunning (w : Servers File) (path : Bytes) : Bool := (w.answers p path).isSome

/-! ### What a step can do -/

/-- The steps, one case for each outcome. -/
inductive Step (w : Servers File) (d : ℕ) : Call → Servers File → Prop where
  | unlinkStale (hphase : w.phase d = .idle) :
      Step w d .unlinkStale ((w.unlink (p.whole d)).goto d .cleared)
  | socket (hphase : w.phase d = .cleared) :
      Step w d (.socket true) ({ w with made := w.made + 1 }.goto d (.opened ⟨d, w.made⟩))
  | bind {s : Socket} (hphase : w.phase d = .opened s)
      (hfree : w.names (p.bound d) = none) :
      Step w d (.bind true) ((w.link (p.bound d) s).goto d (.bound s))
  | listen {s : Socket} (hphase : w.phase d = .bound s) :
      Step w d (.listen true) (w.goto d (.listening s))
  | close {s : Socket} (hphase : w.phase d = .listening s) : Step w d .close (w.goto d .closed)
  | unlinkOwn (hphase : w.phase d = .closed) :
      Step w d .unlinkOwn ((w.unlink (p.whole d)).goto d .idle)
  | fails {call : Call} (hcall : call ≠ .unlinkStale ∧ call ≠ .unlinkOwn) :
      Step w d call (w.goto d .idle)

variable {p}

theorem perform_cases {w w' : Servers File} {d : ℕ} {call : Call}
    (h : perform p w d call = some w') : Step p w d call w' := by
  cases call with
  | unlinkStale =>
    simp only [perform] at h
    split at h
    · obtain rfl := Option.some.inj h
      exact .unlinkStale ‹_›
    · cases h
  | socket ok =>
    simp only [perform] at h
    split at h
    · split_ifs at h with hok
      · obtain rfl := Option.some.inj h
        exact hok ▸ .socket ‹_›
      · obtain rfl := Option.some.inj h
        exact .fails ⟨nofun, nofun⟩
    · cases h
  | bind ok =>
    simp only [perform] at h
    split at h
    · split_ifs at h with hok
      · obtain rfl := Option.some.inj h
        exact hok.1 ▸ .bind ‹_› hok.2
      · obtain rfl := Option.some.inj h
        exact .fails ⟨nofun, nofun⟩
    · cases h
  | listen ok =>
    simp only [perform] at h
    split at h
    · split_ifs at h with hok
      · obtain rfl := Option.some.inj h
        exact hok ▸ .listen ‹_›
      · obtain rfl := Option.some.inj h
        exact .fails ⟨nofun, nofun⟩
    · cases h
  | close =>
    simp only [perform] at h
    split at h
    · obtain rfl := Option.some.inj h
      exact .close ‹_›
    · cases h
  | unlinkOwn =>
    simp only [perform] at h
    split at h
    · obtain rfl := Option.some.inj h
      exact .unlinkOwn ‹_›
    · cases h
  | exit =>
    simp only [perform] at h
    obtain rfl := Option.some.inj h
    exact .fails ⟨nofun, nofun⟩

/-! ### Names and owners -/

omit [DecidableEq File] in
@[simp] theorem names_goto (w : Servers File) (d : ℕ) (phase : ServerPhase) :
    (w.goto d phase).names = w.names := rfl

@[simp] theorem names_unlink_self (w : Servers File) (f : File) :
    (w.unlink f).names f = none := Function.update_self ..

theorem names_unlink_of_ne (w : Servers File) {f n : File} (h : n ≠ f) :
    (w.unlink f).names n = w.names n := Function.update_of_ne h ..

@[simp] theorem names_link_self (w : Servers File) (f : File) (s : Socket) :
    (w.link f s).names f = some s := Function.update_self ..

theorem names_link_of_ne (w : Servers File) {f n : File} (h : n ≠ f) (s : Socket) :
    (w.link f s).names n = w.names n := Function.update_of_ne h ..

omit [DecidableEq File] in
@[simp] theorem phase_goto_self (w : Servers File) (d : ℕ) (phase : ServerPhase) :
    (w.goto d phase).phase d = phase := Function.update_self ..

omit [DecidableEq File] in
theorem phase_goto_of_ne (w : Servers File) {d d' : ℕ} (h : d' ≠ d) (phase : ServerPhase) :
    (w.goto d phase).phase d' = w.phase d' := Function.update_of_ne h ..

/-- A descriptor is open on a socket of its own server. -/
def OwnSockets (w : Servers File) : Prop :=
  ∀ d s, (w.phase d).serverFd = some s → s.server = d

/-- A name leads to a socket that its server bound there. -/
def Named (p : Paths File) (w : Servers File) : Prop :=
  ∀ n s, w.names n = some s → p.bound s.server = n

/-- Every server that has bound its socket is what its path leads to. -/
def KeepsNames (p : Paths File) (w : Servers File) : Prop :=
  ∀ d s, (w.phase d).held = some s → w.names (p.bound d) = some s

/-- The call does not remove a name that another server has bound. -/
def Undisturbing (p : Paths File) (w : Servers File) : ℕ × Call → Prop
  | (d, .unlinkStale) | (d, .unlinkOwn) =>
    ∀ d' s, (w.phase d').held = some s → p.bound d' ≠ p.whole d
  | _ => True

omit [DecidableEq File] in
theorem OwnSockets.goto {w : Servers File} (hw : OwnSockets w) {d : ℕ} {phase : ServerPhase}
    (hphase : ∀ s, phase.serverFd = some s → s.server = d) : OwnSockets (w.goto d phase) := by
  intro d' s hs
  by_cases hd : d' = d
  · subst hd
    rw [phase_goto_self] at hs
    exact hphase s hs
  · rw [phase_goto_of_ne w hd] at hs
    exact hw d' s hs

theorem ownSockets_step {w w' : Servers File} {d : ℕ} {call : Call}
    (hstep : perform p w d call = some w') (hw : OwnSockets w) : OwnSockets w' := by
  have hheld : ∀ {s : Socket}, (w.phase d).serverFd = some s → s.server = d := hw d _
  cases perform_cases hstep with
  | unlinkStale | close | unlinkOwn | fails => exact OwnSockets.goto hw nofun
  | socket =>
    refine OwnSockets.goto hw fun s hs => ?_
    obtain rfl := Option.some.inj hs
    rfl
  | bind hphase | listen hphase =>
    rw [hphase] at hheld
    refine OwnSockets.goto hw fun s hs => hheld hs

omit [DecidableEq File] in
theorem KeepsNames.goto {w : Servers File} (hw : KeepsNames p w) {d : ℕ}
    {phase : ServerPhase}
    (hphase : ∀ s, phase.held = some s → w.names (p.bound d) = some s) :
    KeepsNames p (w.goto d phase) := by
  intro d' s hs
  by_cases hd : d' = d
  · subst hd
    rw [phase_goto_self] at hs
    exact hphase s hs
  · rw [phase_goto_of_ne w hd] at hs
    exact hw d' s hs

/-- A name that leads nowhere is no server's, so binding it takes it from none. -/
theorem KeepsNames.link {w : Servers File} (hw : KeepsNames p w) {f : File}
    (hfree : w.names f = none) (s : Socket) : KeepsNames p (w.link f s) := by
  intro d t ht
  have hname := hw d t ht
  have hne : p.bound d ≠ f := by
    rintro rfl
    rw [hfree] at hname
    cases hname
  rw [names_link_of_ne w hne]
  exact hname

/-- A server that holds no socket removes its path and harms nobody, or takes the
name of whoever has bound it. -/
theorem undisturbed_iff_unlink {w : Servers File} (hw : KeepsNames p w) {d : ℕ}
    {phase : ServerPhase} (hd : (w.phase d).held = none) (hphase : phase.held = none) :
    (∀ d' s, (w.phase d').held = some s → p.bound d' ≠ p.whole d) ↔
      KeepsNames p ((w.unlink (p.whole d)).goto d phase) := by
  constructor
  · intro h
    refine KeepsNames.goto (fun d' s hs => ?_) fun s hs => ?_
    · rw [names_unlink_of_ne w (h d' s hs)]
      exact hw d' s hs
    · rw [hphase] at hs
      cases hs
  · intro h d' s hs heq
    have hne : d' ≠ d := by
      rintro rfl
      rw [hd] at hs
      cases hs
    have hname := h d' s (by rwa [phase_goto_of_ne _ hne])
    rw [names_goto, heq, names_unlink_self] at hname
    cases hname

theorem undisturbing_iff_keepsNames {w w' : Servers File} {d : ℕ} {call : Call}
    (hstep : perform p w d call = some w') (hw : KeepsNames p w) :
    Undisturbing p w (d, call) ↔ KeepsNames p w' := by
  have hheld : ∀ {s : Socket}, (w.phase d).held = some s →
      w.names (p.bound d) = some s := hw d _
  cases perform_cases hstep with
  | unlinkStale hphase => exact undisturbed_iff_unlink hw (by rw [hphase]; rfl) rfl
  | unlinkOwn hphase => exact undisturbed_iff_unlink hw (by rw [hphase]; rfl) rfl
  | socket | close => exact iff_of_true trivial (KeepsNames.goto hw nofun)
  | bind hphase hfree =>
    refine iff_of_true trivial (KeepsNames.goto (hw.link hfree _) fun t ht => ?_)
    exact (names_link_self ..).trans ht
  | listen hphase =>
    rw [hphase] at hheld
    exact iff_of_true trivial (hw.goto fun s hs => hheld hs)
  | fails hcall =>
    refine iff_of_true ?_ (hw.goto nofun)
    cases call with
    | unlinkStale => exact absurd rfl hcall.1
    | unlinkOwn => exact absurd rfl hcall.2
    | _ => trivial

theorem Named.unlink {w : Servers File} (hw : Named p w) (f : File) :
    Named p (w.unlink f) := by
  intro n s hs
  by_cases hn : n = f
  · rw [hn, names_unlink_self] at hs
    cases hs
  · rw [names_unlink_of_ne w hn] at hs
    exact hw n s hs

theorem Named.link {w : Servers File} (hw : Named p w) (s : Socket) :
    Named p (w.link (p.bound s.server) s) := by
  intro n t ht
  by_cases hn : n = p.bound s.server
  · rw [hn, names_link_self] at ht
    obtain rfl := Option.some.inj ht
    exact hn.symm
  · rw [names_link_of_ne w hn] at ht
    exact hw n t ht

theorem named_step {w w' : Servers File} {d : ℕ} {call : Call}
    (hstep : perform p w d call = some w') (hown : OwnSockets w)
    (hw : Named p w) : Named p w' := by
  cases perform_cases hstep with
  | unlinkStale | unlinkOwn => exact hw.unlink _
  | @bind s hphase hfree =>
    have hd : s.server = d := hown d s (by rw [hphase]; rfl)
    exact hd ▸ hw.link s
  | socket | listen | close | fails => exact hw

omit [DecidableEq File] in
theorem answers_iff {w : Servers File} {path : Bytes} {d : ℕ} :
    w.answers p path = some d ↔
      ∃ s, w.names (p.file (sunPath path)) = some s ∧ s.server = d ∧ w.phase d = .listening s := by
  unfold answers
  rw [Option.bind_eq_some_iff]
  refine exists_congr fun s => and_congr_right fun _ => ?_
  rw [Option.ite_none_right_eq_some, Option.some.injEq]
  constructor
  · rintro ⟨hphase, rfl⟩
    exact ⟨rfl, hphase⟩
  · rintro ⟨rfl, hphase⟩
    exact ⟨hphase, rfl⟩

/-- The clients of a path find the server that listens there, and no other. -/
structure Found (p : Paths File) (w : Servers File) : Prop where
  answers : ∀ path d, w.answers p path = some d ↔
    p.bound d = p.file (sunPath path) ∧ ∃ s, w.phase d = .listening s
  running : ∀ path, w.isDaemonRunning p path = true ↔
    ∃ d, p.bound d = p.file (sunPath path) ∧ ∃ s, w.phase d = .listening s

omit [DecidableEq File] in
theorem found_of_keepsNames {w : Servers File} (hown : OwnSockets w) (hnamed : Named p w)
    (hw : KeepsNames p w) : Found p w := by
  have hanswers : ∀ path d, w.answers p path = some d ↔
      p.bound d = p.file (sunPath path) ∧ ∃ s, w.phase d = .listening s := by
    intro path d
    rw [answers_iff]
    constructor
    · rintro ⟨s, hname, rfl, hphase⟩
      exact ⟨hnamed _ s hname, s, hphase⟩
    · rintro ⟨hpath, s, hphase⟩
      refine ⟨s, hpath ▸ hw d s ?_, hown d s ?_, hphase⟩
      · rw [hphase]
        rfl
      · rw [hphase]
        rfl
  refine ⟨hanswers, fun path => ?_⟩
  unfold isDaemonRunning
  rw [Option.isSome_iff_exists]
  exact exists_congr (hanswers path)

/-- In every run of any number of servers, whatever calls fail and whichever
processes end: no call removes a name that a server has bound exactly if every bound
server is at every moment what its path leads to, and then clients of a path find
exactly the server that listens there. -/
theorem found_throughout_iff (p : Paths File) (calls : List (ℕ × Call)) :
    Runs.Along (step p) (Undisturbing p) {} calls ↔
      Runs.Always (step p) (fun w => KeepsNames p w ∧ Found p w)
        {} calls := by
  refine Runs.along_iff_always (I := fun w => OwnSockets w ∧ Named p w)
    (fun w e w' hstep hw => ?_) (fun w e w' hstep hw hkeeps => ?_) ⟨nofun, nofun⟩ ⟨nofun, ?_⟩
  · exact ⟨ownSockets_step hstep hw.1, named_step hstep hw.1 hw.2⟩
  · have hown := ownSockets_step hstep hw.1
    have hnamed := named_step hstep hw.1 hw.2
    rw [undisturbing_iff_keepsNames hstep hkeeps.1]
    exact ⟨fun h => ⟨h, found_of_keepsNames hown hnamed h⟩, And.left⟩
  · exact found_of_keepsNames nofun nofun nofun

/-! ### Starting again -/

/-- The calls of a start that nothing interrupts, after the process has ended. -/
def restart (d : ℕ) : List (ℕ × Call) :=
  [(d, .exit), (d, .unlinkStale), (d, .socket true), (d, .bind true), (d, .listen true)]

theorem restart_answers {w : Servers File} {d : ℕ}
    (hfree : w.names (p.bound d) = none) :
    ∃ w', Runs.exec (step p) w (restart d) = some w' ∧
      w'.answers p (p.socketPath d) = some d := by
  have hstill : ((w.goto d .idle).unlink (p.whole d)).names (p.bound d) = none := by
    by_cases hfits : p.bound d = p.whole d
    · rw [hfits, names_unlink_self]
    · rw [names_unlink_of_ne _ hfits]
      exact hfree
  refine ⟨_, by simp [Runs.exec, restart, step, perform, hstill]; rfl, ?_⟩
  exact answers_iff.mpr ⟨⟨d, _⟩, names_link_self _ (p.bound d) _, rfl, phase_goto_self ..⟩

/-- Nobody's whole path is the name that a stale socket has: it stays, and its server
never binds. -/
theorem stale_step {w w' : Servers File} {d d' : ℕ} {call : Call}
    (hpaths : ∀ d', p.whole d' ≠ p.bound d)
    (hstep : perform p w d' call = some w')
    (hw : w.names (p.bound d) ≠ none ∧ (w.phase d).held = none) :
    w'.names (p.bound d) ≠ none ∧ (w'.phase d).held = none := by
  obtain ⟨htaken, hheld⟩ := hw
  have hgoto : ∀ {w : Servers File} {phase : ServerPhase}, (w.phase d).held = none →
      (d = d' → phase.held = none) → ((w.goto d' phase).phase d).held = none := by
    intro w phase hw hphase
    by_cases hd : d = d'
    · rw [hd, phase_goto_self]
      exact hphase hd
    · rwa [phase_goto_of_ne w hd]
  cases perform_cases hstep with
  | unlinkStale | unlinkOwn =>
    refine ⟨?_, hgoto hheld fun _ => rfl⟩
    rwa [names_goto, names_unlink_of_ne w (hpaths d').symm]
  | socket | close | fails => exact ⟨htaken, hgoto hheld fun _ => rfl⟩
  | @bind s hphase hfree =>
    have hne : p.bound d ≠ p.bound d' := fun h => htaken (h ▸ hfree)
    refine ⟨?_, hgoto hheld fun hd => absurd (hd ▸ rfl) hne⟩
    rwa [names_goto, names_link_of_ne w hne]
  | listen hphase =>
    refine ⟨htaken, hgoto hheld ?_⟩
    rintro rfl
    rw [hphase] at hheld
    cases hheld

/-- A server that holds no socket can come to answer again, by some run of all the
servers, exactly if its name is free or the whole path of some server leads there too.
With the path in `sun_path` as a whole that is so, since its own start removes the name;
a longer path that was bound once stays bound for good unless another path helps. -/
theorem answers_again_iff {w : Servers File} {d : ℕ} (hd : (w.phase d).held = none) :
    (∃ calls w', Runs.exec (step p) w calls = some w' ∧
        w'.answers p (p.socketPath d) = some d) ↔
      w.names (p.bound d) = none ∨ ∃ d', p.whole d' = p.bound d := by
  constructor
  · rintro ⟨calls, w', hrun, hanswers⟩
    by_contra hstale
    obtain ⟨htaken, hpaths⟩ := not_or.mp hstale
    have hstuck := Runs.exec_invariant
      (fun _ _ _ hstep => stale_step (not_exists.mp hpaths) hstep) ⟨htaken, hd⟩ hrun
    obtain ⟨s, -, rfl, hphase⟩ := answers_iff.mp hanswers
    rw [hphase] at hstuck
    cases hstuck.2
  · rintro (hfree | ⟨d', hd'⟩)
    · exact ⟨restart d, restart_answers hfree⟩
    · have hfree : (((w.goto d' .idle).unlink (p.whole d')).goto d' .cleared).names
          (p.bound d) = none := by simp [hd']
      obtain ⟨w', hrun, hanswers⟩ := restart_answers hfree
      refine ⟨(d', .exit) :: (d', .unlinkStale) :: restart d, w', ?_, hanswers⟩
      simpa [Runs.exec, step, perform] using hrun

/-- With one file for each path, a stale socket is overcome in `/tmp`, and not in a
directory whose name is too long. -/
theorem answers_again_iff_stale :
    let stale : Servers Bytes := { names := fun _ => some ⟨0, 0⟩ }
    let short : Paths Bytes := ⟨id, fun _ => getSocketPath none 1000⟩
    let long : Paths Bytes := ⟨id, fun _ => getSocketPath (some (47 :: List.replicate 95 97)) 1000⟩
    (∃ calls w', Runs.exec (step short) stale calls = some w' ∧
        w'.answers short (short.socketPath 0) = some 0) ∧
      ¬ ∃ calls w', Runs.exec (step long) stale calls = some w' ∧
        w'.answers long (long.socketPath 0) = some 0 := by
  refine ⟨(answers_again_iff rfl).mpr (.inr ⟨0, by decide +kernel⟩), fun h => ?_⟩
  rcases (answers_again_iff rfl).mp h with hfree | ⟨d', hd'⟩
  · cases hfree
  · have hcut : getSocketPath (some (47 :: List.replicate 95 97)) 1000 ≠
        sunPath (getSocketPath (some (47 :: List.replicate 95 97)) 1000) := by decide +kernel
    exact hcut hd'

end Servers

end Degoonification.Ipc
