import Degoonification.Boxes.VisualAnchor
import Degoonification.Ipc.Status
import Degoonification.Library.Runs

/-! The daemon as its requests see it: `IpcServer::process_pending`, the command
handler of `main`, and the steps of the two threads that change what the handler
reads. Printing a `float` is a parameter, as `std::stof` is. The counters of the
status text come from clocks and from the other subsystems; a request is given
the values they have when it is served. -/

namespace Degoonification.Ipc

/-- The values printed by `STATUS` that requests do not determine. -/
structure Counters where
  fps : UInt32 := 0
  uptime : UInt64 := 0
  totalFrames : UInt64 := 0
  dnsTotal : UInt64 := 0
  dnsBlocked : UInt64 := 0
  dnsForwarded : UInt64 := 0
  streakDays : Int32 := 0
  streakHours : Int32 := 0
  streakMinutes : Int32 := 0

/-- The configuration the daemon gives its tracker. -/
def trackerConfig (paddingRatio : ℚ) : AnchorTrackerConfig :=
  { persistenceWindowMs := 1200, paddingRatio, mergeIouThreshold := 15 / 100,
    anchorErrorThreshold := 22 }

/-- The commands of the handler. -/
inductive Command where
  | status | pause | resume | setPadding | relapse | stop
  deriving DecidableEq

namespace Command

def text : Command → Bytes
  | status => ascii "STATUS"
  | pause => ascii "PAUSE"
  | resume => ascii "RESUME"
  | setPadding => ascii "SET_PADDING"
  | relapse => ascii "RELAPSE"
  | stop => ascii "STOP"

/-- The branch of the handler's `if` chain that a command takes. -/
def ofText (cmd : Bytes) : Option Command :=
  [status, pause, resume, setPadding, relapse, stop].find? fun command => command.text == cmd

end Command

structure Daemon where
  modelLoaded : Bool
  running : Bool := true
  visualBlurPaused : Bool := false
  paddingRatio : ℚ := 35 / 100
  tracker : VisualAnchorTracker := { config := trackerConfig (35 / 100) }
  activeBoxCount : UInt32 := 0
  lastEvent : Bytes := ascii "Defense active and monitoring screen"

namespace Daemon

variable (stof : Bytes → Option ℚ) (showRatio : ℚ → Bytes)

/-- The value printed for a key. -/
def value (d : Daemon) (c : Counters) : Key → Bytes
  | .paused => if d.visualBlurPaused then ascii "1" else ascii "0"
  | .activeBoxes => showNat d.activeBoxCount.toNat
  | .fps => showNat c.fps.toNat
  | .paddingRatio => showRatio d.paddingRatio
  | .uptime => showNat c.uptime.toNat
  | .totalFrames => showNat c.totalFrames.toNat
  | .dnsTotal => showNat c.dnsTotal.toNat
  | .dnsBlocked => showNat c.dnsBlocked.toNat
  | .dnsForwarded => showNat c.dnsForwarded.toNat
  | .streakDays => showInt c.streakDays.toInt
  | .streakHours => showInt c.streakHours.toInt
  | .streakMinutes => showInt c.streakMinutes.toInt
  | .model => if d.modelLoaded then ascii "YOLOv8n-NSFW" else ascii "Passthrough"
  | .milestone => ascii "Dopamine Reset"
  | .progress => ascii "0.45"
  | .lastEvent => d.lastEvent

def statusText (d : Daemon) (c : Counters) : Bytes :=
  Key.all.flatMap fun key => line key (d.value showRatio c key) ++ [newline]

/-- `"Padding ratio adjusted to +N%"`. A number too large for an `int`, for which the
language leaves the cast undefined, is read as wrapping. -/
def paddingEvent (ratio : ℚ) : Bytes :=
  ascii "Padding ratio adjusted to +" ++ showInt (toInt32 (truncToInt (ratio * 100))) ++ ascii "%"

/-- The command handler: the daemon afterwards and the response. -/
def handle (d : Daemon) (c : Counters) (cmd args : Bytes) : Daemon × Bytes :=
  match Command.ofText cmd with
  | some .status => (d, d.statusText showRatio c)
  | some .pause =>
    ({ d with visualBlurPaused := true, tracker := d.tracker.reset,
              lastEvent := ascii "Visual blur temporarily paused via CLI" }, ascii "OK\n")
  | some .resume =>
    ({ d with visualBlurPaused := false, lastEvent := ascii "Visual blur resumed via CLI" },
      ascii "OK\n")
  | some .setPadding =>
    match stof args with
    | some ratio =>
      ({ d with paddingRatio := ratio, tracker := d.tracker.setConfig (trackerConfig ratio),
                lastEvent := paddingEvent ratio }, ascii "OK\n")
    | none => (d, ascii "OK\n")
  | some .relapse => ({ d with lastEvent := ascii "Relapse logged: " ++ args }, ascii "OK\n")
  | some .stop =>
    ({ d with running := false, lastEvent := ascii "Daemon stop requested via CLI" }, ascii "OK\n")
  | none => (d, ascii "UNKNOWN_COMMAND\n")

end Daemon

/-! ### Requests -/

/-- The bytes trimmed from the end of a request. -/
def isTrailing (c : UInt8) : Bool := c == newline || c == 13 || c == 32

/-- The command and the arguments in the buffer of a request: up to 2047 bytes
are read, and a C string ends at the first NUL. -/
def parseRequest (raw : Bytes) : Bytes × Bytes :=
  let req := ((raw.take 2047).takeWhile (· ≠ 0)).rdropWhile isTrailing
  if 32 ∈ req then (req.takeWhile (· ≠ 32), (req.dropWhile (· ≠ 32)).tail) else (req, [])

/-- `process_pending` on the bytes of one client: the state afterwards and the
response written; without bytes the handler is not called. -/
def processPending {σ : Type*} (handler : Bytes → Bytes → σ × Bytes) (s : σ) (raw : Bytes) :
    σ × Bytes :=
  if raw = [] then (s, [])
  else
    let (cmd, args) := parseRequest raw
    let (s, resp) := handler cmd args
    let resp := if resp = [] then ascii "OK\n" else resp
    (s, if resp.getLast? = some newline then resp else resp ++ [newline])

/-- `std::stof` on text in plain notation: a sign, digits, and digits after a point. -/
def plainStof (v : Bytes) : Option ℚ :=
  let s := v.dropWhile isspace
  let negative := s.head? == some 45
  let s := if s.head? = some 45 ∨ s.head? = some 43 then s.tail else s
  let whole := s.takeWhile Decimal.isDigit
  let s := s.dropWhile Decimal.isDigit
  let part := if s.head? = some dot then s.tail.takeWhile Decimal.isDigit else []
  if whole = [] ∧ part = [] then none
  else
    let q : ℚ := Decimal.value (whole ++ part) / 10 ^ part.length
    some (if negative then -q else q)

/-- `operator<<` of a `float` that is a number of hundredths below a thousand. -/
def plainShow (ratio : ℚ) : Bytes :=
  let n := (truncToInt (ratio * 100)).natAbs
  let text := showNat (n / 100) ++ dot :: (showNat (n / 10 % 10) ++ showNat (n % 10))
  let text := (text.rdropWhile (· == 48)).rdropWhile (· == dot)
  if ratio < 0 then 45 :: text else text

namespace Daemon

/-! ### Runs -/

/-- The steps that change what requests see: a request, a call of the tracker on
the thread of the detector, and the display of a new list of boxes. -/
inductive Event where
  | request (c : Counters) (raw : Bytes)
  | frame (frame : VideoFrame) (detections : List BoundingBox) (now : ℕ)
  | render (boxes : ℕ)

variable (stof : Bytes → Option ℚ) (showRatio : ℚ → Bytes)

def serve (d : Daemon) (c : Counters) (raw : Bytes) : Daemon × Bytes :=
  processPending (d.handle stof showRatio c) d raw

/-- Step 3 of the main loop, on a list of so many boxes. -/
def render (d : Daemon) (boxes : ℕ) : Daemon :=
  if d.visualBlurPaused then { d with activeBoxCount := 0 }
  else
    let count := UInt32.ofNat boxes
    if 0 < count then
      { d with activeBoxCount := count,
               lastEvent := ascii "BLUR SHIELD ACTIVE: " ++ showNat count.toNat ++
                 ascii " explicit region(s) blocked" }
    else { d with activeBoxCount := count }

/-- Requests are served until the daemon was stopped. -/
def step (d : Daemon) : Event → Option Daemon
  | .request c raw => if d.running then some (d.serve stof showRatio c raw).1 else none
  | .frame f detections now =>
    some { d with tracker := (d.tracker.processFrame f detections now).1 }
  | .render boxes => some (d.render boxes)

/-- The daemon before its first request. -/
def initial (modelLoaded : Bool) : Daemon := { modelLoaded }

/-- The text a client gets for `STATUS`. -/
def statusResponse (d : Daemon) (c : Counters) : Bytes :=
  (d.serve stof showRatio c (ascii "STATUS\n")).2

end Daemon

end Degoonification.Ipc
