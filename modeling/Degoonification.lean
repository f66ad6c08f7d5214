import Degoonification.Bytes
import Degoonification.Library.Words
import Degoonification.Library.Agglomeration
import Degoonification.Library.Runs
import Degoonification.Library.RoseTree
import Degoonification.Domains.Labels
import Degoonification.Domains.RadixTree
import Degoonification.Domains.RadixPaths
import Degoonification.Domains.RadixRules
import Degoonification.Boxes.BoundingBox
import Degoonification.Boxes.TemporalSmoothing
import Degoonification.Capture.VideoFrame
import Degoonification.Boxes.VisualAnchor
import Degoonification.Boxes.ShieldCover
import Degoonification.Dns.Packet
import Degoonification.Dns.Names
import Degoonification.Dns.NameWalk
import Degoonification.Dns.WireName
import Degoonification.Dns.Sinkhole
import Degoonification.Domains.BloomFilter
import Degoonification.Dns.Server
import Degoonification.Dns.Relay
import Degoonification.Library.Streams
import Degoonification.Domains.BloomFile
import Degoonification.Domains.BloomRuns
import Degoonification.Domains.BloomIndices
import Degoonification.Boxes.StaticScreen
import Degoonification.Boxes.Forgetting
import Degoonification.Library.Decimal
import Degoonification.Ipc.Status
import Degoonification.Ipc.Daemon
import Degoonification.Ipc.RoundTrip
import Degoonification.Ipc.Padding
import Degoonification.Ipc.Pausing
import Degoonification.Library.Loops
import Degoonification.Overlay.Painting
import Degoonification.Overlay.Wayland
import Degoonification.Overlay.Held
import Degoonification.Overlay.Reconfigure
import Degoonification.Overlay.Coverage
import Degoonification.Overlay.Shown
import Degoonification.Browser.Domains
import Degoonification.Browser.Background
import Degoonification.Browser.Settings
import Degoonification.Browser.Counters
import Degoonification.Boxes.Merging
import Degoonification.Boxes.Rendering
import Degoonification.Boxes.Recency
import Degoonification.Boxes.AnchorStep
import Degoonification.Boxes.ShieldBounds
import Degoonification.Boxes.Hysteresis
import Degoonification.Boxes.Lockstep
import Degoonification.Library.Suppression
import Degoonification.Inference.Letterbox
import Degoonification.Inference.Detector
import Degoonification.Inference.Detections
import Degoonification.Inference.Sampling
import Degoonification.Domains.Blocklists
import Degoonification.Dns.Reads
import Degoonification.Watchdog.Supervisor
import Degoonification.Watchdog.Signals
import Degoonification.Watchdog.Restarts
import Degoonification.Capture.Screencopy
import Degoonification.Capture.Ppm
import Degoonification.Browser.Content
import Degoonification.Browser.Shielding
import Degoonification.Library.Fields
import Degoonification.Domains.LabelFields
import Degoonification.Browser.Subdomains
import Degoonification.Library.Overlap
import Degoonification.Boxes.Similarity
import Degoonification.Inference.Planes
import Degoonification.Boxes.AnchorReads
import Degoonification.Ipc.Handover
import Degoonification.Ipc.Client
import Degoonification.Ipc.Dashboard
import Degoonification.Dns.Conversation
import Degoonification.Daemon.Detector
import Degoonification.Daemon.Guard
import Degoonification.Daemon.Reads
import Degoonification.Daemon.Pictures
import Degoonification.Dns.Compiled
import Degoonification.Browser.Navigation
import Degoonification.Library.Handles
import Degoonification.Engine.CApi
import Degoonification.Overlay.Windows
import Degoonification.Library.Splice
import Degoonification.Browser.Wrapping
import Degoonification.Ipc.Takeover
import Degoonification.Library.Slots
import Degoonification.Dns.Lifecycle
import Degoonification.Daemon.Shutdown
import Degoonification.Capture.PipeWire
