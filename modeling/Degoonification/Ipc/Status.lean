import Degoonification.Domains.RadixTree
import Degoonification.Library.Decimal
import Mathlib.Algebra.Order.Field.Rat

/-! `IpcClient::parse_status`: lines of `key=value`, read with the conversions of
the C++ standard library, which throw on text that is no number. A thrown
exception is `none`. `std::stof` is a parameter: text to a finite number, or an
exception. -/

namespace Degoonification.Ipc

open DomainRadixTree (getlines)

/-- The bytes of an ASCII literal. -/
def ascii (s : String) : Bytes := s.toList.map fun c => UInt8.ofNat c.toNat

structure DaemonStatus where
  running : Bool := false
  visualBlurPaused : Bool := false
  activeBoxes : UInt32 := 0
  fps : UInt32 := 15
  paddingRatio : ℚ := 15 / 100
  uptimeSeconds : UInt64 := 0
  totalFrames : UInt64 := 0
  dnsTotal : UInt64 := 0
  dnsBlocked : UInt64 := 0
  dnsForwarded : UInt64 := 0
  streakDays : Int32 := 0
  streakHours : Int32 := 0
  streakMinutes : Int32 := 0
  activeModel : Bytes := ascii "yolov8n-nsfw"
  currentMilestone : Bytes := ascii "First Step"
  milestoneProgress : ℚ := 0
  lastEvent : Bytes := ascii "Daemon initialized"

/-- The keys of the status text. -/
inductive Key where
  | paused | activeBoxes | fps | paddingRatio | uptime | totalFrames | dnsTotal | dnsBlocked
  | dnsForwarded | streakDays | streakHours | streakMinutes | model | milestone | progress
  | lastEvent
  deriving DecidableEq

namespace Key

def text : Key → Bytes
  | paused => ascii "paused"
  | activeBoxes => ascii "active_boxes"
  | fps => ascii "fps"
  | paddingRatio => ascii "padding_ratio"
  | uptime => ascii "uptime"
  | totalFrames => ascii "total_frames"
  | dnsTotal => ascii "dns_total"
  | dnsBlocked => ascii "dns_blocked"
  | dnsForwarded => ascii "dns_forwarded"
  | streakDays => ascii "streak_days"
  | streakHours => ascii "streak_hours"
  | streakMinutes => ascii "streak_minutes"
  | model => ascii "model"
  | milestone => ascii "milestone"
  | progress => ascii "progress"
  | lastEvent => ascii "last_event"

/-- The keys in the order in which they are written, and compared. -/
def all : List Key :=
  [paused, activeBoxes, fps, paddingRatio, uptime, totalFrames, dnsTotal, dnsBlocked,
    dnsForwarded, streakDays, streakHours, streakMinutes, model, milestone, progress, lastEvent]

/-- The branch of the `if` chain that a key takes. -/
def ofText (k : Bytes) : Option Key := all.find? fun key => key.text == k

end Key

/-! ### Conversions -/

/-- What `strtoull` and `strtol` read: a sign and the longest run of digits after
leading blanks, `none` if there is no digit. -/
def signedDigits (v : Bytes) : Option (Bool × ℕ) :=
  let s := v.dropWhile isspace
  let negative := s.head? == some 45
  let s := if s.head? = some 45 ∨ s.head? = some 43 then s.tail else s
  let ds := s.takeWhile Decimal.isDigit
  if ds = [] then none else some (negative, Decimal.value ds)

/-- `std::stoull`, and `std::stoul` where `unsigned long` has 64 bits. -/
def stoull (v : Bytes) : Option UInt64 :=
  match signedDigits v with
  | none => none
  | some (negative, n) =>
    if 2 ^ 64 ≤ n then none else some (if negative then 0 - .ofNat n else .ofNat n)

/-- `std::stoi`. -/
def stoi (v : Bytes) : Option Int32 :=
  match signedDigits v with
  | none => none
  | some (negative, n) =>
    let i : ℤ := if negative then -n else n
    if i < -2 ^ 31 ∨ 2 ^ 31 ≤ i then none else some (.ofInt i)

/-! ### The parser -/

variable (stof : Bytes → Option ℚ)

/-- The assignment of one branch of the `if` chain. -/
def setField (s : DaemonStatus) (key : Key) (v : Bytes) : Option DaemonStatus :=
  match key with
  | .paused => some { s with visualBlurPaused := v == ascii "1" || v == ascii "true" }
  | .activeBoxes => (stoull v).map fun n => { s with activeBoxes := n.toUInt32 }
  | .fps => (stoull v).map fun n => { s with fps := n.toUInt32 }
  | .paddingRatio => (stof v).map fun q => { s with paddingRatio := q }
  | .uptime => (stoull v).map fun n => { s with uptimeSeconds := n }
  | .totalFrames => (stoull v).map fun n => { s with totalFrames := n }
  | .dnsTotal => (stoull v).map fun n => { s with dnsTotal := n }
  | .dnsBlocked => (stoull v).map fun n => { s with dnsBlocked := n }
  | .dnsForwarded => (stoull v).map fun n => { s with dnsForwarded := n }
  | .streakDays => (stoi v).map fun n => { s with streakDays := n }
  | .streakHours => (stoi v).map fun n => { s with streakHours := n }
  | .streakMinutes => (stoi v).map fun n => { s with streakMinutes := n }
  | .model => some { s with activeModel := v }
  | .milestone => some { s with currentMilestone := v }
  | .progress => (stof v).map fun q => { s with milestoneProgress := q }
  | .lastEvent => some { s with lastEvent := v }

/-- `'='`. -/
abbrev equals : UInt8 := 61

/-- `'\n'`. -/
abbrev newline : UInt8 := 10

/-- One line; lines without `=` and unknown keys are skipped. -/
def parseLine (s : DaemonStatus) (line : Bytes) : Option DaemonStatus :=
  if equals ∈ line then
    match Key.ofText (line.takeWhile (· ≠ equals)) with
    | some key => setField stof s key (line.dropWhile (· ≠ equals)).tail
    | none => some s
  else some s

def parseStatus (raw : Bytes) : Option DaemonStatus :=
  (getlines raw).foldlM (parseLine stof) { running := true }

/-- A line of the status text. -/
def line (key : Key) (v : Bytes) : Bytes := key.text ++ equals :: v

@[simp] theorem ofText_text (key : Key) : Key.ofText key.text = some key := by
  cases key <;> decide

theorem equals_notMem_text (key : Key) : equals ∉ key.text := by
  cases key <;> decide

theorem newline_notMem_text (key : Key) : newline ∉ key.text := by
  cases key <;> decide

/-! ### Printed numbers read back -/

/-- `operator<<` of an unsigned number. -/
def showNat (n : ℕ) : Bytes := Decimal.digits n

/-- `operator<<` of a signed number. -/
def showInt (i : ℤ) : Bytes := if i < 0 then 45 :: showNat i.natAbs else showNat i.natAbs

theorem toNat_of_isDigit {c : UInt8} (h : Decimal.isDigit c = true) :
    48 ≤ c.toNat ∧ c.toNat ≤ 57 := by
  simpa [Decimal.isDigit, UInt8.le_iff_toNat_le] using h

theorem not_isspace_of_isDigit {c : UInt8} (h : Decimal.isDigit c = true) : isspace c = false := by
  have := toNat_of_isDigit h
  rw [Bool.eq_false_iff, Ne, isspace_iff]
  omega

theorem signedDigits_showNat (n : ℕ) : signedDigits (showNat n) = some (false, n) := by
  obtain ⟨c, cs, hcs⟩ := List.exists_cons_of_ne_nil (Decimal.digits_ne_nil n)
  have hc : Decimal.isDigit c = true :=
    Decimal.isDigit_of_mem_digits (n := n) (hcs ▸ List.mem_cons_self)
  have hrange := toNat_of_isDigit hc
  have hsign (x : UInt8) (hx : x.toNat < 48) : c ≠ x := by
    rintro rfl
    omega
  have htake := Decimal.takeWhile_digits n
  have hvalue := Decimal.value_digits n
  rw [hcs] at htake hvalue
  rw [signedDigits, showNat, hcs, List.dropWhile_cons_of_neg (by simp [not_isspace_of_isDigit hc])]
  simp [htake, hvalue, hsign 45 (by decide), hsign 43 (by decide)]

theorem signedDigits_showInt (i : ℤ) :
    signedDigits (showInt i) = some (decide (i < 0), i.natAbs) := by
  rw [showInt]
  split_ifs with hi
  · have htake : (showNat i.natAbs).takeWhile Decimal.isDigit = showNat i.natAbs :=
      Decimal.takeWhile_digits _
    have hvalue : Decimal.value (showNat i.natAbs) = i.natAbs := Decimal.value_digits _
    have hne : showNat i.natAbs ≠ [] := Decimal.digits_ne_nil _
    rw [signedDigits, List.dropWhile_cons_of_neg (by decide)]
    simp [htake, hvalue, hne, hi]
  · rw [signedDigits_showNat, decide_eq_false hi]

theorem stoull_showNat (n : UInt64) : stoull (showNat n.toNat) = some n := by
  rw [stoull, signedDigits_showNat]
  simp [Nat.not_le.mpr n.toNat_lt]

theorem stoull_showNat_toUInt64 (n : UInt32) : stoull (showNat n.toNat) = some n.toUInt64 := by
  rw [← UInt32.toNat_toUInt64, stoull_showNat]

theorem stoi_showInt (n : Int32) : stoi (showInt n.toInt) = some n := by
  have hlo := n.le_toInt
  have hhi := n.toInt_lt
  have habs : (if decide (n.toInt < 0) = true then -(n.toInt.natAbs : ℤ) else n.toInt.natAbs) =
      n.toInt := by
    split_ifs with h <;> simp at h <;> omega
  rw [stoi, signedDigits_showInt]
  simp only [habs]
  rw [if_neg (by omega), Int32.ofInt_toInt]

theorem newline_notMem_showNat (n : ℕ) : newline ∉ showNat n := by
  intro h
  exact absurd (Decimal.isDigit_of_mem_digits h) (by decide)

theorem newline_notMem_showInt (i : ℤ) : newline ∉ showInt i := by
  rw [showInt]
  split_ifs
  · rw [List.mem_cons, not_or]
    exact ⟨by decide, newline_notMem_showNat _⟩
  · exact newline_notMem_showNat _

end Degoonification.Ipc
