import Degoonification.Bytes

/-! `DnsPacket`: the question parser and the sinkhole response. A datagram is the
list of its bytes. The name loop of `parse` runs on a cursor: `curr` follows
labels and compression pointers, `offset` stops at the first pointer, and the
budget counts down from the 64 hops the loop allows. -/

namespace Degoonification

structure DnsQuestion where
  qname : Bytes
  qtype : UInt16
  qclass : UInt16
  deriving DecidableEq

structure DnsPacket where
  id : UInt16
  flags : UInt16
  questions : List DnsQuestion
  deriving DecidableEq

namespace DnsPacket

/-! ### Parsing -/

/-- The variables of the name loop, `hops` apart. -/
structure NameCursor where
  curr : ℕ
  offset : ℕ
  jumped : Bool
  qname : Bytes

/-- The 14-bit offset of a compression pointer. -/
def pointerOffset (hi lo : UInt8) : ℕ := (be16 (hi &&& 0x3F) lo).toNat

/-- `qname` with one more label pushed, after a dot unless it is empty. -/
def pushLabel (qname label : Bytes) : Bytes :=
  (if qname = [] then [] else qname ++ [dot]) ++ lower label

/-- The name loop; the first argument is `64 - hops`. Running out of hops and
leaving the buffer both fall out of the loop, like the zero byte. -/
def readName (data : Bytes) : ℕ → NameCursor → Option NameCursor
  | 0, c => some c
  | budget + 1, c =>
    match data[c.curr]? with
    | none => some c
    | some labelLen =>
      if labelLen = 0 then some { c with offset := if c.jumped then c.offset else c.curr + 1 }
      else if labelLen &&& 0xC0 = 0xC0 then
        match data[c.curr + 1]? with
        | none => none
        | some lo =>
          readName data budget
            { curr := pointerOffset labelLen lo
              offset := if c.jumped then c.offset else c.curr + 2
              jumped := true
              qname := c.qname }
      else if data.length < c.curr + 1 + labelLen.toNat then none
      else
        readName data budget
          { curr := c.curr + 1 + labelLen.toNat
            offset := if c.jumped then c.offset else c.curr + 1 + labelLen.toNat
            jumped := c.jumped
            qname := pushLabel c.qname ((data.drop (c.curr + 1)).take labelLen.toNat) }

/-- The cursor at the start of a question's name. -/
def startCursor (offset : ℕ) : NameCursor := ⟨offset, offset, false, []⟩

/-- The big-endian word at an index inside the datagram. -/
def u16At (data : Bytes) (i : ℕ) : UInt16 := be16 (data.getD i 0) (data.getD (i + 1) 0)

/-- The loop over the questions, `n` of them left. -/
def parseQuestions (data : Bytes) : ℕ → ℕ → Option (List DnsQuestion)
  | 0, _ => some []
  | n + 1, offset =>
    match readName data 64 (startCursor offset) with
    | none => none
    | some c =>
      if data.length < c.offset + 4 then none
      else
        (parseQuestions data n (c.offset + 4)).map fun rest =>
          ⟨c.qname, u16At data c.offset, u16At data (c.offset + 2)⟩ :: rest

def parse (data : Bytes) : Option DnsPacket :=
  if data.length < 12 then none
  else
    (parseQuestions data (u16At data 4).toNat 12).map fun questions =>
      ⟨u16At data 0, u16At data 2, questions⟩

/-! ### The sinkhole response -/

/-- The bytes of a word, high byte first. -/
def word (w : UInt16) : Bytes := [(w >>> 8).toUInt8, (w &&& 0xFF).toUInt8]

/-- The loop that rebuilds the name: each field up to the next dot behind its
length byte, while `start` is inside `qname`. -/
def writeLabels : Bytes → Bytes
  | [] => []
  | c :: rest =>
    let label := (c :: rest).takeWhile fun b => b != dot
    UInt8.ofNat label.length :: label ++ writeLabels ((c :: rest).drop (label.length + 1))
termination_by qname => qname.length
decreasing_by simp only [List.length_drop, List.length_cons]; omega

/-- The resource record after the owner pointer, up to the address. -/
def recordHead (qtype : UInt16) : Bytes :=
  if qtype = 28 then [0x00, 0x1C, 0x00, 0x01, 0x00, 0x00, 0x01, 0x2C, 0x00, 0x10]
  else [0x00, 0x01, 0x00, 0x01, 0x00, 0x00, 0x01, 0x2C, 0x00, 0x04]

/-- `::` or `0.0.0.0`. -/
def sinkholeAddress (qtype : UInt16) : Bytes :=
  if qtype = 28 then List.replicate 16 0 else List.replicate 4 0

def buildSinkholeResponse (p : DnsPacket) : Bytes :=
  match p.questions with
  | [] => []
  | q :: _ =>
    word p.id ++ [0x81, 0x80, 0x00, 0x01, 0x00, 0x01, 0x00, 0x00, 0x00, 0x00]
      ++ writeLabels q.qname ++ [0x00] ++ word q.qtype ++ word q.qclass
      ++ [0xC0, 0x0C] ++ recordHead q.qtype ++ sinkholeAddress q.qtype

end DnsPacket

end Degoonification
