import Tracep.Dns.Message
import Tracep.Lib.Address

/-!
# The Go parser

`readName`, `parseTXT` and `parseDNS` of `dns.go` and the frame layers of
`packet.go`, with every index and slice expression checked. A Go `int` is
an integer (64 bits in the code), `(nil, false)` is `none`, a panic is a
fault. The loops keep the source's variables; a counted loop recurses on
the iterations left.
-/

namespace Tracep.Dns.Go

/-- `binary.BigEndian.Uint16`. -/
def bigEndianUint16 (b : Bytes) : Exec UInt16 := do
  let lo ← index b 1
  let hi ← index b 0
  return be16 hi lo

/-! ## Names -/

/-- The variables of the `readName` loop. -/
structure NameState where
  labels : List Bytes
  origOff : Int
  off : Int

/-- One iteration of the `readName` loop. -/
def readNameStep (data : Bytes) (s : NameState) :
    Exec (NameState ⊕ Option (Bytes × Int)) :=
  if s.off ≥ data.length then return .inr none
  else do
    let b ← index data s.off
    let l := b.toNat
    if l = 0 then
      let off := s.off + 1
      return .inr (some (dotted s.labels, if s.origOff ≠ -1 then s.origOff else off))
    else if l &&& 0xC0 = 0xC0 then -- compression pointer
      if s.off + 2 > data.length then return .inr none
      else do
        let origOff := if s.origOff = -1 then s.off + 2 else s.origOff
        let w ← bigEndianUint16 (← slice data s.off (s.off + 2))
        return .inl { s with origOff := origOff, off := (w &&& 0x3FFF).toNat }
    else if l &&& 0xC0 = 0 then -- normal label
      let off := s.off + 1
      if off + l > data.length then return .inr none
      else do
        let label ← slice data off (off + l)
        return .inl { s with labels := s.labels ++ [label], off := off + l }
    else return .inr none -- reserved bits

def readName (data : Bytes) (off : Int) : Exec (Option (Bytes × Int)) :=
  Exec.loop (readNameStep data) ⟨[], -1, off⟩

/-! ## TXT data -/

/-- One iteration of the `parseTXT` loop over `(data, out)`. -/
def parseTXTStep (s : Bytes × List Bytes) : Exec (Bytes × List Bytes ⊕ List Bytes) := do
  let (data, out) := s
  if data.length > 0 then
    let b ← index data 0
    let l := b.toNat
    let data ← slice data 1 data.length
    if l > data.length then return .inr out
    else do
      let txt ← slice data 0 l
      let data ← slice data l data.length
      return .inl (data, out ++ [txt])
  else return .inr out

def parseTXT (data : Bytes) : Exec (List Bytes) := Exec.loop parseTXTStep (data, [])

/-! ## Messages -/

structure DnsMsg where
  id : UInt16
  flags : UInt16
  question : Bytes
  qtype : UInt16
  answers : List Bytes
deriving Repr, DecidableEq

/-- Append one answer value. -/
def DnsMsg.append (msg : DnsMsg) (answer : Bytes) : DnsMsg :=
  { msg with answers := msg.answers ++ [answer] }

/-- The question loop, `n` questions from the `i`-th on. -/
def parseQuestions (data : Bytes) : Nat → Nat → Int → DnsMsg → Exec (Option (Int × DnsMsg))
  | 0, _, off, msg => return some (off, msg)
  | n + 1, i, off, msg => do
      match ← readName data off with
      | none => return none
      | some (name, next) =>
          let off := next
          if off + 4 > data.length then return none
          else do
            let qt ← bigEndianUint16 (← slice data off (off + 2))
            let off := off + 4 -- QTYPE + QCLASS
            parseQuestions data n (i + 1) off
              (if i = 0 then { msg with question := name, qtype := qt } else msg)

/-- Append the name at `off`, if there is one, after `label`. -/
def appendName (data : Bytes) (off : Int) (label : Bytes) (msg : DnsMsg) : Exec DnsMsg := do
  match ← readName data off with
  | some (name, _) => return msg.append (label ++ name)
  | none => return msg

/-- The `switch` on the record type. -/
def addAnswers (data : Bytes) (rtype : UInt16) (rdata : Bytes) (rdlen rdataOff : Int)
    (msg : DnsMsg) : Exec DnsMsg :=
  if rtype = 1 then -- A
    if rdata.length = 4 then return msg.append (ipText rdata) else return msg
  else if rtype = 28 then -- AAAA
    if rdata.length = 16 then return msg.append (ipText rdata) else return msg
  else if rtype = 5 then
    appendName data rdataOff (ascii ['C', 'N', 'A', 'M', 'E', ':']) msg
  else if rtype = 15 then -- MX, skip 2-byte preference
    if rdlen > 2 then appendName data (rdataOff + 2) (ascii ['M', 'X', ':']) msg
    else return msg
  else if rtype = 16 then do -- TXT
    let txts ← parseTXT rdata
    return txts.foldl DnsMsg.append msg
  else if rtype = 33 then -- SRV, skip 6-byte priority/weight/port
    if rdlen > 6 then appendName data (rdataOff + 6) (ascii ['S', 'R', 'V', ':']) msg
    else return msg
  else if rtype = 12 then -- PTR
    appendName data rdataOff [] msg
  else if rtype = 2 then -- NS
    appendName data rdataOff (ascii ['N', 'S', ':']) msg
  else return msg

/-- The answer loop, `n` records left; `break` returns the message as it is. -/
def parseAnswers (data : Bytes) : Nat → Int → DnsMsg → Exec DnsMsg
  | 0, _, msg => return msg
  | n + 1, off, msg => do
      match ← readName data off with
      | none => return msg
      | some (_, next) =>
          let off := next
          if off + 10 > data.length then return msg
          else do
            let rtype ← bigEndianUint16 (← slice data off (off + 2))
            let off := off + 8 -- TYPE(2) + CLASS(2) + TTL(4)
            let rdlen := ((← bigEndianUint16 (← slice data off (off + 2))).toNat : Int)
            let off := off + 2
            if off + rdlen > data.length then return msg
            else do
              let rdata ← slice data off (off + rdlen)
              let rdataOff := off - rdlen
              let off := off + rdlen
              let msg ← addAnswers data rtype rdata rdlen rdataOff msg
              parseAnswers data n off msg

def parseDNS (data : Bytes) : Exec (Option DnsMsg) :=
  if data.length < 12 then return none
  else do
    let id ← bigEndianUint16 (← slice data 0 2)
    let flags ← bigEndianUint16 (← slice data 2 4)
    let qdcount := (← bigEndianUint16 (← slice data 4 6)).toNat
    let ancount := (← bigEndianUint16 (← slice data 6 8)).toNat
    match ← parseQuestions data qdcount 0 12 ⟨id, flags, [], 0, []⟩ with
    | none => return none
    | some (off, msg) => return some (← parseAnswers data ancount off msg)

/-! ## Frames -/

/-- Message, source port and destination port. -/
def parseUDP (udp : Bytes) : Exec (Option (DnsMsg × UInt16 × UInt16)) :=
  if udp.length < 8 then return none
  else do
    let srcPort ← bigEndianUint16 (← slice udp 0 2)
    let dstPort ← bigEndianUint16 (← slice udp 2 4)
    if srcPort ≠ 53 ∧ dstPort ≠ 53 then return none
    else do
      let payload ← slice udp 8 udp.length
      match ← parseDNS payload with
      | none => return none
      | some msg => return some (msg, srcPort, dstPort)

def parseDNSv4 (ip : Bytes) : Exec (Option (DnsMsg × UInt16 × UInt16)) :=
  if ip.length < 20 then return none
  else do
    let b0 ← index ip 0
    if b0 >>> 4 ≠ 4 then return none
    else if (← index ip 9) ≠ 17 then return none -- protocol must be UDP
    else do
      let ihl := (b0 &&& 0x0F).toNat * 4
      if ihl < 20 ∨ ip.length < ihl + 8 then return none
      else do parseUDP (← slice ip ihl ip.length)

def parseDNSv6 (ip : Bytes) : Exec (Option (DnsMsg × UInt16 × UInt16)) :=
  if ip.length < 40 then return none
  else do
    if (← index ip 0) >>> 4 ≠ 6 then return none
    else if (← index ip 6) ≠ 17 then return none -- next header must be UDP
    else do parseUDP (← slice ip 40 ip.length)

def parseDNSFromPacket (pkt : Bytes) : Exec (Option (DnsMsg × UInt16 × UInt16)) :=
  if pkt.length < 14 then return none
  else do
    let ethertype ← bigEndianUint16 (← slice pkt 12 14)
    if ethertype = 0x0800 then do parseDNSv4 (← slice pkt 14 pkt.length)
    else if ethertype = 0x86DD then do parseDNSv6 (← slice pkt 14 pkt.length)
    else return none

end Tracep.Dns.Go
