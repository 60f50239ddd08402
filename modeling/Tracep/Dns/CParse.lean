import Tracep.Dns.Message

/-!
# The C parser

`read_name`, `parse_dns` and `parse_packet` of `dns.c`, with every byte
read and every byte written checked. A `(d, len)` pair is a list of `len`
bytes, an `int` is an integer: captured frames are at most 64 KiB, so no
sum the code forms comes near 32 bits. A destination buffer is the list of
its `dstcap` bytes, `NULL` is `none`; a stack buffer starts with whatever
it holds. `return false` is `none`.
-/

namespace Tracep.Dns.C

/-- `be16(d + off)`. -/
def be16At (d : Bytes) (off : Int) : Exec UInt16 := do
  let hi ← index d off
  let lo ← index d (off + 1)
  return be16 hi lo

/-! ## Names -/

/-- The variables of the `read_name` loop. -/
structure NameState where
  off : Int
  orig : Int
  w : Int
  dst : Option Bytes

/-- `for (int i = 0; i < l && w < dstcap - 1; i++) dst[w++] = d[off + i];`,
with `n` bytes left to copy from `src` on. -/
def copyBytes (d : Bytes) (dstcap : Int) : Nat → Int → Int → Bytes → Exec (Int × Bytes)
  | 0, _, w, dst => return (w, dst)
  | n + 1, src, w, dst =>
      if w < dstcap - 1 then do
        let c ← index d src
        let dst ← store dst w c
        copyBytes d dstcap n (src + 1) (w + 1) dst
      else return (w, dst)

/-- `if (w && w < dstcap - 1) dst[w++] = '.';` -/
def appendSep (dstcap w : Int) (dst : Bytes) : Exec (Int × Bytes) :=
  if w ≠ 0 ∧ w < dstcap - 1 then do
    let dst ← store dst w 46
    return (w + 1, dst)
  else return (w, dst)

/-- The body of `if (dst)`: a separator where one is due, the label, a NUL. -/
def appendLabel (d : Bytes) (dstcap off : Int) (l : Nat) (w : Int) (dst : Bytes) :
    Exec (Int × Bytes) := do
  let (w, dst) ← appendSep dstcap w dst
  let (w, dst) ← copyBytes d dstcap l off w dst
  let dst ← store dst w 0
  return (w, dst)

/-- One iteration of the `read_name` loop; it ends with the return value and the
destination. -/
def readNameStep (d : Bytes) (dstcap : Int) (s : NameState) :
    Exec (NameState ⊕ Int × Option Bytes) :=
  if s.off ≥ d.length then return .inr (-1, s.dst)
  else do
    let b ← index d s.off
    let l := b.toNat
    if l = 0 then
      let off := s.off + 1
      return .inr (if s.orig ≠ -1 then s.orig else off, s.dst)
    else if l &&& 0xC0 = 0xC0 then
      if s.off + 2 > d.length then return .inr (-1, s.dst)
      else do
        let orig := if s.orig = -1 then s.off + 2 else s.orig
        let w ← be16At d s.off
        return .inl { s with orig := orig, off := (w &&& 0x3FFF).toNat }
    else if l &&& 0xC0 = 0 then
      let off := s.off + 1
      if off + l > d.length then return .inr (-1, s.dst)
      else
        match s.dst with
        | some dst => do
            let (w, dst) ← appendLabel d dstcap off l s.w dst
            return .inl { s with w := w, dst := some dst, off := off + l }
        | none => return .inl { s with off := off + l }
    else return .inr (-1, s.dst)

def readName (d : Bytes) (off : Int) (dst : Option Bytes) (dstcap : Int) :
    Exec (Int × Option Bytes) := do
  let dst ←
    match dst with
    | some buf => if dstcap ≠ 0 then do pure (some (← store buf 0 0)) else pure (some buf)
    | none => pure none
  Exec.loop (readNameStep d dstcap) ⟨off, -1, 0, dst⟩

/-! ## Answers -/

def maxAns : Nat := 16

/-- A `dns_msg`; `ans_n` is the number of answers. -/
@[ext] structure DnsMsg where
  id : UInt16
  flags : UInt16
  qtype : UInt16
  question : Bytes
  answers : List Bytes
  ans_le : answers.length ≤ maxAns
deriving DecidableEq

/-- The text `snprintf` leaves in a buffer of `size` bytes. -/
def snprintf (size : Nat) (text : Bytes) : Bytes := text.take (size - 1)

/-- The text a `%s` reads from a buffer; running past its end is an access outside it. -/
def readStr (buf : Bytes) : Exec Bytes := if 0 ∈ buf then return cstr buf else .fault

def addAnswer (m : DnsMsg) (label val : Bytes) : DnsMsg :=
  if h : m.answers.length ≥ maxAns then m
  else
    { m with
      answers := m.answers ++ [snprintf 300 (label ++ val)]
      ans_le := by rw [List.length_append, List.length_singleton]; omega }

/-! ## Messages -/

/-- `inet_ntop`: some text without NUL that fits `INET6_ADDRSTRLEN` bytes with its
terminator. -/
structure InetNtop where
  text : Bytes → Bytes
  noNul : ∀ ip, 0 ∉ text ip
  fits : ∀ ip, (text ip).length < 46

/-- A `char[256]` on the stack, not yet written to. -/
abbrev NameBuf := {b : Bytes // b.length = 256}

variable (ntop : InetNtop)

/-- The question loop, `n` questions from the `i`-th on. -/
def parseQuestions (junk : Nat → NameBuf) (d : Bytes) :
    Nat → Nat → Int → DnsMsg → Exec (Option (Int × DnsMsg))
  | 0, _, off, m => return some (off, m)
  | n + 1, i, off, m => do
      let (next, name) ← readName d off (some (junk i).1) 256
      if next < 0 then return none
      else
        let off := next
        if off + 4 > d.length then return none
        else do
          let qt ← be16At d off
          let off := off + 4
          if i = 0 then do
            let text ← readStr (name.getD [])
            parseQuestions junk d n (i + 1) off
              { m with question := snprintf 256 text, qtype := qt }
          else parseQuestions junk d n (i + 1) off m

/-- `if (read_name(d, len, off, nm, sizeof nm) >= 0) add_answer(m, label, nm);` -/
def addName (d : Bytes) (off : Int) (nm : NameBuf) (label : Bytes) (m : DnsMsg) :
    Exec DnsMsg := do
  let (next, buf) ← readName d off (some nm.1) 256
  if next ≥ 0 then do
    let text ← readStr (buf.getD [])
    return addAnswer m label text
  else return m

/-- One iteration of the TXT loop over `(p, m)`, on the RDATA at `rd`. -/
def txtStep (d : Bytes) (rd rdlen : Int) (s : Int × DnsMsg) : Exec (Int × DnsMsg ⊕ DnsMsg) := do
  let (p, m) := s
  if p < rdlen then
    let sl := (← index d (rd + p)).toNat
    let p := p + 1
    if p + sl > rdlen then return .inr m
    else do
      let c := if sl < 299 then sl else 299
      let t ← slice d (rd + p) (rd + p + c)
      return .inl (p + sl, addAnswer m [] (cstr (t ++ [0])))
  else return .inr m

/-- The `switch` on the record type. -/
def addAnswers (d : Bytes) (rtype : UInt16) (rdlen rdoff : Int) (nm : NameBuf) (m : DnsMsg) :
    Exec DnsMsg :=
  if rtype = 1 then
    if rdlen = 4 then do
      let rd ← slice d rdoff (rdoff + 4)
      return addAnswer m [] (ntop.text rd)
    else return m
  else if rtype = 28 then
    if rdlen = 16 then do
      let rd ← slice d rdoff (rdoff + 16)
      return addAnswer m [] (ntop.text rd)
    else return m
  else if rtype = 5 then addName d rdoff nm (ascii ['C', 'N', 'A', 'M', 'E', ':']) m
  else if rtype = 2 then addName d rdoff nm (ascii ['N', 'S', ':']) m
  else if rtype = 12 then addName d rdoff nm [] m
  else if rtype = 15 then
    if rdlen > 2 then addName d (rdoff + 2) nm (ascii ['M', 'X', ':']) m else return m
  else if rtype = 33 then
    if rdlen > 6 then addName d (rdoff + 6) nm (ascii ['S', 'R', 'V', ':']) m else return m
  else if rtype = 16 then Exec.loop (txtStep d rdoff rdlen) (0, m)
  else return m

/-- The answer loop, `n` records left; `break` returns the message as it is. -/
def parseAnswers (junk : Nat → NameBuf) (d : Bytes) : Nat → Int → DnsMsg → Exec DnsMsg
  | 0, _, m => return m
  | n + 1, off, m => do
      let (next, _) ← readName d off none 0
      if next < 0 then return m
      else
        let off := next
        if off + 10 > d.length then return m
        else do
          let rtype ← be16At d off
          let off := off + 8
          let rdlen := ((← be16At d off).toNat : Int)
          let off := off + 2
          if off + rdlen > d.length then return m
          else do
            let rdoff := off
            let off := off + rdlen
            let m ← addAnswers ntop d rtype rdlen rdoff (junk n) m
            parseAnswers junk d n off m

/-- The stack buffers of one call: `name` of each question, `nm` of each record. -/
structure Stack where
  name : Nat → NameBuf
  nm : Nat → NameBuf

def parseDns (stack : Stack) (d : Bytes) : Exec (Option DnsMsg) :=
  if d.length < 12 then return none
  else do
    let id ← be16At d 0
    let flags ← be16At d 2
    let qd := (← be16At d 4).toNat
    let an := (← be16At d 6).toNat
    match ← parseQuestions stack.name d qd 0 12 ⟨id, flags, 0, [], [], by simp⟩ with
    | none => return none
    | some (off, m) => return some (← parseAnswers ntop stack.nm d an off m)

/-! ## Frames -/

/-- `ip` and `iplen` once the Ethernet and IP headers are passed. -/
def ipPayload (pkt : Bytes) : Exec (Option (Int × Int)) :=
  if pkt.length < 14 then return none
  else do
    let eth ← be16At pkt 12
    let ip : Int := 14
    let iplen : Int := pkt.length - 14
    if eth = 0x0800 then
      if iplen < 20 then return none
      else if (← index pkt ip) >>> 4 ≠ 4 then return none
      else if (← index pkt (ip + 9)) ≠ 17 then return none
      else do
        let ihl : Int := ((← index pkt ip) &&& 0x0F).toNat * 4
        if ihl < 20 ∨ iplen < ihl + 8 then return none
        else return some (ip + ihl, iplen - ihl)
    else if eth = 0x86DD then
      if iplen < 40 then return none
      else if (← index pkt ip) >>> 4 ≠ 6 then return none
      else if (← index pkt (ip + 6)) ≠ 17 then return none
      else return some (ip + 40, iplen - 40)
    else return none

/-- Message, source port and destination port. -/
def parsePacket (stack : Stack) (pkt : Bytes) : Exec (Option (DnsMsg × UInt16 × UInt16)) := do
  match ← ipPayload pkt with
  | none => return none
  | some (ip, iplen) =>
      if iplen < 8 then return none
      else do
        let src ← be16At pkt ip
        let dst ← be16At pkt (ip + 2)
        if src ≠ 53 ∧ dst ≠ 53 then return none
        else do
          match ← parseDns ntop stack (← slice pkt (ip + 8) (ip + 8 + (iplen - 8))) with
          | none => return none
          | some m => return some (m, src, dst)

end Tracep.Dns.C
