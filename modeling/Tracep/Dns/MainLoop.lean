import Tracep.Dns.CParse
import Tracep.Dns.GoParse
import Mathlib.Data.List.Infix

/-!
# The capture loops

The body of the `tracep dns` main loop in both ports, from a parsed packet
to the call of `emit`: queries are kept in `pending` under their
transaction id, a response takes the query with its id out and reports it.
The clock and the answer of the socket-to-process lookup are inputs of an
iteration. Of `emit` the filters are here, which decide what is printed.
-/

namespace Tracep.Dns

/-- What one iteration works with: a parsed packet, the clock, and the process the lookup
finds for a port. -/
structure Capture (M T : Type) where
  msg : M
  src : UInt16
  dst : UInt16
  now : T
  owner : UInt16 → Int × Bytes

/-- The text of a record type. -/
def qtypeText (t : UInt16) : Bytes :=
  if t = 1 then ascii ['A']
  else if t = 2 then ascii ['N', 'S']
  else if t = 5 then ascii ['C', 'N', 'A', 'M', 'E']
  else if t = 6 then ascii ['S', 'O', 'A']
  else if t = 12 then ascii ['P', 'T', 'R']
  else if t = 15 then ascii ['M', 'X']
  else if t = 16 then ascii ['T', 'X', 'T']
  else if t = 28 then ascii ['A', 'A', 'A', 'A']
  else if t = 33 then ascii ['S', 'R', 'V']
  else if t = 255 then ascii ['A', 'N', 'Y']
  else ascii ['T', 'Y', 'P', 'E'] ++ digits 10 t.toNat

/-- The text of a response code. -/
def rcodeText (rcode : UInt16) : Bytes :=
  if rcode &&& 0xF = 0 then ascii ['N', 'O', 'E', 'R', 'R', 'O', 'R']
  else if rcode &&& 0xF = 1 then ascii ['F', 'O', 'R', 'M', 'E', 'R', 'R']
  else if rcode &&& 0xF = 2 then ascii ['S', 'E', 'R', 'V', 'F', 'A', 'I', 'L']
  else if rcode &&& 0xF = 3 then ascii ['N', 'X', 'D', 'O', 'M', 'A', 'I', 'N']
  else if rcode &&& 0xF = 4 then ascii ['N', 'O', 'T', 'I', 'M', 'P']
  else if rcode &&& 0xF = 5 then ascii ['R', 'E', 'F', 'U', 'S', 'E', 'D']
  else ascii ['R', 'C', 'O', 'D', 'E'] ++ digits 10 (rcode &&& 0xF).toNat

/-- The filter flags; an empty one lets everything through. -/
structure Filters where
  names : List Bytes
  pids : List Int
  types : List Bytes
  domain : Bytes

/-- The tests at the top of `emit`. -/
def Filters.passes (F : Filters) (name : Bytes) (pid : Int) (qtype query : Bytes) : Bool :=
  (F.names.isEmpty || name ∈ F.names) && (F.pids.isEmpty || pid ∈ F.pids)
    && (F.types.isEmpty || qtype ∈ F.types) && (F.domain.isEmpty || F.domain <:+: query)

variable {T : Type} [Sub T] [Zero T]

/-! ## The Go port -/

namespace Go

/-- `qtypeStr`. -/
def qtypeStr (t : UInt16) : Bytes := qtypeText t

/-- `rcodeStr`. -/
def rcodeStr (rcode : UInt16) : Bytes := rcodeText rcode

structure DnsEvent (T : Type) where
  txID : UInt16
  query : Bytes
  qtype : Bytes
  pid : Int
  pname : Bytes
  srcPort : UInt16
  sent : T
  answers : List Bytes
  rcode : Bytes
  latency : T
  ts : T

/-- The event kept for a query. -/
def DnsEvent.ofQuery (p : Capture DnsMsg T) : DnsEvent T :=
  let (pid, pname) := p.owner p.src
  { txID := p.msg.id, query := p.msg.question, qtype := qtypeStr p.msg.qtype, pid, pname,
    srcPort := p.src, sent := p.now, answers := [], rcode := [], latency := 0, ts := 0 }

/-- The event completed by its response. -/
def DnsEvent.answered (ev : DnsEvent T) (p : Capture DnsMsg T) : DnsEvent T :=
  { ev with
    answers := p.msg.answers
    rcode := rcodeStr (p.msg.flags &&& 0x000F)
    latency := p.now - ev.sent
    ts := p.now }

/-- One iteration over the `pending` map; the event is the one handed to `emit`. -/
def step (pending : Std.HashMap UInt16 (DnsEvent T)) (p : Capture DnsMsg T) :
    Std.HashMap UInt16 (DnsEvent T) × Option (DnsEvent T) :=
  let isQuery := p.msg.flags &&& 0x8000 = 0
  if isQuery ∧ p.dst = 53 then (pending.insert p.msg.id (.ofQuery p), none)
  else if ¬isQuery ∧ p.src = 53 then
    match pending[p.msg.id]? with
    | none => (pending, none)
    | some ev => (pending.erase p.msg.id, some (ev.answered p))
  else (pending, none)

/-- What is left of an event after the filters of `emit`. -/
def emit (F : Filters) (ev : DnsEvent T) : Option (DnsEvent T) :=
  if F.passes ev.pname ev.pid ev.qtype ev.query then some ev else none

/-- The filters let a query through. -/
def wanted (F : Filters) (p : Capture DnsMsg T) : Bool :=
  F.passes (p.owner p.src).2 (p.owner p.src).1 (qtypeStr p.msg.qtype) p.msg.question

end Go

/-! ## The C port -/

namespace C

/-- `qtype_str`. -/
def qtypeStr (t : UInt16) : Bytes := qtypeText t

/-- A slot of `pending`. -/
structure PendingT (T : Type) where
  set : Bool
  query : Bytes
  qtype : Bytes
  pid : Int
  name : Bytes
  sent : T

/-- The arguments of `emit`. -/
structure Emission (T : Type) where
  query : Bytes
  qtype : Bytes
  pid : Int
  name : Bytes
  resp : DnsMsg
  latency : T

/-- The `pending` array, zeroed at the start. -/
abbrev Table (T : Type) := Vector (PendingT T) 65536

def Table.zeroed : Table T := Vector.replicate 65536 ⟨false, [], [], 0, [], 0⟩

/-- The slot of a transaction id. -/
def slot (id : UInt16) : Fin 65536 := ⟨id.toNat, id.toNat_lt⟩

/-- The slot as a query fills it. -/
def PendingT.ofQuery (p : Capture DnsMsg T) : PendingT T :=
  let (pid, name) := p.owner p.src
  { set := true, query := snprintf 256 p.msg.question,
    qtype := snprintf 16 (qtypeStr p.msg.qtype), pid, name := snprintf 64 name, sent := p.now }

/-- What is emitted for the slot at a response. -/
def PendingT.answered (s : PendingT T) (p : Capture DnsMsg T) : Emission T :=
  ⟨s.query, s.qtype, s.pid, s.name, p.msg, p.now - s.sent⟩

/-- One iteration over the `pending` array. -/
def step (pending : Table T) (p : Capture DnsMsg T) : Table T × Option (Emission T) :=
  let isQuery := p.msg.flags &&& 0x8000 = 0
  let i := slot p.msg.id
  if isQuery ∧ p.dst = 53 then (pending.set i.1 (.ofQuery p) i.2, none)
  else if ¬isQuery ∧ p.src = 53 then
    let s := pending.get i
    if s.set then (pending.set i.1 { s with set := false } i.2, some (s.answered p))
    else (pending, none)
  else (pending, none)

/-- What is left of an emission after the filters of `emit`. -/
def emit (F : Filters) (e : Emission T) : Option (Emission T) :=
  if F.passes e.name e.pid e.qtype e.query then some e else none

/-- The filters let a query through, as the slot shows it. -/
def wanted (F : Filters) (p : Capture DnsMsg T) : Bool :=
  F.passes (snprintf 64 (p.owner p.src).2) (p.owner p.src).1
    (snprintf 16 (qtypeStr p.msg.qtype)) (snprintf 256 p.msg.question)

end C

end Tracep.Dns
