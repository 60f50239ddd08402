import Tracep.Nettrace.Walk

/-!
# Connections sent and read back

A conntrack message nests its attributes three deep. What a sender may make
of a connection (`Encoding`) is, at each level, the attributes due there in
any order, with any flag bits, and others of unknown types among them
(`Lists`). The parsers look the attributes up by type, so each level comes
out as it was put in (`Lists.look`), and with the levels the tuple and the
TCP state (`Encoding.tupleOf_payload`, `Encoding.tcpStateOf_payload`). A buffer of
such messages splits into them, and both ports read every connection back
(`processNlMsgs_roundTrip`).
-/

namespace Tracep.Nettrace

open Exec Relation Netlink

/-! ## Lists of attributes -/

/-- The list `as` holds the attributes `fields`, in any order, and otherwise only attributes
of types that are not `known`. No type is repeated. -/
structure Lists (known : List UInt16) (fields : List (UInt16 × Bytes)) (as : List Attr) :
    Prop where
  distinct : ((as.map Attr.pair).map Prod.fst).Nodup
  fields : ∃ extra, (as.map Attr.pair).Perm (fields ++ extra) ∧ ∀ a ∈ extra, a.1 ∉ known

namespace Lists

variable {known : List UInt16} {fields : List (UInt16 × Bytes)} {as : List Attr}

theorem distinct_bytes (h : Lists known fields as) : Distinct (attrBytes as) := by
  rw [Distinct, frames_attrBytes]
  exact h.distinct

theorem mem_iff (h : Lists known fields as) {t : UInt16} (ht : t ∈ known) {v : Bytes} :
    (t, v) ∈ attrs.frames (attrBytes as) ↔ (t, v) ∈ fields := by
  obtain ⟨extra, hperm, hunknown⟩ := h.fields
  rw [frames_attrBytes, hperm.mem_iff, List.mem_append]
  exact or_iff_left fun hmem => hunknown _ hmem ht

/-- An attribute of a known type is looked up as it was put in. -/
theorem look (h : Lists known fields as) {t : UInt16} (ht : t ∈ known) :
    firstLook (attrBytes as) t = fields.lookup t := by
  have hfields : (fields.map Prod.fst).Nodup := by
    obtain ⟨extra, hperm, -⟩ := h.fields
    have hnodup := (hperm.map Prod.fst).nodup_iff.mp h.distinct
    rw [List.map_append] at hnodup
    exact hnodup.of_append_left
  apply Option.ext
  intro v
  rw [firstLook, lookup_iff_mem h.distinct_bytes, h.mem_iff ht, lookup_iff_mem hfields]

end Lists

/-! ## Connections -/

section Addr

variable {look : UInt16 → Option Bytes} {v4 v6 : UInt16} {b : Bytes}

theorem addrOf_v4 (h6 : look v6 = none) (h4 : look v4 = some b) (hb : b.length = 4) :
    addrOf look v4 v6 = some b := by
  rw [addrOf, h6, h4]
  simp [Option.filter, hb]

theorem addrOf_v6 (h6 : look v6 = some b) (hb : b.length = 16) :
    addrOf look v4 v6 = some b := by
  rw [addrOf, h6]
  simp [Option.filter, hb]

end Addr

/-- Two addresses of one IP version. -/
inductive Addresses where
  | v4 (src dst : {b : Bytes // b.length = 4})
  | v6 (src dst : {b : Bytes // b.length = 16})

namespace Addresses

def src : Addresses → Bytes
  | v4 s _ => s.1
  | v6 s _ => s.1

def dst : Addresses → Bytes
  | v4 _ d => d.1
  | v6 _ d => d.1

def fields : Addresses → List (UInt16 × Bytes)
  | v4 s d => [(ctaIPv4Src, s.1), (ctaIPv4Dst, d.1)]
  | v6 s d => [(ctaIPv6Src, s.1), (ctaIPv6Dst, d.1)]

def known : List UInt16 := [ctaIPv4Src, ctaIPv4Dst, ctaIPv6Src, ctaIPv6Dst]

theorem addrOf_src {a : Addresses} {as : List Attr} (h : Lists known a.fields as) :
    addrOf (firstLook (attrBytes as)) ctaIPv4Src ctaIPv6Src = some a.src := by
  have h4 := h.look (t := ctaIPv4Src) (by decide)
  have h6 := h.look (t := ctaIPv6Src) (by decide)
  cases a with
  | v4 s d => exact addrOf_v4 h6 h4 s.2
  | v6 s d => exact addrOf_v6 h6 s.2

theorem addrOf_dst {a : Addresses} {as : List Attr} (h : Lists known a.fields as) :
    addrOf (firstLook (attrBytes as)) ctaIPv4Dst ctaIPv6Dst = some a.dst := by
  have h4 := h.look (t := ctaIPv4Dst) (by decide)
  have h6 := h.look (t := ctaIPv6Dst) (by decide)
  cases a with
  | v4 s d => exact addrOf_v4 h6 h4 d.2
  | v6 s d => exact addrOf_v6 h6 d.2

end Addresses

/-- A connection, and its TCP state if that is known. -/
structure Conn where
  addresses : Addresses
  proto : UInt8
  srcPort : UInt16
  dstPort : UInt16
  state : Option UInt8

namespace Conn

def tuple (c : Conn) : Go.ConnTuple :=
  ⟨some c.addresses.src, some c.addresses.dst, c.srcPort, c.dstPort, c.proto⟩

def protoFields (c : Conn) : List (UInt16 × Bytes) :=
  [(ctaProtoNum, [c.proto]), (ctaProtoSrcPort, be16Bytes c.srcPort),
    (ctaProtoDstPort, be16Bytes c.dstPort)]

def stateFields (c : Conn) : List (UInt16 × Bytes) :=
  c.state.toList.map fun s => (ctaProtoinfoTCPState, [s])

end Conn

/-- The attribute lists of a message about a connection. Without a state any of the levels it
would be in may be missing. -/
structure Encoding (c : Conn) where
  ip : List Attr
  proto : List Attr
  tuple : List Attr
  tcp : Option (List Attr)
  protoinfo : Option (List Attr)
  top : List Attr
  ip_lists : Lists Addresses.known c.addresses.fields ip
  proto_lists : Lists [ctaProtoNum, ctaProtoSrcPort, ctaProtoDstPort] c.protoFields proto
  tuple_lists : Lists [ctaTupleIP, ctaTupleProto]
    [(ctaTupleIP, attrBytes ip), (ctaTupleProto, attrBytes proto)] tuple
  tcp_lists : ∀ as ∈ tcp, Lists [ctaProtoinfoTCPState] c.stateFields as
  protoinfo_lists : ∀ as ∈ protoinfo, Lists [ctaProtoinfoTCP]
    (tcp.toList.map fun as => (ctaProtoinfoTCP, attrBytes as)) as
  top_lists : Lists [ctaTupleOrig, ctaProtoinfo]
    ((ctaTupleOrig, attrBytes tuple)
      :: protoinfo.toList.map fun as => (ctaProtoinfo, attrBytes as)) top
  state_sent : c.state.isSome → tcp.isSome ∧ protoinfo.isSome

namespace Encoding

variable {c : Conn}

def payload (e : Encoding c) : Bytes := attrBytes e.top

theorem look_tuple (e : Encoding c) :
    firstLook e.payload ctaTupleOrig = some (attrBytes e.tuple) := by
  rw [payload, e.top_lists.look (by decide)]
  rfl

theorem look_protoinfo (e : Encoding c) :
    firstLook e.payload ctaProtoinfo = e.protoinfo.map attrBytes := by
  rw [payload, e.top_lists.look (by decide)]
  cases e.protoinfo <;> rfl

theorem look_ip (e : Encoding c) :
    firstLook (attrBytes e.tuple) ctaTupleIP = some (attrBytes e.ip) := by
  rw [e.tuple_lists.look (by decide)]
  rfl

theorem look_proto (e : Encoding c) :
    firstLook (attrBytes e.tuple) ctaTupleProto = some (attrBytes e.proto) := by
  rw [e.tuple_lists.look (by decide)]
  rfl

theorem look_tcp (e : Encoding c) {pi : List Attr} (h : pi ∈ e.protoinfo) :
    firstLook (attrBytes pi) ctaProtoinfoTCP = e.tcp.map attrBytes := by
  rw [(e.protoinfo_lists pi h).look (by decide)]
  cases e.tcp <;> rfl

theorem look_state (e : Encoding c) {tcp : List Attr} (h : tcp ∈ e.tcp) :
    firstLook (attrBytes tcp) ctaProtoinfoTCPState = c.state.map ([·]) := by
  rw [(e.tcp_lists tcp h).look (by decide), Conn.stateFields]
  cases c.state <;> rfl

/-- The tuple is read back. -/
theorem tupleOf_payload (e : Encoding c) :
    tupleOf firstLook e.payload ctaTupleOrig = some c.tuple := by
  have hnum : firstLook (attrBytes e.proto) ctaProtoNum = some [c.proto] := by
    rw [e.proto_lists.look (by decide)]
    rfl
  have hsrc : firstLook (attrBytes e.proto) ctaProtoSrcPort = some (be16Bytes c.srcPort) := by
    rw [e.proto_lists.look (by decide)]
    rfl
  have hdst : firstLook (attrBytes e.proto) ctaProtoDstPort = some (be16Bytes c.dstPort) := by
    rw [e.proto_lists.look (by decide)]
    rfl
  have hport : ∀ p, portOf (some (be16Bytes p)) = p := fun p =>
    At.word (p := 0) ⟨Nat.le_refl _, rfl⟩
  simp only [tupleOf, e.look_tuple, Option.bind_some, e.look_ip, e.look_proto, tupleWith,
    Addresses.addrOf_src e.ip_lists, Addresses.addrOf_dst e.ip_lists, hnum, hsrc, hdst, hport]
  rfl

/-- The state is read back, as zero where there is none. -/
theorem tcpStateOf_payload (e : Encoding c) :
    tcpStateOf firstLook e.payload = c.state.getD 0 := by
  have hsent := e.state_sent
  unfold tcpStateOf
  rw [e.look_protoinfo]
  cases hprotoinfo : e.protoinfo with
  | none =>
      cases hstate : c.state with
      | none => rfl
      | some s => simp [hprotoinfo, hstate] at hsent
  | some pi =>
      rw [Option.map_some, Option.bind_some, e.look_tcp hprotoinfo]
      cases htcp : e.tcp with
      | none =>
          cases hstate : c.state with
          | none => rfl
          | some s => simp [htcp, hstate] at hsent
      | some tcp =>
          rw [Option.map_some, Option.bind_some, e.look_state htcp]
          cases c.state <;> rfl

/-- No list that the parsers open repeats a type. -/
theorem distinct_of_opened (e : Encoding c) {d : Bytes} (h : Opened ctaTupleOrig e.payload d) :
    Distinct d := by
  have htop : Distinct e.payload := e.top_lists.distinct_bytes
  have htuple : ∀ {d}, (ctaTupleOrig, d) ∈ attrs.frames e.payload → d = attrBytes e.tuple := by
    intro d hd
    have hlook := e.look_tuple.symm.trans ((lookup_iff_mem htop).mpr hd)
    exact (Option.some.inj hlook).symm
  have hprotoinfo : ∀ {d}, (ctaProtoinfo, d) ∈ attrs.frames e.payload →
      ∃ pi ∈ e.protoinfo, attrBytes pi = d := by
    intro d hd
    exact Option.map_eq_some_iff.mp (e.look_protoinfo.symm.trans ((lookup_iff_mem htop).mpr hd))
  have hdistinct := e.tuple_lists.distinct_bytes
  cases h with
  | payload => exact htop
  | tuple hd =>
      rw [htuple hd]
      exact hdistinct
  | ip hd hd' =>
      rw [htuple hd] at hd'
      obtain rfl := Option.some.inj (e.look_ip.symm.trans ((lookup_iff_mem hdistinct).mpr hd'))
      exact e.ip_lists.distinct_bytes
  | proto hd hd' =>
      rw [htuple hd] at hd'
      obtain rfl := Option.some.inj (e.look_proto.symm.trans ((lookup_iff_mem hdistinct).mpr hd'))
      exact e.proto_lists.distinct_bytes
  | protoinfo hd =>
      obtain ⟨pi, hpi, rfl⟩ := hprotoinfo hd
      exact (e.protoinfo_lists pi hpi).distinct_bytes
  | tcp hd hd' =>
      obtain ⟨pi, hpi, rfl⟩ := hprotoinfo hd
      have hlook := (lookup_iff_mem (e.protoinfo_lists pi hpi).distinct_bytes).mpr hd'
      obtain ⟨tcp, htcp, rfl⟩ := Option.map_eq_some_iff.mp ((e.look_tcp hpi).symm.trans hlook)
      exact (e.tcp_lists tcp htcp).distinct_bytes

end Encoding

/-! ## Messages -/

/-- A conntrack message about a connection. -/
structure ConnMessage where
  conn : Conn
  encoding : Encoding conn
  nfgenmsg : {b : Bytes // b.length = nfgenMsgSize}
  packet : Packet
  event : packet.type = msgCtNew ∨ packet.type = msgCtDelete
  carries : packet.data = nfgenmsg.1 ++ encoding.payload

namespace ConnMessage

/-- What is to be found at the message. -/
def found (is4 : Option Bytes → Bool) (opts : Options) (m : ConnMessage) :
    Visit Bytes Go.ConnTuple :=
  ⟨some m.encoding.payload, some m.conn.tuple,
    if skip opts (is4 m.conn.tuple.srcIP) m.conn.proto then none
    else handler opts m.packet.type m.packet.flags⟩

/-- The messages one after another. -/
def buffer (ms : List ConnMessage) : Bytes := (ms.map fun m => m.packet.bytes).flatten

theorem buffer_eq (ms : List ConnMessage) :
    buffer ms = ((ms.map packet).map Packet.bytes).flatten := by
  rw [buffer, List.map_map]
  rfl

theorem frames_buffer (ms : List ConnMessage) :
    messages.frames (buffer ms) = ms.map fun m => m.packet.message := by
  rw [buffer_eq, Packet.frames_bytes, List.map_map]
  rfl

theorem visitWith_message {look : Bytes → UInt16 → Option Bytes} (is4 : Option Bytes → Bool)
    (opts : Options) (m : ConnMessage)
    (hlook : tupleOf look m.encoding.payload ctaTupleOrig = some m.conn.tuple) :
    visitWith look is4 opts m.packet.message = m.found is4 opts := by
  have hdata : m.packet.message.data = m.nfgenmsg.1 ++ m.encoding.payload := m.carries
  have hpayload : m.packet.message.data.drop nfgenMsgSize = m.encoding.payload := by
    rw [hdata, List.drop_left' m.nfgenmsg.2]
  have hevent : ¬((m.packet.message.type ≠ msgCtNew ∧ m.packet.message.type ≠ msgCtDelete)
      ∨ m.packet.message.data.length < nfgenMsgSize) := by
    rw [hdata, List.length_append, m.nfgenmsg.2]
    exact not_or.mpr ⟨not_and_or.mpr (m.event.imp not_not.mpr not_not.mpr),
      Nat.not_lt.mpr (Nat.le_add_right _ _)⟩
  unfold visitWith
  rw [if_neg hevent]
  simp only [hpayload, hlook]
  rfl

theorem held_of_walk {ms : List ConnMessage} (hlen : (buffer ms).length < 2 ^ 31) {r : Bytes}
    (hwalk : Walk (buffer ms) r) (h16 : 16 ≤ r.length) : C.Held r := by
  have hle := hwalk.length_le
  rw [buffer_eq] at hwalk
  obtain ⟨-, halign⟩ := Packet.splits_bytes _ r hwalk h16
  exact Or.inl (by omega)

/-- The C port finds every connection, and reads its state. -/
theorem processNlMsgs_returns (opts : Options) (ms : List ConnMessage)
    (hlen : (buffer ms).length < 2 ^ 31) :
    ∃ visits, (C.processNlMsgs opts (buffer ms) 0 (buffer ms).length).Returns visits
      ∧ List.Forall₂ (fun v m => C.Shows (buffer ms) v (m.found C.isV4 opts)
          ∧ ∃ payload plen, v.payload = some (payload, plen)
            ∧ (C.parseTcpState (buffer ms) payload plen).Returns (m.conn.state.getD 0))
        visits ms := by
  obtain ⟨visits, hret, hvisits⟩ :=
    C.processNlMsgs_returns opts hlen fun r => held_of_walk hlen
  refine ⟨visits, hret, ?_⟩
  rw [frames_buffer, List.forall₂_map_right_iff] at hvisits
  refine hvisits.imp fun v m hshows => ?_
  rw [visitWith_message _ _ _ m.encoding.tupleOf_payload] at hshows
  refine ⟨hshows, ?_⟩
  obtain ⟨q, k, hpayload, hqk, hbytes⟩ := place_of_points hshows.payload
  have hstate := C.parseTcpState_returns hqk
  rw [hbytes, m.encoding.tcpStateOf_payload] at hstate
  exact ⟨q, k, hpayload, hstate⟩

/-- Both ports find the connections of a buffer, one for each message and in order, with the
tuples sent, and read the states sent. -/
theorem processNlMsgs_roundTrip (opts : Options) (ms : List ConnMessage) :
    ((buffer ms).length < 2 ^ 31 →
      ∃ visits, (C.processNlMsgs opts (buffer ms) 0 (buffer ms).length).Returns visits
        ∧ List.Forall₂ (fun v m => C.Shows (buffer ms) v (m.found C.isV4 opts)
            ∧ ∃ payload plen, v.payload = some (payload, plen)
              ∧ (C.parseTcpState (buffer ms) payload plen).Returns (m.conn.state.getD 0))
          visits ms)
      ∧ (Go.processNlMsgs opts (buffer ms)).Returns
          (ms.map (found (fun ip => (Go.to4 ip).isSome) opts))
      ∧ ∀ m ∈ ms, (Go.parseTCPState m.encoding.payload).Returns (m.conn.state.getD 0) := by
  refine ⟨processNlMsgs_returns opts ms, ?_, ?_⟩
  · have hgo := Go.processNlMsgs_returns opts (buffer ms)
    rw [parseNetlinkMessage_of_splits (buffer_eq ms ▸ Packet.splits_bytes _), Option.getD_some,
      frames_buffer, List.map_map] at hgo
    have hfound : ∀ m : ConnMessage, visitWith lastLook (fun ip => (Go.to4 ip).isSome) opts
        m.packet.message = m.found (fun ip => (Go.to4 ip).isSome) opts := by
      intro m
      refine visitWith_message _ _ _ ?_
      rw [tupleOf_lastLook fun d => m.encoding.distinct_of_opened, m.encoding.tupleOf_payload]
    convert hgo using 2
    exact funext fun m => (hfound m).symm
  · intro m _
    have hstate := Go.parseTCPState_returns m.encoding.payload
    rwa [tcpStateOf_lastLook fun d => m.encoding.distinct_of_opened,
      m.encoding.tcpStateOf_payload] at hstate

end ConnMessage

/-! ## A sample -/

/-- The attributes of `10.0.0.1:8080 → 10.0.0.2:80`, established. -/
def sampleTcp : List Attr :=
  [⟨2, [7], [0, 0, 0], rfl, of_decide_eq_true rfl⟩,
    ⟨ctaProtoinfoTCPState, [3], [0, 0, 0], rfl, of_decide_eq_true rfl⟩]

def sampleProtoinfo : List Attr :=
  [⟨nlaFNested ||| ctaProtoinfoTCP, attrBytes sampleTcp, [], rfl, of_decide_eq_true rfl⟩]

def sampleTop : List Attr :=
  [⟨nlaFNested ||| ctaProtoinfo, attrBytes sampleProtoinfo, [], rfl, of_decide_eq_true rfl⟩,
    ⟨nlaFNetByteorder ||| 8, [0, 0, 1, 138], [], rfl, of_decide_eq_true rfl⟩,
    sampleOrig]

def sampleConn : Conn :=
  ⟨.v4 ⟨[10, 0, 0, 1], rfl⟩ ⟨[10, 0, 0, 2], rfl⟩, 6, 8080, 80, some 3⟩

theorem sampleTcp_lists : Lists [ctaProtoinfoTCPState] sampleConn.stateFields sampleTcp :=
  ⟨by decide, [(2, [7])], by decide, by decide⟩

theorem sampleTop_lists : Lists [ctaTupleOrig, ctaProtoinfo]
    [(ctaTupleOrig, attrBytes sampleTuple), (ctaProtoinfo, attrBytes sampleProtoinfo)]
    sampleTop :=
  ⟨by decide, [(8, [0, 0, 1, 138])], by decide, by decide⟩

theorem sampleProtoinfo_lists : Lists [ctaProtoinfoTCP]
    [(ctaProtoinfoTCP, attrBytes sampleTcp)] sampleProtoinfo :=
  ⟨by decide, [], by decide, by decide⟩

theorem sampleTuple_lists : Lists [ctaTupleIP, ctaTupleProto]
    [(ctaTupleIP, attrBytes sampleIP), (ctaTupleProto, attrBytes sampleProto)] sampleTuple :=
  ⟨by decide, [], by decide, by decide⟩

def sampleEncoding : Encoding sampleConn where
  ip := sampleIP
  proto := sampleProto
  tuple := sampleTuple
  tcp := some sampleTcp
  protoinfo := some sampleProtoinfo
  top := sampleTop
  ip_lists := ⟨by decide, [], by decide, by decide⟩
  proto_lists := ⟨by decide, [], by decide, by decide⟩
  tuple_lists := sampleTuple_lists
  tcp_lists := fun _ h => Option.some.inj h ▸ sampleTcp_lists
  protoinfo_lists := fun _ h => Option.some.inj h ▸ sampleProtoinfo_lists
  top_lists := sampleTop_lists
  state_sent := fun _ => ⟨rfl, rfl⟩

def sampleMessage : ConnMessage where
  conn := sampleConn
  encoding := sampleEncoding
  nfgenmsg := ⟨[2, 0, 0, 0], rfl⟩
  packet := ⟨msgCtNew, nlmFCreate, 0, 0, [2, 0, 0, 0] ++ attrBytes sampleTop, [], rfl,
    of_decide_eq_true rfl⟩
  event := Or.inl rfl
  carries := rfl

theorem sampleMessage_roundTrip :
    (Go.parseTCPState sampleEncoding.payload).Returns 3
      ∧ ∃ visits, (C.processNlMsgs ⟨false, false, true, true⟩ (ConnMessage.buffer [sampleMessage]) 0
        (ConnMessage.buffer [sampleMessage]).length).Returns visits
          ∧ visits.map (fun v => v.orig.map C.ConnTuple.toGo) = [some sampleConn.tuple] := by
  obtain ⟨hc, -, hstate⟩ :=
    ConnMessage.processNlMsgs_roundTrip ⟨false, false, true, true⟩ [sampleMessage]
  obtain ⟨visits, hret, hvisits⟩ := hc (by decide)
  refine ⟨hstate sampleMessage List.mem_cons_self, visits, hret, ?_⟩
  obtain ⟨v, rest, ⟨hshows, -⟩, hrest, rfl⟩ := List.forall₂_cons_right_iff.mp hvisits
  obtain rfl := List.forall₂_nil_right_iff.mp hrest
  exact congrArg (fun o => [o]) hshows.orig

end Tracep.Nettrace
