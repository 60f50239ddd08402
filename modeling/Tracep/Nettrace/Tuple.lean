import Tracep.Nettrace.Attr

/-!
# Connection tuples

A conntrack payload nests its attributes: the original tuple holds an IP
list and a protocol list, the protocol information a TCP list.
`parse_tuple` and `parse_tcp_state` open the lists on the way to the values
they want and take what they find there.

What they return is a function of the lookups they make (`tupleOf`,
`tcpStateOf`). The ports differ in nothing else: the Go port looks up the
last attribute of a type, the C port the first, through pointers that never
leave the payload (`C.parseTuple_returns`, `C.parseTcpState_returns`). So
they agree on every payload that repeats no type in a list they open
(`parse_agree`).
-/

namespace Tracep.Nettrace

open Exec

/-! ## Attribute types -/

def ctaTupleOrig : UInt16 := 1
def ctaProtoinfo : UInt16 := 4
def ctaTupleIP : UInt16 := 1
def ctaTupleProto : UInt16 := 2
def ctaIPv4Src : UInt16 := 1
def ctaIPv4Dst : UInt16 := 2
def ctaIPv6Src : UInt16 := 3
def ctaIPv6Dst : UInt16 := 4
def ctaProtoNum : UInt16 := 1
def ctaProtoSrcPort : UInt16 := 2
def ctaProtoDstPort : UInt16 := 3
def ctaProtoinfoTCP : UInt16 := 1
def ctaProtoinfoTCPState : UInt16 := 1

/-! ## The Go code -/

namespace Go

/-- `connTuple`. An address that is `nil` is `none`. -/
structure ConnTuple where
  srcIP : Option Bytes
  dstIP : Option Bytes
  srcPort : UInt16
  dstPort : UInt16
  proto : UInt8
deriving Repr, DecidableEq

/-- `if v, ok := m[t]; ok && len(v) == n`: take the address. -/
def copyIP (v : Option Bytes) (n : Nat) (ip : Option Bytes) : Option Bytes :=
  match v with
  | some v => if v.length = n then some v else ip
  | none => ip

/-- The addresses of the IP list, if there is one. -/
def parseTupleIP (ipData : Option Bytes) (t : ConnTuple) : Exec ConnTuple :=
  match ipData with
  | some ipData => do
      let ia ← parseNLAttrs ipData
      let t := { t with srcIP := copyIP (ia ctaIPv4Src) 4 t.srcIP }
      let t := { t with dstIP := copyIP (ia ctaIPv4Dst) 4 t.dstIP }
      let t := { t with srcIP := copyIP (ia ctaIPv6Src) 16 t.srcIP }
      return { t with dstIP := copyIP (ia ctaIPv6Dst) 16 t.dstIP }
  | none => return t

/-- `binary.BigEndian.Uint16`. -/
def bigEndianUint16 (v : Bytes) : Exec UInt16 := do
  let lo ← index v 1
  let hi ← index v 0
  return be16 hi lo

/-- `if v, ok := m[t]; ok && len(v) >= n`: read a field from the value. -/
def readField {α : Type} (v : Option Bytes) (n : Nat) (read : Bytes → Exec α) (field : α) :
    Exec α :=
  match v with
  | some v => if v.length ≥ n then read v else return field
  | none => return field

/-- Protocol and ports of the protocol list, if there is one. -/
def parseTupleProto (protoData : Option Bytes) (t : ConnTuple) : Exec ConnTuple :=
  match protoData with
  | some protoData => do
      let pa ← parseNLAttrs protoData
      let t := { t with proto := ← readField (pa ctaProtoNum) 1 (index · 0) t.proto }
      let t := { t with srcPort := ← readField (pa ctaProtoSrcPort) 2 bigEndianUint16 t.srcPort }
      return { t with dstPort := ← readField (pa ctaProtoDstPort) 2 bigEndianUint16 t.dstPort }
  | none => return t

def parseTuple (payload : Bytes) (tupleAttr : UInt16) : Exec (Option ConnTuple) := do
  let top ← parseNLAttrs payload
  match top tupleAttr with
  | none => return none
  | some tupleData => do
      let ta ← parseNLAttrs tupleData
      let t ← parseTupleIP (ta ctaTupleIP) ⟨none, none, 0, 0, 0⟩
      let t ← parseTupleProto (ta ctaTupleProto) t
      if t.srcIP.isNone ∨ t.dstIP.isNone then return none else return some t

def parseTCPState (payload : Bytes) : Exec UInt8 := do
  let top ← parseNLAttrs payload
  match top ctaProtoinfo with
  | none => return 0
  | some piData => do
      let piAttrs ← parseNLAttrs piData
      match piAttrs ctaProtoinfoTCP with
      | none => return 0
      | some tcpData => do
          let tcpAttrs ← parseNLAttrs tcpData
          readField (tcpAttrs ctaProtoinfoTCPState) 1 (index · 0) 0

end Go

/-! ## The C code -/

namespace C

/-- `conn_tuple`. The addresses are 16-byte arrays of which `srcLen` and `dstLen` bytes are
set. -/
structure ConnTuple where
  srcIp : Bytes
  dstIp : Bytes
  srcLen : Int
  dstLen : Int
  srcPort : UInt16
  dstPort : UInt16
  proto : UInt8
deriving Repr, DecidableEq

/-- After `memset(t, 0, sizeof *t)`. -/
def ConnTuple.zero : ConnTuple :=
  ⟨List.replicate 16 0, List.replicate 16 0, 0, 0, 0, 0, 0⟩

def memcpy (dst src : Bytes) : Bytes := src ++ dst.drop src.length

/-- `if (set.has[t] && set.len[t] == n)`: copy the address and set its length. -/
def copyIp (mem : Bytes) (entry : Option (Int × Int)) (n : Int) (ip : Bytes × Int) :
    Exec (Bytes × Int) :=
  match entry with
  | some (val, len) =>
      if len = n then do return (memcpy ip.1 (← slice mem val (val + n)), n) else return ip
  | none => return ip

/-- The addresses of the IP list, if there is one. -/
def parseTupleIP (mem : Bytes) (ip : Option (Int × Int)) (t : ConnTuple) : Exec ConnTuple :=
  match ip with
  | some (val, len) => do
      let ia ← parseNla mem val len
      let src ← copyIp mem (ia.get ctaIPv4Src) 4 (t.srcIp, t.srcLen)
      let dst ← copyIp mem (ia.get ctaIPv4Dst) 4 (t.dstIp, t.dstLen)
      let src ← copyIp mem (ia.get ctaIPv6Src) 16 src
      let dst ← copyIp mem (ia.get ctaIPv6Dst) 16 dst
      return { t with srcIp := src.1, srcLen := src.2, dstIp := dst.1, dstLen := dst.2 }
  | none => return t

/-- `(v[0] << 8) | v[1]`. -/
def bigEndianPort (mem : Bytes) (v : Int) : Exec UInt16 := do
  let hi ← index mem v
  let lo ← index mem (v + 1)
  return be16 hi lo

/-- `if (set.has[t] && set.len[t] >= n)`: read a field from the value. -/
def readField {α : Type} (entry : Option (Int × Int)) (n : Int) (read : Int → Exec α)
    (field : α) : Exec α :=
  match entry with
  | some (val, len) => if len ≥ n then read val else return field
  | none => return field

/-- Protocol and ports of the protocol list, if there is one. -/
def parseTupleProto (mem : Bytes) (proto : Option (Int × Int)) (t : ConnTuple) :
    Exec ConnTuple :=
  match proto with
  | some (val, len) => do
      let pa ← parseNla mem val len
      let t := { t with proto := ← readField (pa.get ctaProtoNum) 1 (index mem) t.proto }
      let srcPort ← readField (pa.get ctaProtoSrcPort) 2 (bigEndianPort mem) t.srcPort
      let dstPort ← readField (pa.get ctaProtoDstPort) 2 (bigEndianPort mem) t.dstPort
      return { t with srcPort := srcPort, dstPort := dstPort }
  | none => return t

/-- `parse_tuple` on the `plen` bytes at `payload`; `none` is a return of `false`. -/
def parseTuple (mem : Bytes) (payload plen : Int) (tupleAttr : UInt16) :
    Exec (Option ConnTuple) := do
  let top ← parseNla mem payload plen
  match top.get tupleAttr with
  | none => return none
  | some (val, len) => do
      let ta ← parseNla mem val len
      let t ← parseTupleIP mem (ta.get ctaTupleIP) .zero
      let t ← parseTupleProto mem (ta.get ctaTupleProto) t
      if t.srcLen = 0 ∨ t.dstLen = 0 then return none else return some t

/-- `parse_tcp_state` on the `plen` bytes at `payload`. -/
def parseTcpState (mem : Bytes) (payload plen : Int) : Exec UInt8 := do
  let top ← parseNla mem payload plen
  match top.get ctaProtoinfo with
  | none => return 0
  | some (val, len) => do
      let pi ← parseNla mem val len
      match pi.get ctaProtoinfoTCP with
      | none => return 0
      | some (val, len) => do
          let tcp ← parseNla mem val len
          readField (tcp.get ctaProtoinfoTCPState) 1 (index mem) 0

end C

/-! ## What the lookups give -/

/-- An IPv6 address where there is one, else an IPv4 address. -/
def addrOf (look : UInt16 → Option Bytes) (v4 v6 : UInt16) : Option Bytes :=
  ((look v6).filter (·.length = 16)).or ((look v4).filter (·.length = 4))

def byteOf (v : Option Bytes) : UInt8 := ((v.filter (1 ≤ ·.length)).map (·.getD 0 0)).getD 0

def portOf (v : Option Bytes) : UInt16 := ((v.filter (2 ≤ ·.length)).map (word · 0)).getD 0

/-- A tuple with both addresses. -/
def tupleWith (ip proto : UInt16 → Option Bytes) : Option Go.ConnTuple :=
  let t : Go.ConnTuple := ⟨addrOf ip ctaIPv4Src ctaIPv6Src, addrOf ip ctaIPv4Dst ctaIPv6Dst,
    portOf (proto ctaProtoSrcPort), portOf (proto ctaProtoDstPort), byteOf (proto ctaProtoNum)⟩
  if t.srcIP.isNone ∨ t.dstIP.isNone then none else some t

/-- The tuple of a payload. -/
def tupleOf (look : Bytes → UInt16 → Option Bytes) (payload : Bytes) (tupleAttr : UInt16) :
    Option Go.ConnTuple :=
  (look payload tupleAttr).bind fun tuple =>
    tupleWith (fun t => (look tuple ctaTupleIP).bind (look · t))
      (fun t => (look tuple ctaTupleProto).bind (look · t))

/-- The TCP state of a payload. -/
def tcpStateOf (look : Bytes → UInt16 → Option Bytes) (payload : Bytes) : UInt8 :=
  byteOf ((look payload ctaProtoinfo).bind fun pi =>
    (look pi ctaProtoinfoTCP).bind (look · ctaProtoinfoTCPState))

/-! ### The Go port -/

theorem Go.copyIP_eq (v : Option Bytes) (n : Nat) (ip : Option Bytes) :
    copyIP v n ip = (v.filter (·.length = n)).or ip := by
  cases v with
  | none => rfl
  | some v => by_cases h : v.length = n <;> simp [copyIP, Option.filter, h]

theorem Go.parseTupleIP_returns (ipData : Option Bytes) :
    (Go.parseTupleIP ipData ⟨none, none, 0, 0, 0⟩).Returns
      ⟨addrOf (fun t => ipData.bind (lastLook · t)) ctaIPv4Src ctaIPv6Src,
        addrOf (fun t => ipData.bind (lastLook · t)) ctaIPv4Dst ctaIPv6Dst, 0, 0, 0⟩ := by
  unfold Go.parseTupleIP addrOf
  cases ipData with
  | none => exact returns_pure.mpr rfl
  | some d =>
      simp only [(parseNLAttrs_returns d).bind_iff, copyIP_eq, Option.or_none, Option.bind_some]
      exact returns_pure.mpr rfl

theorem Go.bigEndianUint16_eq {v : Bytes} (h : 2 ≤ v.length) :
    bigEndianUint16 v = pure (word v 0) := by
  have h0 := index_getD (d := v) (n := 0) (by omega)
  have h1 := index_getD (d := v) (n := 1) (by omega)
  simp only [Nat.cast_zero, Nat.cast_one] at h0 h1
  rw [bigEndianUint16, h0, h1]
  rfl

theorem Go.readField_byte (v : Option Bytes) :
    readField v 1 (index · 0) 0 = pure (byteOf v) := by
  cases v with
  | none => rfl
  | some v =>
      unfold readField byteOf
      by_cases h : 1 ≤ v.length
      · have h0 := index_getD (d := v) (n := 0) (by omega)
        simp only [Nat.cast_zero] at h0
        simp [Option.filter, h, h0]
      · simp [Option.filter, h]

theorem Go.readField_port (v : Option Bytes) :
    readField v 2 bigEndianUint16 0 = pure (portOf v) := by
  cases v with
  | none => rfl
  | some v =>
      unfold readField portOf
      by_cases h : 2 ≤ v.length
      · simp [Option.filter, h, bigEndianUint16_eq h]
      · simp [Option.filter, h]

theorem Go.parseTupleProto_returns (protoData src dst : Option Bytes) :
    (Go.parseTupleProto protoData ⟨src, dst, 0, 0, 0⟩).Returns
      ⟨src, dst, portOf (protoData.bind (lastLook · ctaProtoSrcPort)),
        portOf (protoData.bind (lastLook · ctaProtoDstPort)),
        byteOf (protoData.bind (lastLook · ctaProtoNum))⟩ := by
  unfold Go.parseTupleProto
  cases protoData with
  | none => exact returns_pure.mpr rfl
  | some d =>
      simp only [(parseNLAttrs_returns d).bind_iff, readField_byte, readField_port, pure_bind]
      exact returns_pure.mpr rfl

theorem Go.parseTuple_returns (payload : Bytes) (tupleAttr : UInt16) :
    (Go.parseTuple payload tupleAttr).Returns (tupleOf lastLook payload tupleAttr) := by
  unfold Go.parseTuple
  rw [(parseNLAttrs_returns payload).bind_iff, tupleOf]
  cases lastLook payload tupleAttr with
  | none => exact returns_pure.mpr rfl
  | some tuple =>
      simp only [(parseNLAttrs_returns tuple).bind_iff, Option.bind_some,
        (parseTupleIP_returns _).bind_iff, (parseTupleProto_returns _ _ _).bind_iff]
      unfold tupleWith
      split
      · exact returns_pure.mpr (if_pos ‹_›)
      · exact returns_pure.mpr (if_neg ‹_›)

theorem Go.parseTCPState_returns (payload : Bytes) :
    (Go.parseTCPState payload).Returns (tcpStateOf lastLook payload) := by
  unfold Go.parseTCPState
  rw [(parseNLAttrs_returns payload).bind_iff, tcpStateOf]
  cases lastLook payload ctaProtoinfo with
  | none => exact returns_pure.mpr rfl
  | some pi =>
      simp only [(parseNLAttrs_returns pi).bind_iff, Option.bind_some]
      cases lastLook pi ctaProtoinfoTCP with
      | none => exact returns_pure.mpr rfl
      | some tcp =>
          simp only [(parseNLAttrs_returns tcp).bind_iff, Option.bind_some, readField_byte]
          exact returns_pure.mpr rfl

/-! ### The C port -/

namespace C

variable {mem : Bytes} {entry : Option (Int × Int)} {v : Option Bytes}

/-- The tuple in the Go port's terms. -/
def ConnTuple.toGo (t : ConnTuple) : Go.ConnTuple :=
  ⟨some (t.srcIp.take t.srcLen.toNat), some (t.dstIp.take t.dstLen.toNat), t.srcPort, t.dstPort,
    t.proto⟩

/-- The address in an array and its length, if it is set. -/
def shown (ip : Bytes × Int) : Option Bytes :=
  if ip.2 = 0 then none else some (ip.1.take ip.2.toNat)

/-- The length is that of the address. -/
def Sized (ip : Bytes × Int) : Prop := ∀ x, shown ip = some x → ip.2 = x.length

theorem copyIp_eq (h : Points mem entry v) {n : Nat} (hn : 0 < n) (ip : Bytes × Int) :
    ∃ ip', copyIp mem entry n ip = pure ip'
      ∧ shown ip' = (v.filter (·.length = n)).or (shown ip) ∧ (Sized ip → Sized ip') := by
  cases h with
  | none => exact ⟨ip, rfl, rfl, id⟩
  | some q k hqk =>
      have hlen : ((mem.drop q).take k).length = k := length_take_drop hqk
      unfold copyIp
      by_cases hkn : k = n
      · subst hkn
        simp only [slice_eq q k rfl rfl hqk, if_true, pure_bind]
        refine ⟨_, rfl, ?_⟩
        have htake : (memcpy ip.1 ((mem.drop q).take k)).take k = (mem.drop q).take k := by
          rw [memcpy, List.take_append_of_le_length (Nat.le_of_eq hlen.symm), List.take_take,
            Nat.min_self]
        have hne : (k : Int) ≠ 0 := by omega
        have hshown : shown (memcpy ip.1 ((mem.drop q).take k), (k : Int))
            = some ((mem.drop q).take k) := by
          simp only [shown, if_neg hne, Int.toNat_natCast, htake]
        refine ⟨?_, fun _ x hx => ?_⟩
        · simp only [hshown, Option.filter, hlen, decide_true, if_true, Option.some_or]
        · obtain rfl := Option.some.inj (hshown.symm.trans hx)
          rw [hlen]
      · have hne : (k : Int) ≠ n := fun he => hkn (Int.ofNat.inj he)
        simp only [if_neg hne, Option.filter, hlen, hkn, decide_false, Bool.false_eq_true,
          if_false, Option.none_or]
        exact ⟨ip, rfl, rfl, id⟩

/-- A field is read from the value if that is long enough. -/
theorem readField_eq {α : Type} (h : Points mem entry v) {n : Nat} {read : Int → Exec α}
    {value : Bytes → α} {field : α}
    (hread : ∀ q k : Nat, q + k ≤ mem.length → n ≤ k →
      read q = pure (value ((mem.drop q).take k))) :
    readField entry n read field = pure (((v.filter (n ≤ ·.length)).map value).getD field) := by
  cases h with
  | none => rfl
  | some q k hqk =>
      have hlen : ((mem.drop q).take k).length = k := length_take_drop hqk
      unfold readField
      by_cases hk : n ≤ k
      · have hcast : (k : Int) ≥ n := by omega
        simp only [if_pos hcast, hread q k hqk hk, Option.filter, hlen, hk, decide_true, if_true,
          Option.map_some, Option.getD_some]
      · have hcast : ¬(k : Int) ≥ n := by omega
        simp only [if_neg hcast, Option.filter, hlen, hk, decide_false, Bool.false_eq_true,
          if_false, Option.map_none, Option.getD_none]

theorem readField_byte (h : Points mem entry v) :
    readField entry 1 (index mem) 0 = pure (byteOf v) := by
  refine readField_eq (n := 1) h fun q k hqk hk => ?_
  rw [index_getD (by omega), getD_take (by omega), getD_drop]
  rfl

theorem readField_port (h : Points mem entry v) :
    readField entry 2 (bigEndianPort mem) 0 = pure (portOf v) := by
  refine readField_eq (n := 2) h fun q k hqk hk => ?_
  have hlo := index_getD (d := mem) (n := q + 1) (by omega)
  push_cast at hlo
  rw [bigEndianPort, index_getD (by omega), hlo, word, getD_take (by omega),
    getD_take (by omega), getD_drop, getD_drop]
  rfl

/-- The entries of a list that an entry points at. -/
theorem parseNla_entry {q k : Nat} (hqk : q + k ≤ mem.length) :
    ∃ set, (parseNla mem q k).Returns set ∧ ∀ t : UInt16, t.toNat < 64 →
      Points mem (set.get t) ((some ((mem.drop q).take k)).bind (firstLook · t)) :=
  parseNla_returns hqk

theorem parseTupleIP_returns (h : Points mem entry v) :
    ∃ src dst : Bytes × Int,
      (parseTupleIP mem entry .zero).Returns ⟨src.1, dst.1, src.2, dst.2, 0, 0, 0⟩
        ∧ shown src = addrOf (fun t => v.bind (firstLook · t)) ctaIPv4Src ctaIPv6Src
        ∧ shown dst = addrOf (fun t => v.bind (firstLook · t)) ctaIPv4Dst ctaIPv6Dst
        ∧ Sized src ∧ Sized dst := by
  have hunset : Sized (List.replicate 16 0, 0) := fun _ hx => nomatch hx
  cases h with
  | none => exact ⟨(_, _), (_, _), returns_pure.mpr rfl, rfl, rfl, hunset, hunset⟩
  | some q k hqk =>
      obtain ⟨ia, hia, hpoints⟩ := parseNla_entry hqk
      obtain ⟨src, hsrc, hsrc', hsized⟩ :=
        copyIp_eq (hpoints ctaIPv4Src (by decide)) (n := 4) (by decide) (List.replicate 16 0, 0)
      obtain ⟨dst, hdst, hdst', hdstSized⟩ :=
        copyIp_eq (hpoints ctaIPv4Dst (by decide)) (n := 4) (by decide) (List.replicate 16 0, 0)
      obtain ⟨src6, hsrc6, hsrc6', hsized6⟩ :=
        copyIp_eq (hpoints ctaIPv6Src (by decide)) (n := 16) (by decide) src
      obtain ⟨dst6, hdst6, hdst6', hdstSized6⟩ :=
        copyIp_eq (hpoints ctaIPv6Dst (by decide)) (n := 16) (by decide) dst
      refine ⟨src6, dst6, ?_, ?_, ?_, hsized6 (hsized hunset), hdstSized6 (hdstSized hunset)⟩
      · unfold parseTupleIP ConnTuple.zero
        simp only [Nat.cast_ofNat] at hsrc hdst hsrc6 hdst6
        simp only [hia.bind_iff, hsrc, hdst, hsrc6, hdst6, pure_bind]
        exact returns_pure.mpr rfl
      · rw [hsrc6', hsrc', addrOf]
        exact congrArg _ (Option.or_none)
      · rw [hdst6', hdst', addrOf]
        exact congrArg _ (Option.or_none)

theorem parseTupleProto_returns (h : Points mem entry v) (src dst : Bytes × Int) :
    (parseTupleProto mem entry ⟨src.1, dst.1, src.2, dst.2, 0, 0, 0⟩).Returns
      ⟨src.1, dst.1, src.2, dst.2, portOf (v.bind (firstLook · ctaProtoSrcPort)),
        portOf (v.bind (firstLook · ctaProtoDstPort)),
        byteOf (v.bind (firstLook · ctaProtoNum))⟩ := by
  cases h with
  | none => exact returns_pure.mpr rfl
  | some q k hqk =>
      obtain ⟨pa, hpa, hpoints⟩ := parseNla_entry hqk
      unfold parseTupleProto
      simp only [hpa.bind_iff, readField_byte (hpoints ctaProtoNum (by decide)),
        readField_port (hpoints ctaProtoSrcPort (by decide)),
        readField_port (hpoints ctaProtoDstPort (by decide)), pure_bind]
      exact returns_pure.mpr rfl

/-- `parse_tuple` reads nothing but the payload, and takes the tuple of its first lookups. The
lengths are those of the addresses. -/
theorem parseTuple_returns {p n : Nat} (hpn : p + n ≤ mem.length) {tupleAttr : UInt16}
    (ht : tupleAttr.toNat < 64) :
    ∃ c, (parseTuple mem p n tupleAttr).Returns c
      ∧ c.map ConnTuple.toGo = tupleOf firstLook ((mem.drop p).take n) tupleAttr
      ∧ ∀ t ∈ c, t.srcLen = (t.srcIp.take t.srcLen.toNat).length
        ∧ t.dstLen = (t.dstIp.take t.dstLen.toNat).length := by
  obtain ⟨top, htop, hpoints⟩ := parseNla_returns hpn
  have hentry := hpoints tupleAttr ht
  unfold parseTuple tupleOf
  simp only [htop.bind_iff]
  generalize top.get tupleAttr = entry at hentry
  generalize firstLook ((mem.drop p).take n) tupleAttr = v at hentry
  cases hentry with
  | none => exact ⟨none, returns_pure.mpr rfl, rfl, fun _ ht => nomatch ht⟩
  | some q k hqk =>
      obtain ⟨ta, hta, hpoints⟩ := parseNla_returns hqk
      obtain ⟨src, dst, hip, hsrc, hdst, hsized, hdstSized⟩ :=
        parseTupleIP_returns (hpoints ctaTupleIP (by decide))
      have hproto := parseTupleProto_returns (hpoints ctaTupleProto (by decide)) src dst
      simp only [hta.bind_iff, hip.bind_iff, hproto.bind_iff, Option.bind_some]
      unfold tupleWith
      rw [← hsrc, ← hdst]
      by_cases hs : src.2 = 0
      · refine ⟨none, by rw [if_pos (Or.inl hs)]; exact returns_pure.mpr rfl, ?_, ?_⟩
        · simp [shown, hs]
        · exact fun _ ht => nomatch ht
      by_cases hd : dst.2 = 0
      · refine ⟨none, by rw [if_pos (Or.inr hd)]; exact returns_pure.mpr rfl, ?_, ?_⟩
        · simp [shown, hd]
        · exact fun _ ht => nomatch ht
      refine ⟨some _, by rw [if_neg (not_or.mpr ⟨hs, hd⟩)]; exact returns_pure.mpr rfl, ?_, ?_⟩
      · simp [shown, hs, hd, ConnTuple.toGo]
      · intro t ht
        obtain rfl := Option.some.inj ht
        exact ⟨hsized _ (if_neg hs), hdstSized _ (if_neg hd)⟩

theorem parseTcpState_returns {p n : Nat} (hpn : p + n ≤ mem.length) :
    (parseTcpState mem p n).Returns (tcpStateOf firstLook ((mem.drop p).take n)) := by
  obtain ⟨top, htop, hpoints⟩ := parseNla_returns hpn
  have hentry := hpoints ctaProtoinfo (by decide)
  unfold parseTcpState tcpStateOf
  rw [htop.bind_iff]
  generalize top.get ctaProtoinfo = entry at hentry
  generalize firstLook ((mem.drop p).take n) ctaProtoinfo = v at hentry
  cases hentry with
  | none => exact returns_pure.mpr rfl
  | some q k hqk =>
      obtain ⟨pi, hpi, hpoints⟩ := parseNla_returns hqk
      have hentry := hpoints ctaProtoinfoTCP (by decide)
      simp only [hpi.bind_iff, Option.bind_some]
      generalize pi.get ctaProtoinfoTCP = entry at hentry
      generalize firstLook ((mem.drop q).take k) ctaProtoinfoTCP = v at hentry
      cases hentry with
      | none => exact returns_pure.mpr rfl
      | some q' k' hqk' =>
          obtain ⟨tcp, htcp, hpoints⟩ := parseNla_returns hqk'
          simp only [htcp.bind_iff, Option.bind_some,
            readField_byte (hpoints ctaProtoinfoTCPState (by decide))]
          exact returns_pure.mpr rfl

end C

/-! ## Agreement of the ports -/

/-- No type occurs twice in the list. -/
def Distinct (d : Bytes) : Prop := ((attrs.frames d).map Prod.fst).Nodup

/-- The lists that the parsers of a payload open. -/
inductive Opened (tupleAttr : UInt16) (payload : Bytes) : Bytes → Prop where
  | payload : Opened tupleAttr payload payload
  | tuple {d : Bytes} : (tupleAttr, d) ∈ attrs.frames payload → Opened tupleAttr payload d
  | ip {d e : Bytes} : (tupleAttr, d) ∈ attrs.frames payload →
      (ctaTupleIP, e) ∈ attrs.frames d → Opened tupleAttr payload e
  | proto {d e : Bytes} : (tupleAttr, d) ∈ attrs.frames payload →
      (ctaTupleProto, e) ∈ attrs.frames d → Opened tupleAttr payload e
  | protoinfo {d : Bytes} : (ctaProtoinfo, d) ∈ attrs.frames payload →
      Opened tupleAttr payload d
  | tcp {d e : Bytes} : (ctaProtoinfo, d) ∈ attrs.frames payload →
      (ctaProtoinfoTCP, e) ∈ attrs.frames d → Opened tupleAttr payload e

theorem lastLook_eq {d : Bytes} (h : Distinct d) : lastLook d = firstLook d :=
  funext fun _ => lookup_reverse h

theorem mem_of_firstLook {d v : Bytes} {t : UInt16} (h : Distinct d)
    (hv : firstLook d t = some v) : (t, v) ∈ attrs.frames d := (lookup_iff_mem h).mp hv

theorem bind_lastLook {v : Option Bytes} (h : ∀ d, v = some d → Distinct d) (t : UInt16) :
    v.bind (lastLook · t) = v.bind (firstLook · t) := by
  cases v with
  | none => rfl
  | some d => exact congrFun (lastLook_eq (h d rfl)) t

theorem tupleOf_lastLook {payload : Bytes} {tupleAttr : UInt16}
    (h : ∀ d, Opened tupleAttr payload d → Distinct d) :
    tupleOf lastLook payload tupleAttr = tupleOf firstLook payload tupleAttr := by
  have htop := h payload .payload
  unfold tupleOf
  rw [lastLook_eq htop]
  cases htuple : firstLook payload tupleAttr with
  | none => rfl
  | some tuple =>
      have hmem := mem_of_firstLook htop htuple
      have hdistinct := h tuple (.tuple hmem)
      simp only [Option.bind_some, lastLook_eq hdistinct]
      congr 1 <;> funext t
      · exact bind_lastLook (fun d hd => h d (.ip hmem (mem_of_firstLook hdistinct hd))) t
      · exact bind_lastLook (fun d hd => h d (.proto hmem (mem_of_firstLook hdistinct hd))) t

theorem tcpStateOf_lastLook {payload : Bytes} {tupleAttr : UInt16}
    (h : ∀ d, Opened tupleAttr payload d → Distinct d) :
    tcpStateOf lastLook payload = tcpStateOf firstLook payload := by
  have htop := h payload .payload
  unfold tcpStateOf
  rw [lastLook_eq htop]
  cases hpi : firstLook payload ctaProtoinfo with
  | none => rfl
  | some pi =>
      have hmem := mem_of_firstLook htop hpi
      have hdistinct := h pi (.protoinfo hmem)
      simp only [Option.bind_some, lastLook_eq hdistinct]
      exact congrArg byteOf
        (bind_lastLook (fun d hd => h d (.tcp hmem (mem_of_firstLook hdistinct hd))) _)

/-- On a payload that repeats no type in a list they open, the ports read the same tuple and
the same TCP state. The C port finishes, and so reads nothing but the payload. -/
theorem parse_agree (payload : Bytes) (tupleAttr : UInt16) (ht : tupleAttr.toNat < 64)
    (h : ∀ d, Opened tupleAttr payload d → Distinct d) :
    (∃ c g, (C.parseTuple payload 0 payload.length tupleAttr).Returns c
        ∧ (Go.parseTuple payload tupleAttr).Returns g ∧ c.map C.ConnTuple.toGo = g)
      ∧ ∃ s, (C.parseTcpState payload 0 payload.length).Returns s
        ∧ (Go.parseTCPState payload).Returns s := by
  have hall : 0 + payload.length ≤ payload.length := Nat.le_of_eq (Nat.zero_add _)
  have hpayload : (payload.drop 0).take payload.length = payload := by
    rw [List.drop_zero, List.take_length]
  obtain ⟨c, hc, hview, -⟩ := C.parseTuple_returns hall ht
  have hs := C.parseTcpState_returns hall
  have hg := Go.parseTuple_returns payload tupleAttr
  have hgs := Go.parseTCPState_returns payload
  rw [hpayload] at hview hs
  rw [tupleOf_lastLook h] at hg
  rw [tcpStateOf_lastLook h] at hgs
  exact ⟨⟨c, _, hc, hg, hview⟩, _, hs, hgs⟩

/-- A payload with an IPv4 tuple, its TCP ports and nothing else. -/
def sampleIP : List Attr :=
  [⟨ctaIPv4Src, [10, 0, 0, 1], [], rfl, of_decide_eq_true rfl⟩,
    ⟨ctaIPv4Dst, [10, 0, 0, 2], [], rfl, of_decide_eq_true rfl⟩]

def sampleProto : List Attr :=
  [⟨ctaProtoDstPort, [0, 80], [0, 0], rfl, of_decide_eq_true rfl⟩,
    ⟨ctaProtoNum, [6], [0, 0, 0], rfl, of_decide_eq_true rfl⟩,
    ⟨ctaProtoSrcPort, [31, 144], [0, 0], rfl, of_decide_eq_true rfl⟩]

def sampleTuple : List Attr :=
  [⟨nlaFNested ||| ctaTupleIP, attrBytes sampleIP, [], rfl, of_decide_eq_true rfl⟩,
    ⟨nlaFNested ||| ctaTupleProto, attrBytes sampleProto, [], rfl, of_decide_eq_true rfl⟩]

def sampleOrig : Attr :=
  ⟨nlaFNested ||| ctaTupleOrig, attrBytes sampleTuple, [], rfl, of_decide_eq_true rfl⟩

def samplePayload : Bytes := attrBytes [sampleOrig]

theorem samplePayload_agrees :
    ∃ c g, (C.parseTuple samplePayload 0 samplePayload.length ctaTupleOrig).Returns c
      ∧ (Go.parseTuple samplePayload ctaTupleOrig).Returns g ∧ c.map C.ConnTuple.toGo = g := by
  have htop : attrs.frames samplePayload = [(ctaTupleOrig, attrBytes sampleTuple)] :=
    frames_attrBytes _
  have htuple : attrs.frames (attrBytes sampleTuple)
      = [(ctaTupleIP, attrBytes sampleIP), (ctaTupleProto, attrBytes sampleProto)] :=
    frames_attrBytes _
  have hip := frames_attrBytes sampleIP
  have hproto := frames_attrBytes sampleProto
  refine (parse_agree samplePayload ctaTupleOrig (by decide) fun d hd => ?_).1
  unfold Distinct
  cases hd with
  | payload => rw [htop]; decide
  | tuple hm =>
      simp only [htop, List.mem_singleton, Prod.mk.injEq, true_and] at hm
      rw [hm, htuple]
      decide
  | ip hm hm' =>
      simp only [htop, List.mem_singleton, Prod.mk.injEq, true_and] at hm
      subst hm
      simp only [htuple, List.mem_cons, Prod.mk.injEq, true_and, List.not_mem_nil, or_false,
        show ctaTupleIP ≠ ctaTupleProto by decide, false_and] at hm'
      rw [hm', hip]
      decide
  | proto hm hm' =>
      simp only [htop, List.mem_singleton, Prod.mk.injEq, true_and] at hm
      subst hm
      simp only [htuple, List.mem_cons, Prod.mk.injEq, true_and, List.not_mem_nil, or_false,
        show ctaTupleProto ≠ ctaTupleIP by decide, false_and, false_or] at hm'
      rw [hm', hproto]
      decide
  | protoinfo hm =>
      simp only [htop, List.mem_singleton, Prod.mk.injEq,
        show ctaProtoinfo ≠ ctaTupleOrig by decide, false_and] at hm
  | tcp hm _ =>
      simp only [htop, List.mem_singleton, Prod.mk.injEq,
        show ctaProtoinfo ≠ ctaTupleOrig by decide, false_and] at hm

end Tracep.Nettrace
