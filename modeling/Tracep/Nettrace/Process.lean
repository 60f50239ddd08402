import Tracep.Nettrace.Tuple

/-!
# Conntrack messages

`process_nl_msgs` walks the messages of a receive buffer, reads the tuple of
each conntrack message, filters it and calls one of the event handlers. The
walk does not depend on what the handlers do, so the models list what it
finds at each message it inspects: where the payload is, the tuple read from
it, and which handler is called with them (`Visit`).

What a message shows does not depend on the port, but for how it looks up
attributes and tells an IPv4 address (`visitWith`): the Go port reads it
from the bytes of the message (`Go.processNlMsgsStep_returns`), the C port
in place (`C.inspect_returns`).
-/

namespace Tracep.Nettrace

open Exec Relation Netlink

/-! ## Messages and filters -/

def msgCtNew : UInt16 := 256
def msgCtDelete : UInt16 := 258
def nfgenMsgSize : Nat := 4
def nlmFCreate : UInt16 := 0x400

/-- The options that decide what is handled. -/
structure Options where
  ipv4Only : Bool
  ipv6Only : Bool
  showUpdate : Bool
  showClose : Bool

/-- The handler that a message is given to; `delete` is the clean-up of the table alone. -/
inductive Call where
  | new
  | update
  | destroy
  | delete
deriving Repr, DecidableEq

/-- What is found at a message: its payload, if it has one, the tuple read from that, and the
handler called with both. -/
structure Visit (π τ : Type) where
  payload : Option π
  orig : Option τ
  call : Option Call
deriving Repr, DecidableEq

/-- The filters on the IP version and the protocol. -/
def skip (opts : Options) (is4 : Bool) (proto : UInt8) : Bool :=
  (opts.ipv4Only && !is4) || (opts.ipv6Only && is4) || (proto != 6 && proto != 17)

/-- The choice of the handler. -/
def handler (opts : Options) (t flags : UInt16) : Option Call :=
  let isNew := t = msgCtNew
  let isCreate := flags &&& nlmFCreate ≠ 0
  if isNew ∧ isCreate then some .new
  else if isNew ∧ ¬isCreate ∧ opts.showUpdate then some .update
  else if ¬isNew ∧ opts.showClose then some .destroy
  else if ¬isNew then some .delete
  else none

/-! ## The Go code -/

namespace Go

/-- `net.IP.To4`: the IPv4 address, also of an IPv4-mapped IPv6 address. -/
def to4 (ip : Option Bytes) : Option Bytes :=
  ip.bind fun ip =>
    if ip.length = 4 then some ip
    else if ip.length = 16 ∧ ip.take 12 = List.replicate 10 0 ++ [0xff, 0xff] then some (ip.drop 12)
    else none

/-- One iteration of `processNlMsgs`. -/
def processNlMsgsStep (opts : Options) (msg : Message) : Exec (Visit Bytes ConnTuple) :=
  let t := msg.type
  if t ≠ msgCtNew ∧ t ≠ msgCtDelete then return ⟨none, none, none⟩
  else if msg.data.length < nfgenMsgSize then return ⟨none, none, none⟩
  else do
    let payload ← slice msg.data nfgenMsgSize msg.data.length
    match ← parseTuple payload ctaTupleOrig with
    | none => return ⟨some payload, none, none⟩
    | some orig =>
        if skip opts (to4 orig.srcIP).isSome orig.proto then return ⟨some payload, some orig, none⟩
        else return ⟨some payload, some orig, handler opts t msg.flags⟩

def processNlMsgs (opts : Options) (data : Bytes) : Exec (List (Visit Bytes ConnTuple)) :=
  match parseNetlinkMessage data with
  | none => return []
  | some msgs => msgs.mapM (processNlMsgsStep opts)

end Go

/-! ## The C code -/

namespace C

/-- `data_len`, of a message of length `mlen`. -/
def dataLenOf (mlen : UInt32) : Int := int32 (int32 mlen.toNat - 16)

/-- What `process_nl_msgs` finds at a message of length `mlen` at `data`. A payload is a
pointer and a length. -/
def inspect (opts : Options) (mem : Bytes) (data : Int) (mlen : UInt32) :
    Exec (Visit (Int × Int) ConnTuple) := do
  let t ← readLe16 mem (data + 4)
  if t = msgCtNew ∨ t = msgCtDelete then do
    let msgData := data + 16
    let dataLen := dataLenOf mlen
    if dataLen ≥ nfgenMsgSize then do
      let payload := msgData + nfgenMsgSize
      let plen := dataLen - nfgenMsgSize
      match ← parseTuple mem payload plen ctaTupleOrig with
      | none => return ⟨some (payload, plen), none, none⟩
      | some orig =>
          if skip opts (orig.srcLen = 4) orig.proto then
            return ⟨some (payload, plen), some orig, none⟩
          else do
            let flags ← readLe16 mem (data + 6)
            return ⟨some (payload, plen), some orig, handler opts t flags⟩
    else return ⟨none, none, none⟩
  else return ⟨none, none, none⟩

/-- The cursor `data`, `len` and what has been found. -/
structure NlCursor where
  data : Int
  len : Int
  visits : List (Visit (Int × Int) ConnTuple)

/-- One iteration of `process_nl_msgs`. -/
def processNlMsgsStep (opts : Options) (mem : Bytes) (s : NlCursor) :
    Exec (NlCursor ⊕ List (Visit (Int × Int) ConnTuple)) :=
  if s.len ≥ 16 then do
    let mlen ← readLe32 mem s.data
    if mlen < 16 ∨ int32 mlen.toNat > s.len then return .inr s.visits
    else do
      let visits := s.visits ++ [← inspect opts mem s.data mlen]
      let aligned := nlmsgAlign mlen
      if int32 aligned.toNat ≥ s.len then return .inr visits
      else return .inl ⟨s.data + aligned.toNat, int32 (s.len - int32 aligned.toNat), visits⟩
  else return .inr s.visits

def processNlMsgs (opts : Options) (mem : Bytes) (data len : Int) :
    Exec (List (Visit (Int × Int) ConnTuple)) :=
  loop (processNlMsgsStep opts mem) ⟨data, len, []⟩

end C

/-! ## What is found at a message -/

/-- The visit that lookups `look` and a test `is4` of the source address make of a message. -/
def visitWith (look : Bytes → UInt16 → Option Bytes) (is4 : Option Bytes → Bool)
    (opts : Options) (msg : Message) : Visit Bytes Go.ConnTuple :=
  if (msg.type ≠ msgCtNew ∧ msg.type ≠ msgCtDelete) ∨ msg.data.length < nfgenMsgSize then
    ⟨none, none, none⟩
  else
    let payload := msg.data.drop nfgenMsgSize
    let orig := tupleOf look payload ctaTupleOrig
    ⟨some payload, orig, orig.bind fun t =>
      if skip opts (is4 t.srcIP) t.proto then none else handler opts msg.type msg.flags⟩

theorem Go.processNlMsgsStep_returns (opts : Options) (msg : Message) :
    (Go.processNlMsgsStep opts msg).Returns
      (visitWith lastLook (fun ip => (to4 ip).isSome) opts msg) := by
  unfold Go.processNlMsgsStep visitWith
  by_cases ht : msg.type ≠ msgCtNew ∧ msg.type ≠ msgCtDelete
  · simp only [if_pos ht, if_pos (Or.inl ht)]
    exact returns_pure.mpr rfl
  by_cases hlen : msg.data.length < nfgenMsgSize
  · simp only [if_neg ht, if_pos hlen, if_pos (Or.inr hlen)]
    exact returns_pure.mpr rfl
  simp only [if_neg ht, if_neg hlen, if_neg (not_or.mpr ⟨ht, hlen⟩),
    slice_drop (Nat.le_of_not_lt hlen), pure_bind, (parseTuple_returns _ _).bind_iff]
  cases tupleOf lastLook (msg.data.drop nfgenMsgSize) ctaTupleOrig with
  | none => exact returns_pure.mpr rfl
  | some orig =>
      simp only [Option.bind_some]
      split <;> exact returns_pure.mpr rfl

theorem Go.processNlMsgs_returns (opts : Options) (data : Bytes) :
    (Go.processNlMsgs opts data).Returns (((parseNetlinkMessage data).getD []).map
      (visitWith lastLook (fun ip => (to4 ip).isSome) opts)) := by
  unfold Go.processNlMsgs
  cases parseNetlinkMessage data with
  | none => exact returns_pure.mpr rfl
  | some msgs => exact returns_mapM (Go.processNlMsgsStep_returns opts) msgs

namespace C

/-- A visit of the C port in the Go port's terms. -/
structure Shows (mem : Bytes) (v : Visit (Int × Int) ConnTuple) (w : Visit Bytes Go.ConnTuple) :
    Prop where
  payload : Points mem v.payload w.payload
  orig : v.orig.map ConnTuple.toGo = w.orig
  call : v.call = w.call

/-- `src_len == 4`, of the address itself. -/
def isV4 (ip : Option Bytes) : Bool := ip.map List.length = some 4

variable {opts : Options} {mem : Bytes}

theorem dataLenOf_eq {r : Bytes} (hmin : 16 ≤ lenOf r) (hlt : lenOf r < 2 ^ 31) :
    dataLenOf (leWord32 r 0) = (lenOf r - 16 : Nat) := by
  change int32 (int32 (lenOf r) - 16) = _
  rw [int32_eq (x := lenOf r) (by omega) (by omega), int32_eq (by omega) (by omega)]
  omega

theorem readType_eq {p : Nat} (hp : Present (mem.drop p)) :
    readLe16 mem (p + 4) = pure (messageAt (mem.drop p)).type := by
  obtain ⟨hmin, hfits⟩ := hp
  rw [List.length_drop] at hfits
  rw [messageAt, leWord16_drop mem p 4]
  exact readLe16_eq (d := mem) (p + 4) rfl (by omega)

theorem readFlags_eq {p : Nat} (hp : Present (mem.drop p)) :
    readLe16 mem (p + 6) = pure (messageAt (mem.drop p)).flags := by
  obtain ⟨hmin, hfits⟩ := hp
  rw [List.length_drop] at hfits
  rw [messageAt, leWord16_drop mem p 6]
  exact readLe16_eq (d := mem) (p + 6) rfl (by omega)

theorem data_length {r : Bytes} (hp : Present r) : (messageAt r).data.length = lenOf r - 16 := by
  obtain ⟨hmin, hfits⟩ := hp
  rw [messageAt, List.length_take, List.length_drop]
  omega

/-- The attributes of a message, by their place and by their bytes. -/
theorem payload_eq (p : Nat) : (mem.drop (p + 20)).take (lenOf (mem.drop p) - 20)
    = (messageAt (mem.drop p)).data.drop nfgenMsgSize := by
  rw [messageAt, List.drop_drop, drop_take_drop]
  rfl

/-- The tuple of a message that has room for attributes. -/
theorem tuple_returns {p : Nat} (hp : Present (mem.drop p)) (hroom : 20 ≤ lenOf (mem.drop p)) :
    ∃ c, (parseTuple mem (p + 20 : Nat) (lenOf (mem.drop p) - 20 : Nat) ctaTupleOrig).Returns c
      ∧ c.map ConnTuple.toGo
        = tupleOf firstLook ((messageAt (mem.drop p)).data.drop nfgenMsgSize) ctaTupleOrig
      ∧ ∀ t ∈ c, isV4 t.toGo.srcIP = decide (t.srcLen = 4) := by
  obtain ⟨hmin, hfits⟩ := hp
  rw [List.length_drop] at hfits
  have hin : p + 20 + (lenOf (mem.drop p) - 20) ≤ mem.length := by omega
  have horig : ctaTupleOrig.toNat < 64 := by decide
  obtain ⟨c, hc, hview, hsrc⟩ := parseTuple_returns hin horig
  rw [payload_eq] at hview
  refine ⟨c, hc, hview, ?_⟩
  intro t ht
  have hlen := (hsrc t ht).1
  refine decide_eq_decide.mpr ?_
  rw [ConnTuple.toGo, Option.map_some, Option.some.injEq]
  omega

theorem inspect_returns {p : Nat} (hp : Present (mem.drop p))
    (hlt : lenOf (mem.drop p) < 2 ^ 31) :
    ∃ v, (inspect opts mem p (leWord32 (mem.drop p) 0)).Returns v
      ∧ Shows mem v (visitWith firstLook isV4 opts (messageAt (mem.drop p))) := by
  have hdataLen : dataLenOf (leWord32 (mem.drop p) 0) = (lenOf (mem.drop p) - 16 : Nat) :=
    dataLenOf_eq hp.1 hlt
  have hdata := data_length hp
  unfold inspect visitWith
  rw [readType_eq hp, pure_bind, hdataLen]
  by_cases ht : (messageAt (mem.drop p)).type = msgCtNew ∨ (messageAt (mem.drop p)).type = msgCtDelete
  case neg =>
    rw [if_neg ht, if_pos (Or.inl (not_or.mp ht))]
    exact ⟨_, returns_pure.mpr rfl, .none, rfl, rfl⟩
  rw [if_pos ht]
  by_cases hshort : (messageAt (mem.drop p)).data.length < nfgenMsgSize
  · have hshort' : ¬((lenOf (mem.drop p) - 16 : Nat) : Int) ≥ nfgenMsgSize := by omega
    simp only [if_neg hshort', if_pos (Or.inr hshort)]
    exact ⟨_, returns_pure.mpr rfl, .none, rfl, rfl⟩
  have hlong : ((lenOf (mem.drop p) - 16 : Nat) : Int) ≥ nfgenMsgSize := by omega
  have hboth : ¬(((messageAt (mem.drop p)).type ≠ msgCtNew
      ∧ (messageAt (mem.drop p)).type ≠ msgCtDelete)
    ∨ (messageAt (mem.drop p)).data.length < nfgenMsgSize) :=
    not_or.mpr ⟨not_and_or.mpr (ht.imp not_not.mpr not_not.mpr), hshort⟩
  have hroom : 20 ≤ lenOf (mem.drop p) := by
    rw [hdata] at hshort
    exact Nat.add_le_of_le_sub hp.1 (Nat.le_of_not_lt hshort)
  have hstart : (p : Int) + 16 + nfgenMsgSize = (p + 20 : Nat) := rfl
  have hplen : ((lenOf (mem.drop p) - 16 : Nat) : Int) - nfgenMsgSize
      = (lenOf (mem.drop p) - 20 : Nat) := by
    change ((lenOf (mem.drop p) - 16 : Nat) : Int) - 4 = _
    omega
  have hpoints : Points mem (some (((p + 20 : Nat) : Int), ((lenOf (mem.drop p) - 20 : Nat) : Int)))
      (some ((messageAt (mem.drop p)).data.drop nfgenMsgSize)) := by
    obtain ⟨-, hfits⟩ := hp
    rw [List.length_drop] at hfits
    rw [← payload_eq]
    exact .some _ _ (by omega)
  obtain ⟨c, hc, hview, hv4⟩ := tuple_returns hp hroom
  simp only [if_pos hlong, if_neg hboth, hstart, hplen, hc.bind_iff, ← hview]
  cases c with
  | none => exact ⟨_, returns_pure.mpr rfl, hpoints, rfl, rfl⟩
  | some t =>
      simp only [Option.map_some, Option.bind_some, hv4 t rfl]
      by_cases hskip : skip opts (decide (t.srcLen = 4)) t.proto = true
      · rw [show t.toGo.proto = t.proto from rfl]
        simp only [if_pos hskip]
        exact ⟨_, returns_pure.mpr rfl, hpoints, rfl, rfl⟩
      · rw [show t.toGo.proto = t.proto from rfl]
        simp only [if_neg hskip, readFlags_eq hp, pure_bind]
        exact ⟨_, returns_pure.mpr rfl, hpoints, rfl, rfl⟩

end C

end Tracep.Nettrace
