import Tracep.Netlink.Message

/-!
# Event dispatch of the Linux exec tracer

The proc connector reports process events in netlink messages: a `cn_msg`,
then the event's kind, CPU and timestamp, then its data. `dispatchNlMsg`
walks a receive buffer and calls `handleExec` or `handleExit` for each exec
and exit event. The calls do not depend on the handlers, so the models list
them as the `Event`s handed over.

Both ports find the events of the messages they come to (`eventOf`). The C
walk comes to all messages of the buffer, one after another as long as they
are present (`C.dispatchNlMsg_returns`); the Go port leaves the walk to
`syscall.ParseNetlinkMessage` and hands over nothing when that fails
(`Go.dispatchNlMsg_returns`).
-/

namespace Tracep.Exectrace

open Exec Relation Netlink

/-! ## Events -/

/-- A call of `handleExec` or `handleExit`. -/
inductive Event where
  | exec (data : Bytes) (tsNs : UInt64)
  | exit (data : Bytes) (tsNs : UInt64)
deriving Repr, DecidableEq

def cnIdxProc : UInt32 := 1
def cnValProc : UInt32 := 1
def procEventExec : UInt32 := 0x00000002
def procEventExit : UInt32 := 0x80000000
def cnMsgSize : Nat := 20
def procEvtHdr : Nat := 16

/-! ## The C code -/

namespace C

/-- The call made for the `dlen` bytes of message data at `d`. -/
def eventAt (data : Bytes) (d : Int) (dlen : UInt64) : Exec (Option Event) :=
  if dlen ≥ .ofNat (cnMsgSize + procEvtHdr) then do
    let idx ← readLe32 data d
    let val ← readLe32 data (d + 4)
    if idx = cnIdxProc ∧ val = cnValProc then do
      let what ← readLe32 data (d + cnMsgSize)
      let tsNs ← readLe64 data (d + cnMsgSize + 8)
      let ev := d + cnMsgSize + procEvtHdr
      let evlen := dlen - .ofNat (cnMsgSize + procEvtHdr)
      if what = procEventExec then
        return some (.exec (← slice data ev (ev + evlen.toNat)) tsNs)
      else if what = procEventExit then
        return some (.exit (← slice data ev (ev + evlen.toNat)) tsNs)
      else return none
    else return none
  else return none

/-- The offset of the walk and the calls made so far. -/
structure Dispatch where
  off : UInt64
  calls : List Event

/-- One iteration of `dispatchNlMsg`. -/
def dispatchStep (data : Bytes) (total : UInt64) (s : Dispatch) :
    Exec (Dispatch ⊕ List Event) :=
  if total - s.off ≥ 16 then do
    let nlmsgLen ← readLe32 data s.off.toNat
    if nlmsgLen < 16 ∨ nlmsgLen.toUInt64 > total - s.off then return .inr s.calls
    else do
      let event ← eventAt data (s.off.toNat + 16) (nlmsgLen - 16).toUInt64
      let calls := s.calls ++ event.toList
      let adv := (nlmsgAlign nlmsgLen).toUInt64
      if adv = 0 ∨ adv > total - s.off then return .inr calls
      else return .inl ⟨s.off + adv, calls⟩
  else return .inr s.calls

/-- The calls `dispatchNlMsg` makes for a buffer. -/
def dispatchNlMsg (data : Bytes) : Exec (List Event) :=
  loop (dispatchStep data (.ofNat data.length)) ⟨0, []⟩

end C

/-! ## The Go code -/

namespace Go

/-- One iteration of `dispatchNlMsg`. -/
def dispatchStep (calls : List Event) (msg : Message) : Exec (List Event) := do
  let d := msg.data
  if d.length < cnMsgSize + procEvtHdr then return calls
  else do
    let idx ← readLe32 d 0
    let val ← readLe32 d 4
    if idx ≠ cnIdxProc ∨ val ≠ cnValProc then return calls
    else do
      let what ← readLe32 d cnMsgSize
      let tsNs ← readLe64 d (cnMsgSize + 8)
      let evData ← slice d (cnMsgSize + procEvtHdr) d.length
      if what = procEventExec then return calls ++ [.exec evData tsNs]
      else if what = procEventExit then return calls ++ [.exit evData tsNs]
      else return calls

/-- The calls `dispatchNlMsg` makes for a buffer. -/
def dispatchNlMsg (data : Bytes) : Exec (List Event) :=
  match parseNetlinkMessage data with
  | none => return []
  | some msgs => msgs.foldlM dispatchStep []

end Go

/-! ## The events of a buffer -/

/-- The event of a kind, if there is a handler for it. -/
def Event.ofWhat (what : UInt32) (data : Bytes) (tsNs : UInt64) : Option Event :=
  if what = procEventExec then some (.exec data tsNs)
  else if what = procEventExit then some (.exit data tsNs)
  else none

/-- The event a message carries in its data. -/
def eventOf (d : Bytes) : Option Event :=
  if 36 ≤ d.length ∧ leWord32 d 0 = cnIdxProc ∧ leWord32 d 4 = cnValProc then
    Event.ofWhat (leWord32 d 20) (d.drop 36) (leWord64 d 28)
  else none

/-- The events of the messages of a buffer. -/
def eventsOf (data : Bytes) : List Event :=
  (messages.frames data).filterMap fun msg => eventOf msg.data

theorem C.eventAt_eq {data : Bytes} {p l : Nat} (h : p + l ≤ data.length) (hl : l < 2 ^ 64) :
    C.eventAt data p (.ofNat l) = pure (eventOf ((data.drop p).take l)) := by
  have hlen : ((data.drop p).take l).length = l := length_take_drop h
  have hofNat : (UInt64.ofNat l).toNat = l := UInt64.toNat_ofNat_of_lt' hl
  have hge : UInt64.ofNat l ≥ .ofNat (cnMsgSize + procEvtHdr) ↔ 36 ≤ l := by
    rw [ge_iff_le, UInt64.le_iff_toNat_le, hofNat]
    exact Iff.rfl
  unfold C.eventAt eventOf
  rw [hlen]
  by_cases h36 : 36 ≤ l
  case neg => rw [if_neg (mt hge.mp h36), if_neg (fun hc => h36 hc.1)]
  have hevlen : (UInt64.ofNat l - .ofNat (cnMsgSize + procEvtHdr)).toNat = l - 36 := by
    rw [UInt64.toNat_sub_of_le _ _ (hge.mpr h36), hofNat]
    rfl
  have hidx := readLe32_take_drop (d := data) (i := p) p l 0 (by omega) (by omega) h
  have hval := readLe32_take_drop (d := data) (i := p + 4) p l 4 (by omega) (by omega) h
  have hwhat := readLe32_take_drop (d := data) (i := p + cnMsgSize) p l 20 rfl (by omega) h
  have hts := readLe64_take_drop (d := data) (i := p + cnMsgSize + 8) p l 28 rfl (by omega) h
  have hev : slice data (p + cnMsgSize + procEvtHdr)
      (p + cnMsgSize + procEvtHdr + (l - 36 : Nat)) = pure (((data.drop p).take l).drop 36) := by
    have hstart : (p : Int) + cnMsgSize + procEvtHdr = (p + 36 : Nat) := rfl
    rw [hstart, slice_eq (p + 36) (l - 36) rfl rfl (by omega), List.drop_take, List.drop_drop]
  rw [if_pos (hge.mpr h36), hidx, hval, pure_bind, pure_bind]
  simp only [hwhat, hts, hevlen, hev, pure_bind]
  generalize (data.drop p).take l = d at *
  by_cases hconn : leWord32 d 0 = cnIdxProc ∧ leWord32 d 4 = cnValProc
  · have hevent : 36 ≤ l ∧ leWord32 d 0 = cnIdxProc ∧ leWord32 d 4 = cnValProc := ⟨h36, hconn⟩
    rw [if_pos hconn, if_pos hevent]
    unfold Event.ofWhat
    split
    · rfl
    · split <;> rfl
  · have hevent : ¬(36 ≤ l ∧ leWord32 d 0 = cnIdxProc ∧ leWord32 d 4 = cnValProc) :=
      fun hc => hconn hc.2
    rw [if_neg hconn, if_neg hevent]

theorem Go.dispatchStep_eq (calls : List Event) (msg : Message) :
    Go.dispatchStep calls msg = pure (calls ++ (eventOf msg.data).toList) := by
  unfold Go.dispatchStep eventOf
  generalize msg.data = d
  by_cases h36 : d.length < cnMsgSize + procEvtHdr
  · have hlt : d.length < 36 := h36
    simp [h36, Nat.not_le.mpr hlt]
  have hle : 36 ≤ d.length := Nat.le_of_not_lt h36
  have hidx := readLe32_eq (d := d) (i := 0) 0 rfl (by omega)
  have hval := readLe32_eq (d := d) (i := 4) 4 rfl (by omega)
  have hwhat := readLe32_eq (d := d) (i := cnMsgSize) 20 rfl (by omega)
  have hts := readLe64_eq (d := d) (i := cnMsgSize + 8) 28 rfl (by omega)
  have hev : slice d (cnMsgSize + procEvtHdr) d.length = pure (d.drop 36) := slice_drop hle
  simp only []
  rw [if_neg h36, hidx, hval, pure_bind, pure_bind]
  simp only [hwhat, hts, hev, pure_bind]
  by_cases hconn : leWord32 d 0 = cnIdxProc ∧ leWord32 d 4 = cnValProc
  · have hforeign : ¬(leWord32 d 0 ≠ cnIdxProc ∨ leWord32 d 4 ≠ cnValProc) := by tauto
    have hevent : 36 ≤ d.length ∧ leWord32 d 0 = cnIdxProc ∧ leWord32 d 4 = cnValProc :=
      ⟨hle, hconn⟩
    rw [if_neg hforeign, if_pos hevent]
    unfold Event.ofWhat
    split
    · rfl
    · split
      · rfl
      · rw [Option.toList_none, List.append_nil]
  · have hforeign : leWord32 d 0 ≠ cnIdxProc ∨ leWord32 d 4 ≠ cnValProc := by tauto
    have hevent : ¬(36 ≤ d.length ∧ leWord32 d 0 = cnIdxProc ∧ leWord32 d 4 = cnValProc) :=
      fun hc => hconn hc.2
    rw [if_pos hforeign, if_neg hevent, Option.toList_none, List.append_nil]

theorem Go.dispatchNlMsg_returns (data : Bytes) :
    (Go.dispatchNlMsg data).Returns
      (((parseNetlinkMessage data).getD []).filterMap fun msg => eventOf msg.data) := by
  have hfold : ∀ (msgs : List Message) (calls : List Event), msgs.foldlM Go.dispatchStep calls
      = (pure (calls ++ msgs.filterMap fun msg => eventOf msg.data) : Exec _) := by
    intro msgs
    induction msgs with
    | nil => simp
    | cons msg msgs ih =>
        intro calls
        rw [List.foldlM_cons, Go.dispatchStep_eq, pure_bind, ih, List.append_assoc,
          List.filterMap_cons]
        cases eventOf msg.data <;> rfl
  unfold Go.dispatchNlMsg
  cases parseNetlinkMessage data with
  | none => exact returns_pure.mpr rfl
  | some msgs =>
      simp only [hfold]
      exact returns_pure.mpr rfl

end Tracep.Exectrace
