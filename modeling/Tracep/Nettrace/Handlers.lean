import Tracep.Lib.Machine
import Tracep.Lib.Store
import Tracep.Nettrace.Sockets

/-!
# The handlers of the Linux net tracer

`handle_new` notes a connection in `conndb` and prints its opening line,
`handle_update` prints a line with the TCP state, `handle_destroy` takes the
connection out and prints that it is closed. Each of them leaves early when
the connection is not one of a watched process, and the first two when it is
inbound and only outbound ones are wanted.

The handlers are those of both ports (`Port`), over any store of connections
by key; `Go.port` has a map, `C.port` an array of chains. A run handles one
message after another (`run`). The `_cases` lemmas say all that a handler can
do.
-/

namespace Tracep.Nettrace

open Exec Asking Netlink

/-! ## Lines and entries -/

/-- The options of the tracer. -/
structure Settings extends Options where
  watchPIDs : List Int32
  outboundOnly : Bool
  showUser : Bool
  showReverse : Bool

/-- What a line reports. -/
inductive Event where
  | opened
  | update
  | closed
deriving Repr, DecidableEq

/-- The end of a line. The time a connection has lasted is given by the clock at both ends. -/
inductive Extra where
  | none
  | state (name : String)
  | elapsed (startAt now : Int)
deriving Repr, DecidableEq

/-- A line of output, by what is printed in it. -/
structure Line (τ : Type) where
  orig : τ
  pid : Int32
  comm : Bytes
  dir : Direction
  event : Event
  extra : Extra
  user : Option Bytes
  host : Bytes
deriving Repr, DecidableEq

/-- `connEntry`. -/
structure ConnEntry (τ : Type) where
  tuple : τ
  pid : Int32
  comm : Bytes
  dir : Direction
  startAt : Int
  tcpState : UInt8
deriving Repr, DecidableEq

def tcpStateNames : List String :=
  ["NONE", "SYN_SENT", "SYN_RECV", "ESTABLISHED", "FIN_WAIT", "CLOSE_WAIT", "LAST_ACK",
    "TIME_WAIT", "CLOSE", "LISTEN", "MAX", "IGNORE"]

def tcpStateName (s : UInt8) : String :=
  (tcpStateNames[s.toNat]?).getD ("STATE" ++ toString s.toNat)

/-- The visit has a tuple and a payload, and the handler is called for a message of some type
with some flags. -/
def Dispatched {π τ : Type} (opts : Options) (v : Visit π τ) (c : Call) : Prop :=
  (∃ orig, v.orig = some orig) ∧ (∃ payload, v.payload = some payload)
    ∧ ∃ t flags, handler opts t flags = some c

/-- What the ports do each in their own way: messages `ε` are inspected, and show a payload `π`
and a tuple `τ`; connections are kept in a store `δ`. -/
structure Port (ε π τ δ : Type) where
  inspect : Options → ε → Exec (Visit π τ)
  conns : Store Bytes (ConnEntry τ) δ
  key : τ → Bytes
  proto : τ → UInt8
  srcString : τ → Bytes
  dstString : τ → Bytes
  parseTCPState : π → Exec UInt8
  findPIDAndDir : Env → τ → Asking (Int32 × Bytes × Direction)
  isWatched : Env → List Int32 → Int32 → Asking Bool
  dispatched : ∀ {opts e v c}, (inspect opts e).Returns v → v.call = some c → Dispatched opts v c
  isWatched_zero : ∀ env watchPIDs, isWatched env watchPIDs 0 = pure false

/-- What is found at a message, and the lines printed for it. -/
structure Handled (π τ : Type) where
  visit : Visit π τ
  lines : List (Line τ)

section Handlers

variable {ε π τ δ : Type} (P : Port ε π τ δ) (opts : Settings) (env : Env)

def printEvent (orig : τ) (pid : Int32) (comm : Bytes) (dir : Direction) (event : Event)
    (extra : Extra) : Asking (Line τ) := do
  let user ← observeIf (opts.showUser && 0 < pid) fun now => env.user now pid
  let lookupIP := if dir = .inbound then P.srcString orig else P.dstString orig
  let host ← observeIf opts.showReverse fun now => env.host now lookupIP
  return ⟨orig, pid, comm, dir, event, extra, user, host.getD []⟩

/-- `len(watchPIDs) > 0 && !isWatched(pid)`. -/
def unwatched (pid : Int32) : Asking Bool :=
  if opts.watchPIDs = [] then return false else return !(← P.isWatched env opts.watchPIDs pid)

/-- `outboundOnly && dir == dirInbound`. -/
def unwanted (dir : Direction) : Bool := opts.outboundOnly && decide (dir = .inbound)

/-- The TCP state that a new entry has. -/
def tcpStateFor (orig : τ) (payload : π) : Exec UInt8 :=
  if P.proto orig = 6 then P.parseTCPState payload else return 0

def handleNew (db : δ) (key : Bytes) (orig : τ) (payload : π) : Asking (δ × List (Line τ)) := do
  let (pid, comm, dir) ← P.findPIDAndDir env orig
  if ← unwatched P opts env pid then return (db, [])
  else if unwanted opts dir then return (db, [])
  else do
    let tcpState ← tcpStateFor P orig payload
    let startAt ← observe env.clock
    let db := P.conns.put db key ⟨orig, pid, comm, dir, startAt, tcpState⟩
    let line ← printEvent P opts env orig pid comm dir .opened .none
    return (db, [line])

/-- The state for an update line, and the entries after it is noted. -/
def noteState (db : δ) (key : Bytes) (orig : τ) (payload : π) : Asking (δ × Extra) :=
  if P.proto orig = 6 then do
    let s ← P.parseTCPState payload
    match P.conns.get db key with
    | none => return (db, .state (tcpStateName s))
    | some ent =>
        return (P.conns.put db key { ent with tcpState := s }, .state (tcpStateName s))
  else return (db, .none)

def handleUpdate (db : δ) (key : Bytes) (orig : τ) (payload : π) :
    Asking (δ × List (Line τ)) := do
  let ent := P.conns.get db key
  let pid := (ent.map ConnEntry.pid).getD 0
  let comm := (ent.map ConnEntry.comm).getD []
  let dir := (ent.map ConnEntry.dir).getD .unknown
  if ← unwatched P opts env pid then return (db, [])
  else if unwanted opts dir then return (db, [])
  else do
    let (db, stateName) ← noteState P db key orig payload
    let line ← printEvent P opts env orig pid comm dir .update stateName
    return (db, [line])

def handleDestroy (db : δ) (key : Bytes) (orig : τ) : Asking (δ × List (Line τ)) := do
  let ent := P.conns.get db key
  let db := P.conns.delete db key
  match ent with
  | none => return (db, [])
  | some ent =>
      if ← unwatched P opts env ent.pid then return (db, [])
      else do
        let now ← observe env.clock
        let line ← printEvent P opts env orig ent.pid ent.comm ent.dir .closed
          (.elapsed ent.startAt now)
        return (db, [line])

/-- The handler called at a visit. -/
def handle (db : δ) (v : Visit π τ) : Asking (δ × List (Line τ)) :=
  match v.call, v.orig, v.payload with
  | some .new, some orig, some payload => handleNew P opts env db (P.key orig) orig payload
  | some .update, some orig, some payload => handleUpdate P opts env db (P.key orig) orig payload
  | some .destroy, some orig, some _ => handleDestroy P opts env db (P.key orig) orig
  | some .delete, some orig, some _ => return (P.conns.delete db (P.key orig), [])
  | _, _, _ => return (db, [])

/-- One message. -/
def step (db : δ) (msg : ε) : Asking (δ × Handled π τ) := do
  let visit ← P.inspect opts.toOptions msg
  let (db, lines) ← handle P opts env db visit
  return (db, ⟨visit, lines⟩)

/-- The tracer, from when it starts. -/
def run : List ε → Asking (δ × List (Machine.Step δ ε (Handled π τ))) :=
  Machine.run (step P opts env) P.conns.empty

end Handlers

/-! ## The ports -/

namespace Go

theorem dispatched {opts : Options} {msg : Message} {v : Visit Bytes ConnTuple} {c : Call}
    (hret : (processNlMsgsStep opts msg).Returns v) (hcall : v.call = some c) :
    Dispatched opts v c := by
  obtain rfl := hret.unique (processNlMsgsStep_returns opts msg)
  unfold visitWith at hcall ⊢
  split at hcall
  · cases hcall
  · next hmsg =>
      obtain ⟨orig, horig, hcall⟩ := Option.bind_eq_some_iff.mp hcall
      rw [if_neg hmsg]
      split at hcall
      · cases hcall
      · exact ⟨⟨orig, horig⟩, ⟨_, rfl⟩, _, _, hcall⟩

def port : Port Message Bytes ConnTuple (Bytes → Option (ConnEntry ConnTuple)) where
  inspect := processNlMsgsStep
  conns := Store.map
  key := ConnTuple.key
  proto := ConnTuple.proto
  srcString t := ipString t.srcIP
  dstString t := ipString t.dstIP
  parseTCPState := parseTCPState
  findPIDAndDir := findPIDAndDir
  isWatched := isWatched
  dispatched := dispatched
  isWatched_zero _ _ := rfl

def run (opts : Settings) (env : Env) := Nettrace.run port opts env

end Go

namespace C

/-- The buffer received, and where a message in it is, with its length. -/
structure Received where
  mem : Bytes
  data : Int
  mlen : UInt32

/-- A payload in the buffer received. -/
structure Payload where
  mem : Bytes
  payload : Int
  plen : Int

def inspectMsg (opts : Options) (msg : Received) : Exec (Visit Payload ConnTuple) := do
  let v ← inspect opts msg.mem msg.data msg.mlen
  return ⟨v.payload.map fun p => ⟨msg.mem, p.1, p.2⟩, v.orig, v.call⟩

def strHash (s : Bytes) : UInt32 :=
  s.foldl (fun h b => (h ^^^ b.toUInt32) * 16777619) 2166136261

def conndbBuckets : UInt32 := 1024

/-- `conndb`, with `db_get`, `db_put` and `db_delete`. -/
def conndb : Store Bytes (ConnEntry ConnTuple) (Store.Chains Bytes (ConnEntry ConnTuple)) :=
  Store.chained fun key => (strHash key % conndbBuckets).toNat

theorem inspect_dispatched {opts : Options} {mem : Bytes} {data : Int} {mlen : UInt32}
    {v : Visit (Int × Int) ConnTuple} {c : Call} (hret : (inspect opts mem data mlen).Returns v)
    (hcall : v.call = some c) : Dispatched opts v c := by
  unfold inspect at hret
  obtain ⟨t, -, hret⟩ := returns_bind.mp hret
  split at hret
  case isFalse =>
    obtain rfl := returns_pure.mp hret
    cases hcall
  simp only [] at hret
  split at hret
  case isFalse =>
    obtain rfl := returns_pure.mp hret
    cases hcall
  obtain ⟨orig, -, hret⟩ := returns_bind.mp hret
  cases orig with
  | none =>
      obtain rfl := returns_pure.mp hret
      cases hcall
  | some orig =>
      simp only [] at hret
      split at hret
      · obtain rfl := returns_pure.mp hret
        cases hcall
      · obtain ⟨flags, -, hret⟩ := returns_bind.mp hret
        obtain rfl := returns_pure.mp hret
        exact ⟨⟨orig, rfl⟩, ⟨_, rfl⟩, t, flags, hcall⟩

theorem dispatched {opts : Options} {msg : Received} {v : Visit Payload ConnTuple} {c : Call}
    (hret : (inspectMsg opts msg).Returns v) (hcall : v.call = some c) : Dispatched opts v c := by
  obtain ⟨w, hw, hv⟩ := returns_bind.mp hret
  obtain rfl := returns_pure.mp hv
  obtain ⟨horig, ⟨payload, hpayload⟩, hhandler⟩ := inspect_dispatched hw hcall
  exact ⟨horig, ⟨_, congrArg (Option.map _) hpayload⟩, hhandler⟩

def port : Port Received Payload ConnTuple (Store.Chains Bytes (ConnEntry ConnTuple)) where
  inspect := inspectMsg
  conns := conndb
  key t := tupleKey t 160
  proto := ConnTuple.proto
  srcString t := ipStr t.srcIp t.srcLen
  dstString t := ipStr t.dstIp t.dstLen
  parseTCPState p := parseTcpState p.mem p.payload p.plen
  findPIDAndDir := findPidAndDir
  isWatched := isWatched
  dispatched := dispatched
  isWatched_zero _ _ := rfl

def run (opts : Settings) (env : Env) := Nettrace.run port opts env

end C

/-! ### A connection opened and closed -/

/-- All that can be shown is shown. -/
def everything : Settings := ⟨⟨false, false, true, true⟩, [], false, false, false⟩

namespace Go

def sampleNew : Message := ⟨msgCtNew, nlmFCreate, [2, 0, 0, 0] ++ samplePayload⟩

def sampleUpdate : Message := ⟨msgCtNew, 0, [2, 0, 0, 0] ++ samplePayload⟩

def sampleDelete : Message := ⟨msgCtDelete, 0, [2, 0, 0, 0] ++ samplePayload⟩

end Go

namespace C

/-- A buffer with one message. -/
def sampleOf (t flags : List UInt8) : Received :=
  ⟨[72, 0, 0, 0] ++ t ++ flags ++ List.replicate 8 0 ++ [2, 0, 0, 0] ++ samplePayload, 0, 72⟩

def sampleNew : Received := sampleOf [0, 1] [0, 4]

def sampleUpdate : Received := sampleOf [0, 1] [0, 0]

def sampleDelete : Received := sampleOf [2, 1] [0, 0]

end C

/-- The connection is one of process 200, a child of 100, which is gone from the given time on. -/
def childOf100 (gone : Nat) : Env where
  localIPs := []
  procNet _ _ := [⟨[10, 0, 0, 1], 8080, [10, 0, 0, 2], 80, 7⟩]
  owner _ inode := if inode = 7 then some (200, some [0x73, 0x68, 10]) else none
  ppid now pid := if pid = 200 ∧ now < gone then 100 else -1
  clock now := now
  user _ _ := []
  host _ _ := []

/-- No table has the connection, and neither address is local. -/
def elsewhere : Env where
  localIPs := []
  procNet _ _ := []
  owner _ _ := none
  ppid _ _ := -1
  clock now := now
  user _ _ := []
  host _ _ := []

end Tracep.Nettrace
