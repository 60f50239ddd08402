import Mathlib.Data.List.DropRight
import Tracep.Lib.Address
import Tracep.Lib.Asking
import Tracep.Nettrace.Process

/-!
# What the net tracer asks the system

A conntrack message has no process in it. `find_pid_and_dir` looks the
connection up in the socket tables of `/proc/net`, which also tells on
which side of it the host is, and the inode found there in the `fd`
directories. A socket of another network namespace is in no table; then
the local addresses decide on the direction, if they can.

`is_watched` follows the parents of a process to a watched one, and keeps
the processes it has passed, of which the C port has room for 256.
Everything is read while the system goes on, so each answer is one of its
own time (`Env`, `observe`).
-/

namespace Tracep.Nettrace

open Exec

/-! ## Answers -/

inductive Direction where
  | unknown
  | outbound
  | inbound
deriving Repr, DecidableEq

/-- The socket tables. -/
inductive ProcNet where
  | tcp
  | tcp6
  | udp
  | udp6
deriving Repr, DecidableEq

/-- `procEntry`. An address has 4 or 16 bytes. -/
structure ProcEntry where
  localIP : Bytes
  localPort : UInt16
  remoteIP : Bytes
  remotePort : UInt16
  inode : UInt64
deriving Repr, DecidableEq

/-- What the tracer is told, by the number of questions asked before: the entries of a socket
table, the first process with a descriptor of an inode and the contents of its `comm` file, the
parent that `statPPID` makes out, the clock, the name of the user of a process and of the host
at an address. The texts of the local addresses are read once. -/
structure Env where
  localIPs : List Bytes
  procNet : Nat → ProcNet → List ProcEntry
  owner : Nat → UInt64 → Option (Int32 × Option Bytes)
  ppid : Nat → Int32 → Int32
  clock : Nat → Int
  user : Nat → Int32 → Bytes
  host : Nat → Bytes → Bytes

/-! ## Sockets -/

/-- The tables that are searched for a protocol, in this order. -/
def filesOf (proto : UInt8) : List ProcNet :=
  if proto = 6 then [.tcp, .tcp6] else if proto = 17 then [.udp, .udp6] else []

/-- A tuple as it is looked for: which addresses are its source and its destination, and its
ports and protocol. -/
structure Sought where
  isSrc : Bytes → Bool
  isDst : Bytes → Bool
  srcPort : UInt16
  dstPort : UInt16
  proto : UInt8

/-- The first entry of the tuple, from either side; for UDP then the first with its source. -/
def matchSocket (t : Sought) (entries : List ProcEntry) : Option (UInt64 × Direction) :=
  let connected := entries.findSome? fun e =>
    if e.inode = 0 then none
    else if t.isSrc e.localIP && e.localPort = t.srcPort && t.isDst e.remoteIP
        && e.remotePort = t.dstPort then some (e.inode, .outbound)
    else if t.isDst e.localIP && e.localPort = t.dstPort && t.isSrc e.remoteIP
        && e.remotePort = t.srcPort then some (e.inode, .inbound)
    else none
  let unconnected := entries.findSome? fun e =>
    if e.inode = 0 then none
    else if t.isSrc e.localIP && e.localPort = t.srcPort then some (e.inode, .outbound)
    else none
  connected.or (if t.proto = 17 then unconnected else none)

/-- The search of the tables, each of which gives up to `cap` entries. -/
def searchFiles (env : Env) (cap : Option Nat) (t : Sought) :
    List ProcNet → Asking (UInt64 × Direction)
  | [] => return (0, .unknown)
  | file :: files => do
      let entries ← observe fun now => env.procNet now file
      match matchSocket t (match cap with | some n => entries.take n | none => entries) with
      | some found => return found
      | none => searchFiles env cap t files

/-- `findPIDAndDir`, with the port's ways to search the tables, to ask for the owner of a
socket and to tell local addresses. -/
def findPIDAndDirWith (findInodeWithDir : Asking (UInt64 × Direction))
    (inodeToPID : UInt64 → Asking (Int32 × Bytes)) (dstIsLocal srcIsLocal : Bool) :
    Asking (Int32 × Bytes × Direction) := do
  let (inode, dir) ← findInodeWithDir
  if inode = 0 then
    if dstIsLocal then return (0, [], .inbound)
    else if srcIsLocal then return (0, [], .outbound)
    else return (0, [], dir)
  else do
    let (pid, comm) ← inodeToPID inode
    return (pid, comm, dir)

/-- The owner of a socket, with the port's way to read the command from the `comm` file. -/
def inodeToPIDWith (env : Env) (readComm : Bytes → Bytes) (inode : UInt64) :
    Asking (Int32 × Bytes) := do
  match ← observe fun now => env.owner now inode with
  | none => return (0, [])
  | some (pid, none) => return (pid, [])
  | some (pid, some comm) => return (pid, readComm comm)

/-- The newline ends the command. -/
def trimNewlines (s : Bytes) : Bytes := s.rdropWhile (· = 10)

/-! ## Ancestry -/

/-- One iteration of `isDescendant`, at a process `p` that is reached through `seen`. -/
def isDescendantStep (room : List Int32 → Bool) (env : Env) (watchPIDs : List Int32) :
    List Int32 × Int32 → Asking ((List Int32 × Int32) ⊕ Bool)
  | (seen, p) =>
      if ¬1 < p then return .inr false
      else if seen.contains p then return .inr false
      else if !room seen then return .inr false
      else do
        let ppid ← observe fun now => env.ppid now p
        if ppid ≤ 0 then return .inr false
        else if watchPIDs.contains ppid then return .inr true
        else return .inl (p :: seen, ppid)

def isDescendant (room : List Int32 → Bool) (env : Env) (watchPIDs : List Int32) (pid : Int32) :
    Asking Bool :=
  Asking.loop (isDescendantStep room env watchPIDs) ([], pid)

/-- Whether a process is a watched one or a descendant of one, as far as there is room. -/
def isWatched (room : List Int32 → Bool) (env : Env) (watchPIDs : List Int32) (pid : Int32) :
    Asking Bool :=
  if pid ≤ 0 then return false
  else if watchPIDs.contains pid then return true
  else isDescendant room env watchPIDs pid

/-! ## The Go code -/

namespace Go

/-- `net.IP.String`. -/
def ipString : Option Bytes → Bytes
  | none => [0x3c, 0x6e, 0x69, 0x6c, 0x3e]
  | some ip => ipText ip

/-- `connTuple.key`. -/
def ConnTuple.key (t : ConnTuple) : Bytes :=
  ipString t.srcIP ++ [0x3a] ++ digits 10 t.srcPort.toNat ++ [0x7c] ++ ipString t.dstIP ++ [0x3a]
    ++ digits 10 t.dstPort.toNat ++ [0x7c] ++ digits 10 t.proto.toNat

def ipsEq (a b : Option Bytes) : Bool := (to4 a).or a = (to4 b).or b

def isLocalIP (env : Env) (ip : Option Bytes) : Bool :=
  match to4 ip with
  | some v4 => env.localIPs.contains (ipString (some v4))
  | none => env.localIPs.contains (ipString ip)

def findInodeWithDir (env : Env) (orig : ConnTuple) : Asking (UInt64 × Direction) :=
  searchFiles env none ⟨fun ip => ipsEq (some ip) orig.srcIP, fun ip => ipsEq (some ip) orig.dstIP,
    orig.srcPort, orig.dstPort, orig.proto⟩ (filesOf orig.proto)

def inodeToPID (env : Env) : UInt64 → Asking (Int32 × Bytes) := inodeToPIDWith env trimNewlines

def findPIDAndDir (env : Env) (orig : ConnTuple) : Asking (Int32 × Bytes × Direction) :=
  findPIDAndDirWith (findInodeWithDir env orig) (inodeToPID env) (isLocalIP env orig.dstIP)
    (isLocalIP env orig.srcIP)

def isWatched : Env → List Int32 → Int32 → Asking Bool := Nettrace.isWatched fun _ => true

end Go

/-! ## The C code -/

namespace C

/-- `inet_ntop` shows the last four bytes dotted after 96 zero bits, too, unless the first two
of them are zero. -/
def ipStr (ip : Bytes) (len : Int) : Bytes :=
  if len = 4 then dottedQuad (ip.take 4)
  else if len = 16 then
    let tail := dottedQuad ((ip.take 16).drop 12)
    match longestZeroRun (groups (ip.take 16)) with
    | (0, 6) => [0x3a, 0x3a] ++ tail
    | (0, 5) =>
        if (groups (ip.take 16))[5]? = some 0xffff then
          [0x3a, 0x3a, 0x66, 0x66, 0x66, 0x66, 0x3a] ++ tail
        else ipv6Text (groups (ip.take 16))
    | _ => ipv6Text (groups (ip.take 16))
  else [0x3f]

/-- `tuple_key` into a buffer of `cap` bytes. -/
def tupleKey (t : ConnTuple) (cap : Nat) : Bytes :=
  (ipStr t.srcIp t.srcLen ++ [0x3a] ++ digits 10 t.srcPort.toNat ++ [0x7c]
    ++ ipStr t.dstIp t.dstLen ++ [0x3a] ++ digits 10 t.dstPort.toNat ++ [0x7c]
    ++ digits 10 t.proto.toNat).take (cap - 1)

def ipsEq (a : Bytes) (al : Int) (b : Bytes) (bl : Int) : Bool :=
  if al ≠ bl then false else a.take al.toNat = b.take al.toNat

def isLocalIp (env : Env) (ip : Bytes) (len : Int) : Bool := env.localIPs.contains (ipStr ip len)

def maxProcEntries : Nat := 65536

def findInodeWithDir (env : Env) (orig : ConnTuple) : Asking (UInt64 × Direction) :=
  searchFiles env (some maxProcEntries)
    ⟨fun ip => ipsEq ip ip.length orig.srcIp orig.srcLen,
      fun ip => ipsEq ip ip.length orig.dstIp orig.dstLen,
      orig.srcPort, orig.dstPort, orig.proto⟩ (filesOf orig.proto)

/-- `fgets` into a buffer of `cap` bytes. -/
def fgets (cap : Nat) (data : Bytes) : Bytes := (data.take (data.idxOf 10 + 1)).take (cap - 1)

def inodeToPid (env : Env) : UInt64 → Asking (Int32 × Bytes) :=
  inodeToPIDWith env fun comm => trimNewlines (cstr (fgets 64 comm))

def findPidAndDir (env : Env) (orig : ConnTuple) : Asking (Int32 × Bytes × Direction) :=
  findPIDAndDirWith (findInodeWithDir env orig) (inodeToPid env)
    (isLocalIp env orig.dstIp orig.dstLen) (isLocalIp env orig.srcIp orig.srcLen)

def isWatched : Env → List Int32 → Int32 → Asking Bool :=
  Nettrace.isWatched fun seen => seen.length < 256

end C

end Tracep.Nettrace
