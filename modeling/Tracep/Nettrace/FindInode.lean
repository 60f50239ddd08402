import Tracep.Lib.Searching
import Tracep.Nettrace.Handlers
import Tracep.Nettrace.ProcNet

/-!
# Finding the socket of a connection

`findInodeWithDir` goes through the entries of two socket tables, and for
UDP a second time through each, and gives the first that is of the tuple.
What the search looks at, in this order, are the rows of the tables
(`looks`), and both ports give what they find first there
(`searchFiles_gives`).

In Go an IPv4-mapped address is the IPv4 address, and so the search finds
the rows of the tuple in either table (`Go.findInodeWithDir_rows`). The C
port compares bytes and lengths and keeps 65536 entries of a table: it looks
past rows that the other one finds, and says the same exactly when a later
row makes up for that (`findInodeWithDir_eq_iff`).
-/

namespace Tracep.Nettrace

open Asking Procfs Searching

/-! ## Rows of a tuple -/

/-- An IPv4-mapped address is the IPv4 address. -/
def unmapped (ip : Bytes) : Bytes :=
  if ip.length = 16 ∧ ip.take 12 = List.replicate 10 0 ++ [0xff, 0xff] then ip.drop 12 else ip

/-- The address and port of a row are those of a tuple. -/
def SameEndpoint (ip : Bytes) (port : UInt16) (addr : Option Bytes) (p : UInt16) : Prop :=
  addr.map unmapped = some (unmapped ip) ∧ port = p

/-- The socket is where the connection comes from. -/
def Outgoing (t : Go.ConnTuple) (r : SocketRow) : Prop :=
  SameEndpoint r.localIP r.localPort t.srcIP t.srcPort
    ∧ SameEndpoint r.remoteIP r.remotePort t.dstIP t.dstPort

/-- The socket is where the connection goes to. -/
def Incoming (t : Go.ConnTuple) (r : SocketRow) : Prop :=
  SameEndpoint r.localIP r.localPort t.dstIP t.dstPort
    ∧ SameEndpoint r.remoteIP r.remotePort t.srcIP t.srcPort

instance (ip : Bytes) (port : UInt16) (addr : Option Bytes) (p : UInt16) :
    Decidable (SameEndpoint ip port addr p) :=
  inferInstanceAs (Decidable (_ ∧ _))

instance (t : Go.ConnTuple) (r : SocketRow) : Decidable (Outgoing t r) :=
  inferInstanceAs (Decidable (_ ∧ _))

instance (t : Go.ConnTuple) (r : SocketRow) : Decidable (Incoming t r) :=
  inferInstanceAs (Decidable (_ ∧ _))

/-! ## What is looked at -/

/-- The passes over the entries of a table. -/
inductive Pass where
  | connected
  | unconnected
deriving Repr, DecidableEq

/-- What an entry tells in a pass, if it is of the tuple. -/
def Sought.hit (t : Sought) : Pass → ProcEntry → Option (UInt64 × Direction)
  | .connected, e =>
      if e.inode = 0 then none
      else if t.isSrc e.localIP && e.localPort = t.srcPort && t.isDst e.remoteIP
          && e.remotePort = t.dstPort then some (e.inode, .outbound)
      else if t.isDst e.localIP && e.localPort = t.dstPort && t.isSrc e.remoteIP
          && e.remotePort = t.srcPort then some (e.inode, .inbound)
      else none
  | .unconnected, e =>
      if e.inode = 0 then none
      else if t.isSrc e.localIP && e.localPort = t.srcPort then some (e.inode, .outbound)
      else none

/-- A look at a row, at its place in the table. -/
structure Look where
  pass : Pass
  row : SocketRow
  place : Nat

def passes (proto : UInt8) : List Pass :=
  if proto = 17 then [.connected, .unconnected] else [.connected]

/-- The looks at one table. -/
def looksAt (proto : UInt8) (rows : List SocketRow) : List Look :=
  (passes proto).flatMap fun pass => rows.zipIdx.map fun x => ⟨pass, x.1, x.2⟩

/-- The looks of a search, in order. -/
def looks (tables : ProcNet → SocketTable) (proto : UInt8) : List Look :=
  (filesOf proto).flatMap fun file => looksAt proto (tables file).rows

/-- What a look finds. -/
def Sought.look (t : Sought) (x : Look) : Option (UInt64 × Direction) :=
  t.hit x.pass (entryOf x.row)

/-- Whether there is room for the entry at a place. -/
def room (cap : Option Nat) (place : Nat) : Prop := ∀ n ∈ cap, place < n

instance (cap : Option Nat) (place : Nat) : Decidable (room cap place) :=
  inferInstanceAs (Decidable (∀ n ∈ cap, place < n))

/-- As many entries as there is room for. -/
def capped (cap : Option Nat) (entries : List ProcEntry) : List ProcEntry :=
  match cap with
  | some n => entries.take n
  | none => entries

/-! ## The search -/

section Search

variable {env : Env} {tables : ProcNet → SocketTable} {t : Sought} {cap : Option Nat}

theorem room_some {n place : Nat} : room (some n) place ↔ place < n := by
  simp only [room, Option.mem_some_iff, forall_eq']

theorem findSome?_capped (hit : ProcEntry → Option (UInt64 × Direction)) (rows : List SocketRow) :
    (capped cap (rows.map entryOf)).findSome? hit
      = rows.zipIdx.findSome? fun x => if room cap x.2 then hit (entryOf x.1) else none := by
  cases cap with
  | none =>
      have hroom : ∀ place, room none place := fun _ => nofun
      simp only [capped, List.findSome?_map, hroom, if_true]
      exact (findSome?_zipIdx rows).symm
  | some n =>
      simp only [capped, ← List.map_take, List.findSome?_map, room_some]
      exact findSome?_take n rows

theorem matchSocket_eq (t : Sought) (entries : List ProcEntry) :
    matchSocket t entries
      = (passes t.proto).findSome? fun pass => entries.findSome? (t.hit pass) := by
  have hmatch : matchSocket t entries = (entries.findSome? (t.hit .connected)).or
      (if t.proto = 17 then entries.findSome? (t.hit .unconnected) else none) := rfl
  rw [hmatch, passes]
  by_cases hudp : t.proto = 17
  · rw [if_pos hudp, if_pos hudp, List.findSome?_cons, List.findSome?_singleton]
    cases entries.findSome? (t.hit .connected) <;> rfl
  · rw [if_neg hudp, if_neg hudp, List.findSome?_singleton, Option.or_none]

/-- A table is searched by looking at its rows. -/
theorem matchSocket_looksAt (rows : List SocketRow) :
    matchSocket t (capped cap (rows.map entryOf))
      = (looksAt t.proto rows).findSome? fun x => if room cap x.place then t.look x else none := by
  rw [matchSocket_eq, looksAt, findSome?_flatMap]
  simp only [findSome?_capped, List.findSome?_map]
  rfl

/-- The search gives what it finds first. -/
theorem searchFiles_gives
    (hread : ∀ now file,
      capped cap (env.procNet now file) = capped cap ((tables file).rows.map entryOf))
    (files : List ProcNet) (now : Nat) :
    ∃ later, Gives (searchFiles env cap t files) now
      (((files.flatMap fun file => looksAt t.proto (tables file).rows).findSome?
        fun x => if room cap x.place then t.look x else none).getD (0, .unknown)) later := by
  induction files generalizing now with
  | nil => exact ⟨now, gives_pure.mpr ⟨rfl, rfl⟩⟩
  | cons file files ih =>
      obtain ⟨later, hrest⟩ := ih (now + 1)
      rw [List.flatMap_cons, List.findSome?_append, ← matchSocket_looksAt, ← hread now file]
      cases hmatch : matchSocket t (capped cap (env.procNet now file)) with
      | some found =>
          refine ⟨now + 1, ?_⟩
          rw [searchFiles, gives_bind]
          refine ⟨_, now + 1, gives_observe.mpr ⟨rfl, rfl⟩, ?_⟩
          split
          · next found' hfound =>
              obtain rfl := Option.some.inj (hmatch.symm.trans hfound)
              exact gives_pure.mpr ⟨rfl, rfl⟩
          · next hnone => cases hmatch.symm.trans hnone
      | none =>
          refine ⟨later, ?_⟩
          rw [searchFiles, gives_bind, Option.none_or]
          refine ⟨_, now + 1, gives_observe.mpr ⟨rfl, rfl⟩, ?_⟩
          split
          · next found hfound => cases hmatch.symm.trans hfound
          · exact hrest

/-- What is found has the inode of its entry, which is not zero. -/
theorem Sought.hit_inode {pass : Pass} {e : ProcEntry} {found : UInt64 × Direction}
    (h : t.hit pass e = some found) : found.1 = e.inode ∧ e.inode ≠ 0 := by
  by_cases hzero : e.inode = 0
  · cases pass <;> rw [Sought.hit, if_pos hzero] at h <;> cases h
  refine ⟨?_, hzero⟩
  cases pass with
  | connected =>
      rw [Sought.hit, if_neg hzero] at h
      split_ifs at h with hout hin
      · rw [← Option.some.inj h]
      · rw [← Option.some.inj h]
  | unconnected =>
      rw [Sought.hit, if_neg hzero] at h
      split_ifs at h with hsrc
      rw [← Option.some.inj h]

theorem Sought.look_ne {x : Look} {dir : Direction} : t.look x ≠ some (0, dir) := fun h =>
  (hit_inode h).2 (hit_inode h).1.symm

end Search

/-! ## A connection with an IPv4-mapped socket -/

/-- A socket of the IPv6 table with IPv4 addresses, 10.0.0.1:8080 and 10.0.0.2:80. -/
def mappedRow : SocketRow :=
  .idle [0, 0, 0, 0, 0, 0, 0, 0, 0, 0, 255, 255, 10, 0, 0, 1] 8080
    [0, 0, 0, 0, 0, 0, 0, 0, 0, 0, 255, 255, 10, 0, 0, 2] 80 1 4242 (by decide)

/-- It is the only socket. -/
def mappedTables : ProcNet → SocketTable
  | .tcp6 => .ofRows [mappedRow] (by decide +kernel)
  | _ => .ofRows [] nofun

/-- The connection of it. -/
def mappedTuple : C.ConnTuple :=
  ⟨[10, 0, 0, 1] ++ List.replicate 12 0, [10, 0, 0, 2] ++ List.replicate 12 0, 4, 4, 8080, 80, 6⟩

/-! ## The rows in Go -/

namespace Go

variable {t : ConnTuple}

/-- The system when its socket tables are these. -/
def reading (tables : ProcNet → SocketTable) (env : Env) : Env :=
  { env with procNet := fun _ file => readProcNetFile (some (tables file).text) }

def sought (t : ConnTuple) : Sought :=
  ⟨fun ip => ipsEq (some ip) t.srcIP, fun ip => ipsEq (some ip) t.dstIP, t.srcPort, t.dstPort,
    t.proto⟩

theorem to4_or (ip : Bytes) : (to4 (some ip)).or (some ip) = some (unmapped ip) := by
  unfold to4 unmapped
  rw [Option.bind_some]
  by_cases h4 : ip.length = 4
  · rw [if_pos h4, if_neg (by rw [h4]; nofun)]
    rfl
  · rw [if_neg h4]
    split <;> rfl

theorem ipsEq_iff (ip : Bytes) (addr : Option Bytes) :
    ipsEq (some ip) addr = true ↔ addr.map unmapped = some (unmapped ip) := by
  rw [ipsEq, decide_eq_true_eq, to4_or]
  cases addr with
  | none => exact iff_of_false nofun nofun
  | some addr =>
      rw [to4_or, Option.map_some]
      exact eq_comm

theorem endpoints_iff (r : SocketRow) (a b : Option Bytes) (p q : UInt16) :
    (ipsEq (some r.localIP) a && r.localPort = p && ipsEq (some r.remoteIP) b && r.remotePort = q)
        = true
      ↔ SameEndpoint r.localIP r.localPort a p ∧ SameEndpoint r.remoteIP r.remotePort b q := by
  simp only [SameEndpoint, Bool.and_eq_true, decide_eq_true_eq, ipsEq_iff, and_assoc]

theorem hit_connected (r : SocketRow) :
    (sought t).hit .connected (entryOf r)
      = if r.inode = 0 then none
        else if Outgoing t r then some (r.inode, .outbound)
        else if Incoming t r then some (r.inode, .inbound)
        else none := by
  have hout := endpoints_iff r t.srcIP t.dstIP t.srcPort t.dstPort
  have hin := endpoints_iff r t.dstIP t.srcIP t.dstPort t.srcPort
  unfold Outgoing Incoming
  simp only [← hout, ← hin]
  rfl

/-- What a look at a row of a TCP table finds. -/
theorem hit_connected_eq_some_iff {r : SocketRow} {inode : UInt64} {dir : Direction} :
    (sought t).hit .connected (entryOf r) = some (inode, dir)
      ↔ r.inode ≠ 0 ∧ r.inode = inode
        ∧ (Outgoing t r ∧ dir = .outbound ∨ ¬Outgoing t r ∧ Incoming t r ∧ dir = .inbound) := by
  rw [hit_connected]
  by_cases hzero : r.inode = 0
  · rw [if_pos hzero]
    exact iff_of_false nofun fun h => h.1 hzero
  by_cases hout : Outgoing t r
  · rw [if_neg hzero, if_pos hout, Option.some.injEq, Prod.mk.injEq]
    simp only [hzero, hout, not_true_eq_false, false_and, or_false, true_and, ne_eq,
      not_false_eq_true, eq_comm]
  by_cases hin : Incoming t r
  · rw [if_neg hzero, if_neg hout, if_pos hin, Option.some.injEq, Prod.mk.injEq]
    simp only [hzero, hout, hin, not_false_eq_true, false_and, false_or, true_and, ne_eq, eq_comm]
  · rw [if_neg hzero, if_neg hout, if_neg hin]
    refine iff_of_false nofun ?_
    rintro ⟨-, -, ⟨h, -⟩ | ⟨-, h, -⟩⟩
    · exact hout h
    · exact hin h

/-- The search gives what it finds first in the rows. -/
theorem findInodeWithDir_gives (env : Env) (tables : ProcNet → SocketTable) (t : ConnTuple)
    (now : Nat) :
    ∃ later, Gives (findInodeWithDir (reading tables env) t) now
      (((looks tables t.proto).findSome? (sought t).look).getD (0, .unknown)) later := by
  have hread : ∀ now file, capped none ((reading tables env).procNet now file)
      = capped none ((tables file).rows.map entryOf) :=
    fun _ file => readProcNetFile_text (tables file)
  have hroom : ∀ place, room none place := fun _ => nofun
  obtain ⟨later, h⟩ := searchFiles_gives (t := sought t) hread (filesOf t.proto) now
  simp only [hroom, if_true] at h
  exact ⟨later, h⟩

/-- The rows of the tables of TCP sockets. -/
def tcpRows (tables : ProcNet → SocketTable) : List SocketRow :=
  (tables .tcp).rows ++ (tables .tcp6).rows

theorem looks_tcp (tables : ProcNet → SocketTable) (t : Sought) :
    (looks tables 6).findSome? t.look
      = (tcpRows tables).findSome? fun r => t.hit .connected (entryOf r) := by
  have hrows : ∀ rows, (looksAt 6 rows).findSome? t.look
      = rows.findSome? fun r => t.hit .connected (entryOf r) := by
    intro rows
    change (List.append _ []).findSome? t.look = _
    rw [List.append_eq, List.append_nil, List.findSome?_map]
    exact @findSome?_zipIdx _ _ (fun r => t.hit .connected (entryOf r)) rows
  change (looksAt 6 (tables .tcp).rows ++ (looksAt 6 (tables .tcp6).rows ++ [])).findSome? t.look
    = _
  rw [List.append_nil, List.findSome?_append, hrows, hrows, tcpRows, List.findSome?_append]

/-- For TCP a socket is found exactly when a row is of the tuple, from either side, and it is the
socket of such a row, with the side that the row is on. -/
theorem findInodeWithDir_rows (env : Env) (tables : ProcNet → SocketTable) (t : ConnTuple)
    (now : Nat) (htcp : t.proto = 6) :
    ∃ inode dir later, Gives (findInodeWithDir (reading tables env) t) now (inode, dir) later
      ∧ (inode ≠ 0 ↔ ∃ r ∈ tcpRows tables, r.inode ≠ 0 ∧ (Outgoing t r ∨ Incoming t r))
      ∧ (inode ≠ 0 → ∃ r ∈ tcpRows tables, r.inode = inode
          ∧ (Outgoing t r ∧ dir = .outbound ∨ Incoming t r ∧ dir = .inbound))
      ∧ (dir = .unknown ↔ inode = 0) := by
  obtain ⟨later, hgives⟩ := findInodeWithDir_gives env tables t now
  rw [htcp, looks_tcp] at hgives
  cases hfound : (tcpRows tables).findSome? fun r => (sought t).hit .connected (entryOf r) with
  | none =>
      rw [hfound] at hgives
      refine ⟨0, .unknown, later, hgives, ?_, fun h => absurd rfl h, iff_of_true rfl rfl⟩
      refine iff_of_false (fun h => h rfl) ?_
      rintro ⟨r, hr, hinode, hside⟩
      have hnone := List.findSome?_eq_none_iff.mp hfound r hr
      rw [hit_connected, if_neg hinode] at hnone
      by_cases hout : Outgoing t r
      · rw [if_pos hout] at hnone
        cases hnone
      · rw [if_neg hout, if_pos (hside.resolve_left hout)] at hnone
        cases hnone
  | some found =>
      obtain ⟨inode, dir⟩ := found
      obtain ⟨before, r, after, hrows, hhit, -⟩ := List.findSome?_eq_some_iff.mp hfound
      have hr : r ∈ tcpRows tables := hrows ▸ List.mem_append_right _ (List.mem_cons_self ..)
      obtain ⟨hinode, rfl, hside⟩ := hit_connected_eq_some_iff.mp hhit
      rw [hfound] at hgives
      have hside' : Outgoing t r ∧ dir = .outbound ∨ Incoming t r ∧ dir = .inbound :=
        hside.imp_right And.right
      have hdir : dir ≠ .unknown := by
        rcases hside' with ⟨-, rfl⟩ | ⟨-, rfl⟩ <;> exact nofun
      refine ⟨r.inode, dir, later, hgives, ?_, fun _ => ⟨r, hr, rfl, hside'⟩,
        iff_of_false hdir hinode⟩
      exact iff_of_true hinode ⟨r, hr, hinode, hside'.imp And.left And.left⟩

/-- The connection is found in the IPv6 table. -/
theorem findInodeWithDir_rows_mapped :
    ∃ inode dir later,
      Gives (findInodeWithDir (reading mappedTables elsewhere) mappedTuple.toGo) 0 (inode, dir)
        later
      ∧ (inode ≠ 0 ↔ ∃ r ∈ tcpRows mappedTables, r.inode ≠ 0
          ∧ (Outgoing mappedTuple.toGo r ∨ Incoming mappedTuple.toGo r))
      ∧ (inode ≠ 0 → ∃ r ∈ tcpRows mappedTables, r.inode = inode
          ∧ (Outgoing mappedTuple.toGo r ∧ dir = .outbound
            ∨ Incoming mappedTuple.toGo r ∧ dir = .inbound))
      ∧ (dir = .unknown ↔ inode = 0) :=
  findInodeWithDir_rows elsewhere mappedTables mappedTuple.toGo 0 rfl

end Go

/-! ## The rows in C -/

/-- Only addresses of two lengths can be the same but for being mapped. -/
theorem unmapped_inj {ip addr : Bytes} (hlen : ip.length = addr.length) :
    unmapped ip = unmapped addr ↔ ip = addr := by
  refine ⟨fun h => ?_, congrArg unmapped⟩
  unfold unmapped at h
  by_cases hip : ip.length = 16 ∧ ip.take 12 = List.replicate 10 0 ++ [0xff, 0xff]
  · by_cases haddr : addr.length = 16 ∧ addr.take 12 = List.replicate 10 0 ++ [0xff, 0xff]
    · rw [if_pos hip, if_pos haddr] at h
      rw [← List.take_append_drop 12 ip, ← List.take_append_drop 12 addr, hip.2, haddr.2, h]
    · rw [if_pos hip, if_neg haddr] at h
      have := congrArg List.length h
      rw [List.length_drop] at this
      omega
  · by_cases haddr : addr.length = 16 ∧ addr.take 12 = List.replicate 10 0 ++ [0xff, 0xff]
    · rw [if_neg hip, if_pos haddr] at h
      have := congrArg List.length h
      rw [List.length_drop] at this
      omega
    · rwa [if_neg hip, if_neg haddr] at h

namespace C

variable {t : ConnTuple} {x : Look}

/-- The system when its socket tables are these. -/
def reading (tables : ProcNet → SocketTable) (env : Env) : Env :=
  { env with procNet := fun _ file => readProcNetFile maxProcEntries (some (tables file).text) }

def sought (t : ConnTuple) : Sought :=
  ⟨fun ip => ipsEq ip ip.length t.srcIp t.srcLen, fun ip => ipsEq ip ip.length t.dstIp t.dstLen,
    t.srcPort, t.dstPort, t.proto⟩

/-- The lengths of a tuple are those of its addresses. -/
def Sound (t : ConnTuple) : Prop :=
  t.srcLen = (t.srcIp.take t.srcLen.toNat).length ∧ t.dstLen = (t.dstIp.take t.dstLen.toNat).length

/-- A row that can be of the tuple when the families count, at a place there is room for. The
second pass is about one address. -/
def Seen (t : ConnTuple) (x : Look) : Prop :=
  x.place < maxProcEntries ∧ x.row.localIP.length = t.srcLen
    ∧ (x.pass = .connected → x.row.localIP.length = t.dstLen)

instance (t : ConnTuple) (x : Look) : Decidable (Seen t x) :=
  inferInstanceAs (Decidable (_ ∧ _ ∧ _))

/-- Addresses of one family compare as in Go, others do not. -/
theorem ipsEq_eq {ip addr : Bytes} {len : Int} (h : len = (addr.take len.toNat).length) :
    ipsEq ip ip.length addr len
      = (decide (ip.length = len) && Go.ipsEq (some ip) (some (addr.take len.toNat))) := by
  unfold ipsEq
  by_cases hlen : ip.length = len
  · have hsame : (addr.take len.toNat).length = ip.length := by omega
    have htake : ip.take (ip.length : Int).toNat = ip := by rw [Int.toNat_natCast, List.take_length]
    rw [if_neg (not_not_intro hlen), decide_eq_true hlen, Bool.true_and, htake, Bool.eq_iff_iff,
      decide_eq_true_eq, Go.ipsEq_iff, Option.map_some, Option.some.injEq, unmapped_inj hsame, hlen]
    exact eq_comm
  · rw [if_pos hlen, decide_eq_false hlen, Bool.false_and]

theorem isSrc_eq (ht : Sound t) (ip : Bytes) :
    (sought t).isSrc ip = (decide (ip.length = t.srcLen) && (Go.sought t.toGo).isSrc ip) :=
  ipsEq_eq ht.1

theorem isDst_eq (ht : Sound t) (ip : Bytes) :
    (sought t).isDst ip = (decide (ip.length = t.dstLen) && (Go.sought t.toGo).isDst ip) :=
  ipsEq_eq ht.2

/-- A hit needs a row of the tuple's family, and is then one in Go, too. -/
theorem hit_eq (ht : Sound t) (pass : Pass) (r : SocketRow) :
    (sought t).hit pass (entryOf r)
      = if r.localIP.length = t.srcLen ∧ (pass = .connected → r.localIP.length = t.dstLen) then
          (Go.sought t.toGo).hit pass (entryOf r)
        else none := by
  have hremote : r.remoteIP.length = r.localIP.length := r.family.2
  by_cases hsrc : (r.localIP.length : Int) = t.srcLen
  · cases pass with
    | unconnected =>
        rw [if_pos ⟨hsrc, nofun⟩]
        simp only [Sought.hit, entryOf, isSrc_eq ht, hsrc, decide_true, Bool.true_and]
        rfl
    | connected =>
        by_cases hdst : (r.localIP.length : Int) = t.dstLen
        · rw [if_pos ⟨hsrc, fun _ => hdst⟩]
          simp only [Sought.hit, entryOf, isSrc_eq ht, isDst_eq ht, hremote, hsrc, ← hdst,
            decide_true, Bool.true_and]
          rfl
        · rw [if_neg fun h => hdst (h.2 rfl)]
          simp only [Sought.hit, entryOf, isDst_eq ht, hremote, hdst, decide_false, Bool.false_and,
            Bool.and_false, Bool.false_eq_true, if_false, ite_self]
  · rw [if_neg fun h => hsrc h.1]
    cases pass with
    | unconnected =>
        simp only [Sought.hit, entryOf, isSrc_eq ht, hsrc, decide_false, Bool.false_and,
          Bool.false_eq_true, if_false, ite_self]
    | connected =>
        simp only [Sought.hit, entryOf, isSrc_eq ht, hremote, hsrc, decide_false, Bool.false_and,
          Bool.and_false, Bool.false_eq_true, if_false, ite_self]

/-- A look finds in C what it finds in Go, if the row is seen. -/
theorem look_eq (ht : Sound t) (x : Look) :
    (if room (some maxProcEntries) x.place then (sought t).look x else none)
      = if Seen t x then (Go.sought t.toGo).look x else none := by
  rw [Sought.look, hit_eq ht, ← ite_and]
  simp only [room_some]
  rfl

theorem findInodeWithDir_gives (env : Env) (tables : ProcNet → SocketTable) (ht : Sound t)
    (now : Nat) :
    ∃ later, Gives (findInodeWithDir (reading tables env) t) now
      (((looks tables t.proto).findSome? fun x =>
        if Seen t x then (Go.sought t.toGo).look x else none).getD (0, .unknown)) later := by
  have hread : ∀ now file, capped (some maxProcEntries) ((reading tables env).procNet now file)
      = capped (some maxProcEntries) ((tables file).rows.map entryOf) := by
    intro _ file
    simp only [capped, reading, readProcNetFile_text, List.take_take, Nat.min_self]
  obtain ⟨later, h⟩ := searchFiles_gives (t := sought t) hread (filesOf t.proto) now
  simp only [look_eq ht] at h
  exact ⟨later, h⟩

end C

/-! ## Agreement -/

/-- The find that the C port looks past, if it does, makes no difference: the first one that it
sees is of the same socket and the same side. -/
def Recovered (t : C.ConnTuple) (xs : List Look) : Prop :=
  let found (x : Look) := (Go.sought t.toGo).look x
  ∀ x, xs.find? (fun x => (found x).isSome) = some x → ¬C.Seen t x →
    ∃ y, xs.find? (fun y => decide (C.Seen t y) && (found y).isSome) = some y ∧ found y = found x

/-- In Go it is found, in C it is not. -/
theorem findInodeWithDir_missed :
    ¬∃ found later later',
      Gives (Go.findInodeWithDir (Go.reading mappedTables elsewhere) mappedTuple.toGo) 0 found later
        ∧ Gives (C.findInodeWithDir (C.reading mappedTables elsewhere) mappedTuple) 0 found
          later' := by
  rintro ⟨found, later, later', hgo, hc⟩
  have hsound : C.Sound mappedTuple := ⟨rfl, rfl⟩
  obtain ⟨_, hgo'⟩ := Go.findInodeWithDir_gives elsewhere mappedTables mappedTuple.toGo 0
  obtain ⟨_, hc'⟩ := C.findInodeWithDir_gives elsewhere mappedTables hsound 0
  have hboth := (hgo.unique hgo').1.symm.trans (hc.unique hc').1
  exact absurd hboth (by decide)

/-- The ports find the same socket exactly when a row that C does not see makes no difference. -/
theorem findInodeWithDir_eq_iff (env : Env) (tables : ProcNet → SocketTable) (t : C.ConnTuple)
    (now now' : Nat) (ht : C.Sound t) :
    ∃ inGo later inC later',
      Gives (Go.findInodeWithDir (Go.reading tables env) t.toGo) now inGo later
        ∧ Gives (C.findInodeWithDir (C.reading tables env) t) now' inC later'
        ∧ (inC = inGo ↔ Recovered t (looks tables t.proto)) := by
  obtain ⟨later, hgo⟩ := Go.findInodeWithDir_gives env tables t.toGo now
  obtain ⟨later', hc⟩ := C.findInodeWithDir_gives env tables ht now'
  refine ⟨_, later, _, later', hgo, hc, ?_⟩
  have hfound : ∀ xs : List Look, xs.findSome? (Go.sought t.toGo).look ≠ some (0, .unknown) := by
    intro xs h
    obtain ⟨x, -, hx⟩ := List.exists_of_findSome?_eq_some h
    exact Sought.look_ne hx
  rw [getD_eq_getD_iff ?_ (hfound _)]
  · exact findSome?_seen_eq_iff
  · intro h
    obtain ⟨x, -, hx⟩ := List.exists_of_findSome?_eq_some h
    by_cases hseen : C.Seen t x
    · rw [if_pos hseen] at hx
      exact Sought.look_ne hx
    · rw [if_neg hseen] at hx
      cases hx

/-- The tables with the socket of the IPv6 table. -/
theorem findInodeWithDir_eq_iff_mapped :
    ∃ inGo later inC later',
      Gives (Go.findInodeWithDir (Go.reading mappedTables elsewhere) mappedTuple.toGo) 0 inGo later
        ∧ Gives (C.findInodeWithDir (C.reading mappedTables elsewhere) mappedTuple) 0 inC later'
        ∧ (inC = inGo ↔ Recovered mappedTuple (looks mappedTables 6)) :=
  findInodeWithDir_eq_iff elsewhere mappedTables mappedTuple 0 0 ⟨rfl, rfl⟩

end Tracep.Nettrace
