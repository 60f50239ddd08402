import Tracep.Procfs.SocketTable
import Tracep.Tlstrace.HexAddr

/-!
# The remote end of a process

Without a server name the host of an event is looked for in the socket
tables of the process. `remoteFromProcNet` is documented to take the first
established connection of a local port that is not one of a server, but it
looks at no local port: it takes the first established connection there is
(`remoteFromProcNet_eq`). So it gives what it should exactly where that one
is a client's, or has the same remote end as the first of a client
(`remoteFromProcNet_iff`).
-/

namespace Tracep.Tlstrace

open Fields Procfs

namespace Go

section Code

variable (noReverseDNS : Bool) (lookupAddr : Bytes → Option Bytes)

/-- The remote end that a line gives, if the loop does not continue with the next one. -/
def remoteInLine (isV6 : Bool) (line : Bytes) : Option Bytes :=
  let fields := goFields line
  if fields.length < 4 then none
  else if fields.getD 3 [] ≠ [48, 49] then none -- 01 = ESTABLISHED
  else
    let addr := parseHexAddr noReverseDNS lookupAddr (fields.getD 2 []) isV6
    if addr ≠ [] then some addr else none

/-- The lines of a table after its header. -/
def tableLines (data : Bytes) : List Bytes := (data.splitOn 10).drop 1

/-- The remote end that a table gives, if it can be read. -/
def remoteInTable (isV6 : Bool) (data : Option Bytes) : Option Bytes :=
  data.bind fun data => (tableLines data).findSome? (remoteInLine noReverseDNS lookupAddr isV6)

/-- `remoteFromProcNet`, of the contents of `tcp6` and `tcp`. -/
def remoteFromProcNet (tcp6 tcp : Option Bytes) : Bytes :=
  ((remoteInTable noReverseDNS lookupAddr true tcp6).or
    (remoteInTable noReverseDNS lookupAddr false tcp)).getD []

end Code

/-! ## What it should give -/

/-- The number of the local port of a line. -/
def localPort (line : Bytes) : Option Nat :=
  (cut [58] ((goFields line).getD 1 [])).bind fun parts =>
    match Strconv.parseHex (2 ^ 16 - 1) parts.2 with
    | .ok port => some port
    | _ => none

/-- The local port is not one of a server. -/
def isClient (line : Bytes) : Bool := (localPort line).any (1024 ≤ ·)

section Connections

variable (noReverseDNS : Bool) (lookupAddr : Bytes → Option Bytes)

/-- The established connection of a line, if its remote end is accepted: whether the local port
is that of a client, and the remote end. -/
def connectionInLine (isV6 : Bool) (line : Bytes) : Option (Bool × Bytes) :=
  (remoteInLine noReverseDNS lookupAddr isV6 line).map (isClient line, ·)

/-- Those of a table. -/
def connectionsInTable (isV6 : Bool) (data : Option Bytes) : List (Bool × Bytes) :=
  (data.toList.flatMap tableLines).filterMap (connectionInLine noReverseDNS lookupAddr isV6)

/-- Those of both tables. -/
def connections (tcp6 tcp : Option Bytes) : List (Bool × Bytes) :=
  connectionsInTable noReverseDNS lookupAddr true tcp6
    ++ connectionsInTable noReverseDNS lookupAddr false tcp

end Connections

/-- The remote end of the first connection of a client. -/
def firstClient (conns : List (Bool × Bytes)) : Bytes :=
  ((conns.find? Prod.fst).map Prod.snd).getD []

/-- The first connection is that of a client, or the first one of a client has its remote end. -/
def ClientFirst (conns : List (Bool × Bytes)) : Prop :=
  ∀ conn, conns.head? = some conn → conn.1 = true ∨ ∃ c ∈ conns.find? Prod.fst, c.2 = conn.2

section Spec

variable {noReverseDNS : Bool} {lookupAddr : Bytes → Option Bytes} {isV6 : Bool}
  {tcp6 tcp data : Option Bytes} {line addr : Bytes} {conns : List (Bool × Bytes)}

theorem remoteInLine_ne_nil (h : remoteInLine noReverseDNS lookupAddr isV6 line = some addr) :
    addr ≠ [] := by
  unfold remoteInLine at h
  simp only [] at h
  split at h
  · cases h
  split at h
  · cases h
  split at h
  · obtain rfl := Option.some.inj h
    assumption
  · cases h

/-- What a table gives is the first of its connections. -/
theorem remoteInTable_eq : remoteInTable noReverseDNS lookupAddr isV6 data
    = (connectionsInTable noReverseDNS lookupAddr isV6 data).head?.map Prod.snd := by
  have hline : remoteInLine noReverseDNS lookupAddr isV6
      = Option.map Prod.snd ∘ connectionInLine noReverseDNS lookupAddr isV6 := by
    funext line
    rw [Function.comp_apply, connectionInLine, Option.map_map]
    exact Option.map_id'.symm
  cases data with
  | none => rfl
  | some data =>
      rw [remoteInTable, Option.bind_some, hline, connectionsInTable, Option.toList_some,
        List.flatMap_singleton, List.head?_filterMap, List.map_findSome?]

/-- Whatever its local port, the first connection is taken. -/
theorem remoteFromProcNet_eq :
    remoteFromProcNet noReverseDNS lookupAddr tcp6 tcp
      = ((connections noReverseDNS lookupAddr tcp6 tcp).head?.map Prod.snd).getD [] := by
  rw [remoteFromProcNet, remoteInTable_eq, remoteInTable_eq, connections, List.head?_append,
    Option.map_or]

theorem of_mem_connections {conn : Bool × Bytes}
    (h : conn ∈ connections noReverseDNS lookupAddr tcp6 tcp) : conn.2 ≠ [] := by
  rcases List.mem_append.mp h with h | h
  all_goals
    obtain ⟨line, -, hline⟩ := List.mem_filterMap.mp h
    obtain ⟨addr, haddr, rfl⟩ := Option.map_eq_some_iff.mp hline
    exact remoteInLine_ne_nil haddr

/-- The first of all is the first of a client exactly if it is one, or has the same end. -/
theorem head_eq_firstClient_iff (hne : ∀ conn ∈ conns, conn.2 ≠ []) :
    (conns.head?.map Prod.snd).getD [] = firstClient conns ↔ ClientFirst conns := by
  cases conns with
  | nil => exact iff_of_true rfl fun _ h => nomatch h
  | cons conn conns =>
      simp only [ClientFirst, List.head?_cons, Option.map_some, Option.getD_some, Option.some.injEq,
        forall_eq', firstClient]
      cases hfind : (conn :: conns).find? Prod.fst with
      | none =>
          refine iff_of_false (hne conn List.mem_cons_self) (not_or.mpr ⟨?_, fun h => ?_⟩)
          · exact List.find?_eq_none.mp hfind conn List.mem_cons_self
          · obtain ⟨c, hc, -⟩ := h
            cases hc
      | some c =>
          simp only [Option.map_some, Option.getD_some, Option.mem_some_iff, exists_eq_left']
          constructor
          · exact fun heq => Or.inr heq.symm
          · rintro (hclient | heq)
            · rw [List.find?_cons_of_pos hclient, Option.some_inj] at hfind
              rw [hfind]
            · exact heq.symm

end Spec

/-! ## Tables of the kernel -/

/-- The connection of a row. -/
def connectionOf (noReverseDNS : Bool) (lookupAddr : Bytes → Option Bytes) (isV6 : Bool)
    (r : SocketRow) : Option (Bool × Bytes) :=
  if r.state = 1 then
    let addr :=
      parseHexAddr noReverseDNS lookupAddr (endpointText r.remoteIP r.remotePort) isV6
    if addr ≠ [] then some (decide (1024 ≤ r.localPort.toNat), addr) else none
  else none

section Rows

variable {noReverseDNS : Bool} {lookupAddr : Bytes → Option Bytes} {isV6 : Bool} {r : SocketRow}
  {t : SocketTable}

theorem isClient_line (r : SocketRow) : isClient r.line = decide (1024 ≤ r.localPort.toNat) := by
  have hcolumn : (r.words ++ goFields r.rest).getD 1 [] = endpointText r.localIP r.localPort := rfl
  have hparse : Strconv.parseHex (2 ^ 16 - 1) (hexDigits 4 r.localPort.toNat)
      = .ok r.localPort.toNat :=
    Strconv.parseHex_hexDigits (by decide) r.localPort.toNat_lt
      (Nat.le_sub_one_of_lt r.localPort.toNat_lt)
  rw [isClient, localPort, r.goFields_line, hcolumn, Nettrace.cut_endpointText]
  simp only [Option.bind_some, hparse, Option.any_some]

theorem connectionInLine_line : connectionInLine noReverseDNS lookupAddr isV6 r.line
    = connectionOf noReverseDNS lookupAddr isV6 r := by
  have hlen : ¬(r.words ++ goFields r.rest).length < 4 := fun h =>
    r.not_length_words_lt (goFields r.rest) (h.trans (by decide))
  have hremote : (r.words ++ goFields r.rest).getD 2 [] = endpointText r.remoteIP r.remotePort :=
    rfl
  have hstate : (r.words ++ goFields r.rest).getD 3 [] = hexDigits 2 r.state.toNat := rfl
  have hone : hexDigits 2 r.state.toNat = [48, 49] ↔ r.state = 1 := by
    rw [← UInt8.toNat_inj]
    exact ⟨hexDigits_injective (m := 1) r.state.toNat_lt (by decide), fun h => h ▸ rfl⟩
  rw [connectionInLine, remoteInLine, r.goFields_line, isClient_line, connectionOf]
  simp only [if_neg hlen, hremote, hstate, ne_eq, hone]
  by_cases hest : r.state = 1
  · rw [if_neg (not_not_intro hest), if_pos hest]
    split <;> rfl
  · rw [if_pos hest, if_neg hest]
    rfl

theorem connectionsInTable_text :
    connectionsInTable noReverseDNS lookupAddr isV6 (some t.text)
      = t.rows.filterMap (connectionOf noReverseDNS lookupAddr isV6) := by
  have hlines : tableLines t.text = t.rows.map SocketRow.line ++ [[]] := by
    rw [tableLines, SocketTable.text, splitOn_unlines (t.not_mem_line (by decide))]
    rfl
  have hlast : connectionInLine noReverseDNS lookupAddr isV6 [] = none := rfl
  rw [connectionsInTable, Option.toList_some, List.flatMap_singleton, hlines,
    List.filterMap_append, List.filterMap_cons_none hlast, List.filterMap_nil, List.append_nil,
    List.filterMap_map]
  congr 1
  funext r
  exact connectionInLine_line

end Rows

/-- A connection that a client has made to port 443 of the host. -/
def served : SocketRow :=
  .idle [10, 0, 0, 1] 443 [8, 8, 8, 8] 54321 1 7 ⟨Or.inl rfl, rfl⟩

def servedTable : SocketTable := .ofRows [served] (by decide)

/-- The remote end of the server's connection is given, though no client has one. -/
theorem remoteFromProcNet_served :
    remoteFromProcNet true (fun _ => none) none (some servedTable.text)
      ≠ firstClient (connections true (fun _ => none) none (some servedTable.text)) := by
  have haddr : parseHexAddr true (fun _ => none) (endpointText [8, 8, 8, 8] 54321) false
      = hostPort (dottedQuad [8, 8, 8, 8]) 54321 :=
    (@printed_v4 [8, 8, 8, 8] 54321 (fun _ => none) rfl (by decide)).trans (if_neg (by decide))
  have hne : hostPort (dottedQuad [8, 8, 8, 8]) 54321 ≠ [] :=
    List.append_ne_nil_of_right_ne_nil _ (List.cons_ne_nil _ _)
  have hconn : connectionOf true (fun _ => none) false served
      = some (false, hostPort (dottedQuad [8, 8, 8, 8]) 54321) := by
    rw [connectionOf, if_pos (show served.state = 1 from rfl)]
    change (if parseHexAddr true (fun _ => none) (endpointText [8, 8, 8, 8] 54321) false ≠ []
      then some (false, _) else none) = _
    rw [haddr, if_pos hne]
    exact congrArg (fun addr => some (false, addr)) haddr
  have hconns : connections true (fun _ => none) none (some servedTable.text)
      = [(false, hostPort (dottedQuad [8, 8, 8, 8]) 54321)] := by
    rw [connections, connectionsInTable_text]
    exact List.filterMap_cons_some hconn
  rw [remoteFromProcNet_eq, hconns]
  exact hne

/-- The remote end given is that of the first connection of a client exactly when no other comes
first, or one with the same remote end. -/
theorem remoteFromProcNet_iff (noReverseDNS : Bool) (lookupAddr : Bytes → Option Bytes)
    (tcp6 tcp : Option Bytes) :
    remoteFromProcNet noReverseDNS lookupAddr tcp6 tcp
        = firstClient (connections noReverseDNS lookupAddr tcp6 tcp)
      ↔ ClientFirst (connections noReverseDNS lookupAddr tcp6 tcp) := by
  rw [remoteFromProcNet_eq]
  exact head_eq_firstClient_iff fun _ => of_mem_connections

end Go

end Tracep.Tlstrace
