import Tracep.Lib.ProbingSet
import Tracep.Nettrace.DarwinScan

/-!
# The net tracer of the C port on macOS

`net_scan` reads what `lsof` prints as the Go code does, into buffers of a
fixed size. Where the texts fit, both read the same connections
(`sockets_transcript_fits`).

What was seen is in a hash table that nothing is taken out of, `net_seen`, and
once that is full every other connection is taken for seen. So connections are
emitted as the Go code emits them exactly as long as all there have been, with
those of the start, are no more than the table has slots, or there is no new one
(`run_reportsNew_iff`).
-/

namespace Tracep.Nettrace.Darwin.C

open Lsof Probing

/-! ## The code -/

/-- `split_conn`. -/
def splitConn (s : Bytes) : Bytes × Bytes :=
  match cut [45, 62] s with
  | some (src, dst) => (src.take 63, dst.take 63)
  | none => (s.take 63, [])

/-- `split_host_port`. -/
def splitHostPort (s : Bytes) : Bytes × Int :=
  if s = [] ∨ s = [42, 58, 42] then ([], 0)
  else if [91].isPrefixOf s then
    match cut [93, 58] s with
    | none => ([], 0)
    | some (before, port) => ((before.drop 1).take 63, Libc.atoi port)
  else
    match cutLast 58 s with
    | none => (s.take 63, 0)
    | some (ip, port) =>
        (if ip.take 63 = [42] then [] else ip.take 63,
          if port.head? = some 42 then 0 else Libc.atoi port)

def ends (s : Bytes) : (Bytes × Int) × (Bytes × Int) :=
  let (src, dst) := splitConn s
  (splitHostPort src, splitHostPort dst)

/-- How `net_scan` takes the values. -/
def netReader : Reader where
  pid _ body := Libc.atoi body
  comm body := body.take 63
  uid _ body := (Libc.strtoul body).toUInt32
  proto body := body.take 7
  ends := ends
  unbound := false

/-- The command is `?` before there is one. -/
def start : Cur := ⟨0, [63], 0, []⟩

/-- `NETSEEN_CAP`. -/
def netSeenCap : Nat := 16384

/-- A step of the FNV hash. -/
def fnv (h : UInt64) (x : UInt64) : UInt64 := (h ^^^ x) * 1099511628211

def fnvText (h : UInt64) (s : Bytes) : UInt64 := s.foldl (fun h b => fnv h b.toUInt64) h

def netHash (k : MacConnKey) : UInt32 :=
  let h := fnvText 1469598103934665603 k.proto
  let h := fnv h (UInt32.ofInt k.pid).toUInt64
  let h := fnvText h k.src
  let h := fnv h (UInt32.ofInt k.sport).toUInt64
  let h := fnvText h k.dst
  (fnv h (UInt32.ofInt k.dport).toUInt64).toUInt32

/-- `hash & (NETSEEN_CAP - 1)`. -/
theorem netHash_lt (k : MacConnKey) : (netHash k &&& 16383).toNat < netSeenCap := by
  rw [UInt32.toNat_and]
  exact Nat.lt_of_le_of_lt Nat.and_le_right (by decide)

/-- `net_seen`. An entry has its hash as well, which is that of the rest. -/
def netSeen : Scheme MacConnKey Unit netSeenCap where
  hash k := ⟨(netHash k &&& 16383).toNat, netHash_lt k⟩
  fresh := ()
  clear := id

abbrev NetSeen := Table MacConnKey Unit netSeenCap

/-- `net_seen_check_insert`: a full table pretends to have seen everything. -/
def netSeenCheckInsert : NetSeen → MacConnKey → NetSeen × Bool := netSeen.mark false

/-- A scan under way. -/
structure Pass where
  cur : Cur
  seen : NetSeen
  emitted : List MacConn

def scanLine (seedOnly : Bool) (s : Pass) (line : Bytes) : Pass :=
  let (cur, conn) := netReader.readLine s.cur line
  match conn with
  | none => { s with cur }
  | some conn =>
      let (seen, already) := netSeenCheckInsert s.seen conn.key
      if already || seedOnly then { s with cur, seen } else ⟨cur, seen, s.emitted ++ [conn]⟩

/-- Where `lsof` could not be run there are no lines. -/
def netScan (seedOnly : Bool) (seen : NetSeen) (lines : Option (List Bytes)) :
    NetSeen × List MacConn :=
  match lines with
  | none => (seen, [])
  | some lines =>
      let s := lines.foldl (scanLine seedOnly) ⟨start, seen, []⟩
      (s.seen, s.emitted)

def scans : NetSeen → List (Option (List Bytes)) → List (List MacConn)
  | _, [] => []
  | seen, lines :: passes =>
      let (seen, emitted) := netScan false seen lines
      emitted :: scans seen passes

/-- The loop of `net_main`, after the seed. -/
def run (first : Option (List Bytes)) (passes : List (Option (List Bytes))) : List (List MacConn) :=
  scans (netScan true (.empty ⟨0, [], [], [], 0, 0⟩ ()) first).1 passes

/-! ## The connections of a transcript -/

/-- The connections that some lines name. -/
def connections (lines : Option (List Bytes)) : List MacConn :=
  lines.elim [] (netReader.sockets start)

/-- The texts of the records fit into the buffers, and the PID is an `int`. -/
structure Fits (p : ProcRecord) : Prop where
  pid : -2 ^ 31 ≤ p.pid ∧ p.pid < 2 ^ 31
  comm : p.comm.val.length ≤ 63
  proto : ∀ f ∈ p.fds, ∀ proto ∈ f.proto, proto.val.length ≤ 7
  name : ∀ f ∈ p.fds, f.name.val.head? = some 47 ∨ ∃ src dst, f.name.val = nameText src dst
    ∧ src.text.length ≤ 63 ∧ ∀ e ∈ dst, e.text.length ≤ 63

section Endpoint

variable (e : Endpoint)

/-- A port is read by both. -/
theorem atoi_portText : Libc.atoi e.portText = e.portNumber := by
  unfold Endpoint.portText Endpoint.portNumber
  split
  · decide
  · next port _ =>
      have hlt := port.toNat_lt
      rw [Libc.atoi_of_strconv (Strconv.atoi_digits (by omega)), int32_eq (by omega) (by omega)]

theorem port_read : (if e.portText.head? = some 42 then 0 else Libc.atoi e.portText) =
    e.portNumber := by
  rw [atoi_portText, ite_eq_right_iff]
  intro hhead
  obtain ⟨host, port⟩ := e
  cases port with
  | none => rfl
  | some port =>
      have hmem : 42 ∈ digits 10 port.toNat := List.mem_of_mem_head? hhead
      exact absurd hmem (Strconv.not_mem_digits (by decide) _)

theorem splitHostPort_text (h : e.text.length ≤ 63) :
    splitHostPort e.text = (e.addr, e.portNumber) := by
  have hcolon : 58 ∉ e.portText := e.not_mem_portText (by decide) (by decide)
  rcases e.text_cases with ⟨htext, haddr, hport⟩ | ⟨ip, htext, hany, hhead, haddr⟩
    | ⟨ip, htext, hip, haddr⟩
  · rw [htext, haddr, hport]
    rfl
  · have hlen : ip.length ≤ 63 := by
      rw [htext, List.length_append] at h
      omega
    rw [splitHostPort, if_neg (not_or_intro e.text_ne_nil hany),
      if_neg (Endpoint.not_bracket hhead), haddr, ← port_read, htext, cutLast_append hcolon]
    simp only [List.take_of_length_le hlen]
  · have hlen : ip.length ≤ 63 := by
      rw [htext, List.length_append, List.length_cons] at h
      omega
    rw [htext, haddr, splitHostPort, cut_pair (Or.inl hip) (by decide), ← atoi_portText]
    exact congrArg (·, Libc.atoi e.portText) (List.take_of_length_le hlen)

end Endpoint

theorem ends_nameText {src : Endpoint} {dst : Option Endpoint} (hsrc : src.text.length ≤ 63)
    (hdst : ∀ e ∈ dst, e.text.length ≤ 63) :
    ends (nameText src dst) = Go.ends (nameText src dst) := by
  rw [Lsof.ends_nameText, ends]
  cases dst with
  | none =>
      rw [splitConn, nameText, cut_none src.not_mem_text, List.take_of_length_le hsrc]
      exact congrArg (·, ([], 0)) (splitHostPort_text src hsrc)
  | some dst =>
      have hlen := hdst dst rfl
      rw [splitConn, nameText, cut_pair (Or.inr src.not_mem_text) (by decide)]
      simp only [List.take_of_length_le hsrc, List.take_of_length_le hlen]
      exact Prod.ext (splitHostPort_text src hsrc) (splitHostPort_text dst hlen)

variable {p : ProcRecord} {ps : List ProcRecord}

theorem Fits.plain (h : Fits p) : netReader.Plain p := by
  refine ⟨fun old => ?_, fun f hf proto hproto => ?_⟩
  · change Libc.atoi p.pidText = p.pid
    rw [Libc.atoi_of_strconv p.pid_read, int32_eq h.pid.1 h.pid.2]
  · exact List.take_of_length_le (h.proto f hf proto hproto)

theorem netReader_uid (p : ProcRecord) : netReader.uid 0 p.uidText = p.uid := by
  have hlt := p.uid.toNat_lt
  change (Libc.strtoul p.uidText).toUInt32 = p.uid
  rw [Libc.strtoul_of_parseUint p.uid_read (by omega), ← UInt32.toNat_inj]
  simp

/-- Where the texts fit, the connections are those that the Go code reads. -/
theorem sockets_transcript_fits (h : ∀ p ∈ ps, Fits p) :
    netReader.sockets start (transcript ps) = Go.scanReader.sockets Go.start (transcript ps) := by
  rw [Go.sockets_scanReader, sockets_transcript fun p hp => (h p hp).plain, conns,
    List.filter_flatMap]
  refine List.flatMap_congr fun p hp => ?_
  have hfits := h p hp
  rw [ProcRecord.sockets, List.filter_filterMap]
  refine List.filterMap_congr fun f hf => ?_
  refine socket_eq_conn (fun hpath => ?_) ?_ (netReader_uid p) rfl
  · rcases hfits.name f hf with hfile | ⟨src, dst, hname, hsrc, hdst⟩
    · exact absurd hfile hpath
    · rw [hname]
      exact ends_nameText hsrc hdst
  · exact List.take_of_length_le hfits.comm

/-! ## A scan -/

variable {held : Finset MacConnKey} {seen : NetSeen} {lines : List Bytes}
  {passes : List (Option (List Bytes))}

/-- The table holds what there is room for, and what it does not hold is emitted. -/
theorem scanLine_foldl (seedOnly : Bool) (cur : Cur) (emitted : List MacConn)
    (h : netSeen.HoldsSet seen held) :
    ∃ cur' seen', lines.foldl (scanLine seedOnly) ⟨cur, seen, emitted⟩ =
        ⟨cur', seen', emitted ++ if seedOnly then []
          else freshWithin MacConn.key netSeenCap false held (netReader.sockets cur lines)⟩
      ∧ netSeen.HoldsSet seen'
        (heldWithin MacConn.key netSeenCap held (netReader.sockets cur lines)) := by
  induction lines generalizing cur emitted held seen with
  | nil =>
      refine ⟨cur, seen, ?_, h⟩
      rw [Reader.sockets, freshWithin, ite_self, List.append_nil]
      rfl
  | cons line lines ih =>
      rw [List.foldl_cons, sockets_cons, scanLine]
      generalize netReader.readLine cur line = read
      obtain ⟨cur₁, conn⟩ := read
      cases conn with
      | none => exact ih cur₁ emitted h
      | some conn =>
          have hheld : netSeen.HoldsSet (netSeenCheckInsert seen conn.key).1 _ := h.mark_held
          have hnew : (netSeenCheckInsert seen conn.key).2 = false ↔ _ := h.mark
          simp only [Option.toList_some, List.cons_append, List.nil_append, heldWithin_cons,
            freshWithin, ← hnew]
          cases seedOnly with
          | true =>
              obtain ⟨cur', seen', hfold, hheld'⟩ := ih cur₁ emitted hheld
              refine ⟨cur', seen', ?_, hheld'⟩
              rw [Bool.or_true, if_pos rfl, hfold]
              rfl
          | false =>
              cases halready : (netSeenCheckInsert seen conn.key).2 with
              | true =>
                  obtain ⟨cur', seen', hfold, hheld'⟩ := ih cur₁ emitted hheld
                  exact ⟨cur', seen', hfold, hheld'⟩
              | false =>
                  obtain ⟨cur', seen', hfold, hheld'⟩ := ih cur₁ (emitted ++ [conn]) hheld
                  refine ⟨cur', seen', ?_, hheld'⟩
                  rw [List.append_assoc] at hfold
                  exact hfold

theorem netScan_spec (seedOnly : Bool) (pass : Option (List Bytes))
    (h : netSeen.HoldsSet seen held) :
    (netScan seedOnly seen pass).2 = (if seedOnly then []
        else freshWithin MacConn.key netSeenCap false held (connections pass))
      ∧ netSeen.HoldsSet (netScan seedOnly seen pass).1
        (heldWithin MacConn.key netSeenCap held (connections pass)) := by
  cases pass with
  | none => exact ⟨(ite_self _).symm, h⟩
  | some lines =>
      obtain ⟨cur', seen', hfold, hheld⟩ := scanLine_foldl seedOnly start [] h
      rw [netScan, hfold]
      exact ⟨rfl, hheld⟩

/-! ## A run -/

theorem length_scans : (scans seen passes).length = passes.length := by
  induction passes generalizing seen with
  | nil => rfl
  | cons pass passes ih => exact congrArg (· + 1) ih

theorem zip_scans (h : netSeen.HoldsSet seen held) :
    (passes.map connections).zip (scans seen passes) =
      roundsWithin MacConn.key netSeenCap false held (passes.map connections) := by
  induction passes generalizing seen held with
  | nil => rfl
  | cons pass passes ih =>
      obtain ⟨hout, hheld⟩ := netScan_spec false pass h
      rw [List.map_cons, scans, List.zip_cons_cons, roundsWithin, hout, ih hheld]
      rfl

/-- The keys of the first scan. -/
def known (first : Option (List Bytes)) : Finset MacConnKey :=
  noted MacConn.key ∅ (connections first)

/-- How the passes of a run are reported. -/
theorem zip_run (first : Option (List Bytes)) :
    (passes.map connections).zip (run first passes) = roundsWithin MacConn.key netSeenCap false
      (heldWithin MacConn.key netSeenCap ∅ (connections first)) (passes.map connections) :=
  zip_scans (netScan_spec true first (Scheme.holdsSet_empty _)).2

theorem reportsNew_zip_run (first : Option (List Bytes)) (passes : List (Option (List Bytes))) :
    ReportsNew MacConn.key (known first) ((passes.map connections).zip (run first passes)) ↔
      (∀ k ∈ (passes.map connections).flatten.map MacConn.key, k ∈ known first)
        ∨ (noted MacConn.key (known first) (passes.map connections).flatten).card
          ≤ netSeenCap := by
  rw [zip_run]
  exact reportsNew_within_iff heldWithin_subset (card_heldWithin_le (Nat.zero_le _))
    (heldWithin_full (Nat.zero_le _))

/-- A run emits every connection once, in the first scan it is in, and none of the first scan,
exactly where there is no other, or all of them are at most `16384`. -/
theorem run_reportsNew_iff (first : Option (List Bytes)) (passes : List (Option (List Bytes))) :
    (run first passes).length = passes.length
      ∧ (ReportsNew MacConn.key (known first) ((passes.map connections).zip (run first passes))
        ↔ (∀ k ∈ (passes.map connections).flatten.map MacConn.key, k ∈ known first)
          ∨ (noted MacConn.key (known first) (passes.map connections).flatten).card ≤ 16384) :=
  ⟨length_scans, reportsNew_zip_run first passes⟩

/-! ### A full table -/

def value (b : UInt8) (s : Bytes) : Value := ⟨b :: s, List.cons_ne_nil b s⟩

theorem name_ne_nil (e : Endpoint) : nameText e none ≠ [] := e.text_ne_nil

/-- The file of a socket that listens at a port. -/
def listening (port : UInt16) : FdRecord where
  fd := value 51 []
  proto := some (value 84 [67, 80])
  name := ⟨nameText ⟨.any, some port⟩ none, name_ne_nil _⟩

theorem pid_read_one : Strconv.atoi (value 49 []) = (1, true) := by decide

theorem uid_read_zero : Strconv.parseUint (2 ^ 32 - 1) (value 48 []) = .ok (0 : UInt32).toNat := by
  decide

/-- A process that listens at as many ports. -/
def listener (n : Nat) : ProcRecord where
  pid := 1
  pidText := value 49 []
  pid_read := pid_read_one
  comm := value 63 []
  uid := 0
  uidText := value 48 []
  uid_read := uid_read_zero
  login := none
  fds := (List.range n).map fun i => listening (UInt16.ofNat (i + 1))

def listeningConn (port : UInt16) : MacConn :=
  ⟨⟨1, [84, 67, 80], [], [], port.toNat, 0⟩, [63], 0⟩

theorem listening_conn (n : Nat) (port : UInt16) :
    (listening port).conn (listener n) = some (listeningConn port) := by
  have hends := Lsof.ends_nameText ⟨.any, some port⟩ none
  simp only [FdRecord.conn, listening, hends]
  rfl

theorem listener_fits (n : Nat) : Fits (listener n) := by
  have hpid : (listener n).pid = 1 := rfl
  refine ⟨by omega, Nat.one_le_ofNat, ?_, ?_⟩
  · intro f hf proto hproto
    obtain ⟨i, -, rfl⟩ := List.mem_map.mp hf
    obtain rfl := Option.some.inj hproto
    decide
  · intro f hf
    obtain ⟨i, -, rfl⟩ := List.mem_map.mp hf
    refine Or.inr ⟨⟨.any, some (UInt16.ofNat (i + 1))⟩, none, rfl, ?_,
      fun e he => absurd he (Option.not_mem_none e)⟩
    have hlt := (UInt16.ofNat (i + 1)).toNat_lt
    have hlen : (digits 10 (UInt16.ofNat (i + 1)).toNat).length ≤ 5 :=
      Strconv.length_digits_le (by decide) (by omega)
    change (42 :: 58 :: digits 10 (UInt16.ofNat (i + 1)).toNat).length ≤ 63
    rw [List.length_cons, List.length_cons]
    omega

theorem connections_listener (n : Nat) : connections (some (transcript [listener n])) =
    ((List.range n).map fun i => listeningConn (UInt16.ofNat (i + 1))).filter MacConn.bound := by
  have hfits : ∀ p ∈ [listener n], Fits p := by
    intro p hp
    rw [List.mem_singleton.mp hp]
    exact listener_fits n
  have hfd : FdRecord.conn (listener n) ∘ (fun i => listening (UInt16.ofNat (i + 1))) =
      some ∘ fun i => listeningConn (UInt16.ofNat (i + 1)) :=
    funext fun i => listening_conn n _
  rw [connections, Option.elim_some, sockets_transcript_fits hfits, Go.sockets_scanReader, conns,
    List.flatMap_singleton]
  change List.filter _ (List.filterMap _ ((List.range n).map _)) = _
  rw [List.filterMap_map, hfd, List.filterMap_eq_map]

theorem keys_listener {n : Nat} (hn : n < 2 ^ 16) :
    (connections (some (transcript [listener n]))).map MacConn.key =
      (List.range n).map fun i => ⟨1, [84, 67, 80], [], [], ((i + 1 : Nat) : Int), 0⟩ := by
  have hport : ∀ i ∈ List.range n, (UInt16.ofNat (i + 1)).toNat = i + 1 := by
    intro i hi
    have hlt : i + 1 < 65536 := by
      have := List.mem_range.mp hi
      omega
    exact UInt16.toNat_ofNat_of_lt' hlt
  rw [connections_listener, List.filter_eq_self.mpr, List.map_map]
  · refine List.map_congr_left fun i hi => ?_
    rw [Function.comp_apply, listeningConn, hport i hi]
  · intro conn hconn
    obtain ⟨i, hi, rfl⟩ := List.mem_map.mp hconn
    refine decide_eq_true (Or.inl ?_)
    rw [listeningConn, hport i hi]
    exact Int.natCast_ne_zero.mpr (Nat.succ_ne_zero i)

/-- The table holds `16384` of the ports, and so one is not emitted. -/
theorem listener_not_reportsNew : ¬ReportsNew MacConn.key (known none)
    (([some (transcript [listener 16385])].map connections).zip
      (run none [some (transcript [listener 16385])])) := by
  have hkeys := keys_listener (n := 16385) (by decide)
  have hnodup : ((connections (some (transcript [listener 16385]))).map MacConn.key).Nodup := by
    rw [hkeys]
    refine List.Nodup.map (fun i j hij => ?_) List.nodup_range
    have hport := (MacConnKey.mk.inj hij).2.2.2.2.1
    omega
  have hlength : ((connections (some (transcript [listener 16385]))).map MacConn.key).length =
      16385 := by
    rw [hkeys, List.length_map, List.length_range]
  have hknown : known none = ∅ := noted_nil
  rw [reportsNew_zip_run, List.map_singleton, List.flatten_singleton, hknown, not_or]
  constructor
  · intro hall
    refine Finset.notMem_empty _ (hall _ (List.getElem_mem (n := 0) ?_))
    rw [hlength]
    decide
  · rw [Nat.not_le, noted, Finset.empty_union, List.toFinset_card_of_nodup hnodup, hlength]
    decide

end Tracep.Nettrace.Darwin.C
