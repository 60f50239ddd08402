import Tracep.Nettrace.Lsof

/-!
# The net tracer on macOS

There is no trace point to attach to, and so the tracer runs `lsof` from time
to time and emits the connections it has not seen (`scanConns`). What is open
when it starts it notes as seen, with a reader of its own (`seed`).

A pass takes every socket with the fields of its own records
(`scanConns_transcript`). The two readers agree about the keys of sockets, and
so a run emits every connection once, in the first pass it appears in, and
none that was open at the start (`run_transcripts`).

The text between two line breaks is taken as given, and a pass that could not
be run has none.
-/

namespace Tracep.Nettrace.Darwin.Go

open Lsof Strconv

/-! ## The code -/

/-- How `scanConns` takes the values. -/
def scanReader : Reader where
  pid old body := if (atoi body).2 then (atoi body).1 else old
  comm body := body
  uid old body :=
    match parseUint (2 ^ 32 - 1) body with
    | .ok uid => UInt32.ofNat uid
    | _ => old
  proto body := body
  ends := Go.ends
  unbound := false

/-- How `Main` takes them for the seed. Commands and users are not looked at. -/
def seedReader : Reader where
  pid _ body := (atoi body).1
  comm _ := []
  uid _ _ := 0
  proto body := body
  ends := Go.ends
  unbound := true

def start : Cur := ⟨0, [], 0, []⟩

/-- A pass under way. -/
structure Pass where
  cur : Cur
  seen : Finset MacConnKey
  newKeys : List MacConn

def scanLine (s : Pass) (line : Bytes) : Pass :=
  let (cur, conn) := scanReader.readLine s.cur line
  match conn with
  | none => { s with cur }
  | some conn =>
      if conn.key ∈ s.seen then { s with cur }
      else ⟨cur, insert conn.key s.seen, s.newKeys ++ [conn]⟩

/-- What is seen after a pass, and what the pass emits. -/
def scanConns (seen : Finset MacConnKey) (lines : List Bytes) : Finset MacConnKey × List MacConn :=
  let s := lines.foldl scanLine ⟨start, seen, []⟩
  (s.seen, s.newKeys)

def seedLine (s : Cur × Finset MacConnKey) (line : Bytes) : Cur × Finset MacConnKey :=
  let (cur, conn) := seedReader.readLine s.1 line
  match conn with
  | none => (cur, s.2)
  | some conn => (cur, insert conn.key s.2)

def seed (lines : List Bytes) : Finset MacConnKey := (lines.foldl seedLine (start, ∅)).2

/-- What the passes emit. -/
def scans : Finset MacConnKey → List (Option (List Bytes)) → List (List MacConn)
  | _, [] => []
  | seen, none :: passes => [] :: scans seen passes
  | seen, some lines :: passes =>
      let (seen, emitted) := scanConns seen lines
      emitted :: scans seen passes

/-- The loop of `Main`, after the seed. -/
def run (first : Option (List Bytes)) (passes : List (Option (List Bytes))) : List (List MacConn) :=
  scans (first.elim ∅ seed) passes

/-! ## A pass -/

variable {seen : Finset MacConnKey} {lines : List Bytes} {ps : List ProcRecord}

/-- A pass notes the sockets of its lines, and emits the ones that are new. -/
theorem scanLine_foldl (cur : Cur) (newKeys : List MacConn) :
    ∃ cur', lines.foldl scanLine ⟨cur, seen, newKeys⟩ =
      ⟨cur', noted MacConn.key seen (scanReader.sockets cur lines),
        newKeys ++ fresh MacConn.key seen (scanReader.sockets cur lines)⟩ := by
  induction lines generalizing cur seen newKeys with
  | nil =>
      refine ⟨cur, ?_⟩
      rw [Reader.sockets, noted_nil, fresh, List.append_nil]
      rfl
  | cons line lines ih =>
      rw [List.foldl_cons, sockets_cons, scanLine]
      generalize scanReader.readLine cur line = read
      obtain ⟨cur₁, conn⟩ := read
      cases conn with
      | none => exact ih cur₁ newKeys
      | some conn =>
          simp only [Option.toList_some, List.cons_append, List.nil_append, noted_cons]
          by_cases h : conn.key ∈ seen
          · rw [if_pos h, fresh_known h, Finset.insert_eq_of_mem h]
            exact ih cur₁ newKeys
          · obtain ⟨cur', hrest⟩ := ih cur₁ (newKeys ++ [conn])
            refine ⟨cur', ?_⟩
            rw [if_neg h, fresh_new h, hrest, List.append_assoc, List.singleton_append]

theorem scanConns_eq : scanConns seen lines =
    (noted MacConn.key seen (scanReader.sockets start lines),
      fresh MacConn.key seen (scanReader.sockets start lines)) := by
  obtain ⟨cur', hfold⟩ := scanLine_foldl start []
  rw [scanConns, hfold, List.nil_append]

theorem scanReader_plain (p : ProcRecord) : scanReader.Plain p := by
  refine ⟨fun old => ?_, fun _ _ _ _ => rfl⟩
  change (if (atoi p.pidText).2 then (atoi p.pidText).1 else old) = p.pid
  rw [p.pid_read, if_pos rfl]

theorem scanReader_uid (p : ProcRecord) : scanReader.uid 0 p.uidText = p.uid := by
  simp only [scanReader, p.uid_read, UInt32.ofNat_toNat]

theorem sockets_scanReader :
    scanReader.sockets start (transcript ps) = (conns ps).filter MacConn.bound := by
  rw [sockets_transcript (fun p _ => scanReader_plain p), conns, List.filter_flatMap]
  refine congrArg (List.flatMap · ps) (funext fun p => ?_)
  rw [ProcRecord.sockets, List.filter_filterMap]
  exact congrArg (List.filterMap · p.fds)
    (funext fun f => socket_eq_conn (fun _ => rfl) rfl (scanReader_uid p) rfl)

/-- A pass takes every socket that has a port, with the values of its own records, and emits the
ones that are new. The ends are those that the name encodes. -/
theorem scanConns_transcript (seen : Finset MacConnKey) (ps : List ProcRecord) :
    scanConns seen (transcript ps) =
        (noted MacConn.key seen ((conns ps).filter MacConn.bound),
          fresh MacConn.key seen ((conns ps).filter MacConn.bound))
      ∧ ∀ src dst, Go.ends (nameText src dst) =
        ((src.addr, src.portNumber), dst.elim ([], 0) fun dst => (dst.addr, dst.portNumber)) := by
  refine ⟨?_, ends_nameText⟩
  rw [scanConns_eq, sockets_scanReader]

/-! ## A run -/

theorem seedLine_foldl (cur : Cur) :
    (lines.foldl seedLine (cur, seen)).2 =
      noted MacConn.key seen (seedReader.sockets cur lines) := by
  induction lines generalizing cur seen with
  | nil =>
      rw [Reader.sockets, noted_nil]
      rfl
  | cons line lines ih =>
      rw [List.foldl_cons, sockets_cons, seedLine]
      generalize seedReader.readLine cur line = read
      obtain ⟨cur₁, conn⟩ := read
      cases conn with
      | none => exact ih cur₁
      | some conn =>
          rw [Option.toList_some, List.singleton_append, noted_cons]
          exact ih cur₁

theorem seedReader_plain (p : ProcRecord) : seedReader.Plain p := by
  refine ⟨fun old => ?_, fun _ _ _ _ => rfl⟩
  change (atoi p.pidText).1 = p.pid
  rw [p.pid_read]

/-- The seed has the keys of all sockets of the records, also those without a port. -/
theorem seed_transcript : seed (transcript ps) = ((conns ps).map MacConn.key).toFinset := by
  have hkeys : (seedReader.sockets start (transcript ps)).map MacConn.key =
      (conns ps).map MacConn.key := by
    rw [sockets_transcript (fun p _ => seedReader_plain p), conns, List.map_flatMap,
      List.map_flatMap]
    refine congrArg (List.flatMap · ps) (funext fun p => ?_)
    rw [ProcRecord.sockets, List.map_filterMap, List.map_filterMap]
    exact congrArg (List.filterMap · p.fds) (funext fun f => socket_key rfl rfl)
  rw [seed, seedLine_foldl, noted, Finset.empty_union, hkeys]

/-- The sockets that a pass is about. -/
def connsOf (pass : Option (List ProcRecord)) : List MacConn :=
  (pass.elim [] conns).filter MacConn.bound

theorem scans_cons (pass : Option (List ProcRecord)) (passes : List (Option (List Bytes))) :
    scans seen (pass.map transcript :: passes) =
      fresh MacConn.key seen (connsOf pass)
        :: scans (noted MacConn.key seen (connsOf pass)) passes := by
  cases pass with
  | none =>
      have hconns : connsOf none = [] := rfl
      rw [hconns, noted_nil]
      rfl
  | some ps =>
      rw [Option.map_some, scans, scanConns_eq, sockets_scanReader]
      rfl

theorem length_scans (passes : List (Option (List Bytes))) :
    (scans seen passes).length = passes.length := by
  induction passes generalizing seen with
  | nil => rfl
  | cons pass passes ih =>
      cases pass with
      | none => exact congrArg (· + 1) ih
      | some lines => exact congrArg (· + 1) ih

theorem zip_scans (passes : List (Option (List ProcRecord))) :
    (passes.map connsOf).zip (scans seen (passes.map (Option.map transcript))) =
      rounds MacConn.key seen (passes.map connsOf) := by
  induction passes generalizing seen with
  | nil => rfl
  | cons pass passes ih =>
      rw [List.map_cons, List.map_cons, scans_cons, List.zip_cons_cons, rounds, ih]

/-- A run emits every connection once, in the first pass it is in, and none that the first
transcript has. -/
theorem run_transcripts (first : Option (List ProcRecord))
    (passes : List (Option (List ProcRecord))) :
    (run (first.map transcript) (passes.map (Option.map transcript))).length = passes.length
      ∧ ReportsNew MacConn.key ((first.elim [] conns).map MacConn.key).toFinset
        ((passes.map connsOf).zip
          (run (first.map transcript) (passes.map (Option.map transcript))))
      ∧ ((run (first.map transcript) (passes.map (Option.map transcript))).flatten.map
        MacConn.key).Nodup := by
  have hseed : (first.map transcript).elim ∅ seed =
      ((first.elim [] conns).map MacConn.key).toFinset := by
    cases first with
    | none => rfl
    | some ps => exact seed_transcript
  have hnew : ReportsNew MacConn.key ((first.elim [] conns).map MacConn.key).toFinset
      ((passes.map connsOf).zip
        (run (first.map transcript) (passes.map (Option.map transcript)))) := by
    rw [run, hseed, zip_scans]
    exact reportsNew_rounds
  have hlength : (run (first.map transcript) (passes.map (Option.map transcript))).length =
      passes.length := by
    rw [run, length_scans, List.length_map]
  refine ⟨hlength, hnew, ?_⟩
  have hle : (run (first.map transcript) (passes.map (Option.map transcript))).length ≤
      (passes.map connsOf).length := by
    rw [hlength, List.length_map]
  have honce := hnew.once.1
  rw [← List.flatMap_map, List.map_snd_zip hle, List.flatMap_def, ← List.map_flatten] at honce
  exact honce

end Tracep.Nettrace.Darwin.Go
