import Tracep.Lib.Outputs
import Tracep.Lib.ProbingSet
import Tracep.Lib.SlotCache
import Tracep.Tlstrace.Line

/-!
# Events of the TLS tracer

An event with a server name stores the name for its process and prints
nothing. Any other event is printed if its process has not talked to its host
before, where the host is the name stored last, or else what a lookup gives.

The Go code keeps names and hosts in maps, and prints what it should
(`Go.run_eq`). The C port keeps the names in a cache of `1024` slots and the
hosts in a hash table of `4096`. It prints the same exactly where every event
finds the name of its process in the cache, or not finding it makes no difference
to what is printed, and no pair of process and host comes again that is
not among the first `4096` (`printEvents_agree_iff`). With fewer processes and
pairs it always does (`run_eq_of_few`).
-/

namespace Tracep.Tlstrace

open Outputs Probing

/-- An event, and what a lookup of the host in `/proc/<pid>/net` gives for it. -/
structure Input where
  ev : TlsEvent
  answer : Bytes
  answer_lt : answer.length < 300

/-- `"%d|%s"`. -/
def connKey (conn : Nat × Bytes) : Bytes := digits 10 conn.1 ++ 124 :: conn.2

/-! ## The code -/

namespace Go

/-- The map gives the empty text for a process without a name. -/
abbrev SniCache := Nat → Bytes

def setSNI (sniCache : SniCache) (pid : Nat) (host : Bytes) : SniCache :=
  Function.update sniCache pid host

def getSNI (sniCache : SniCache) (pid : Nat) : Bytes := sniCache pid

def remoteHost (sniCache : SniCache) (x : Input) : Bytes :=
  let sni := getSNI sniCache x.ev.pid
  if sni ≠ [] then sni else x.answer

structure State where
  sniCache : SniCache
  connSeen : Finset Bytes
  counter : Nat

def start : State := ⟨fun _ => [], ∅, 0⟩

variable (colorMode : Bool)

def printEvent (s : State) (x : Input) : State × Option Bytes :=
  if x.ev.dir = .sni then
    if x.ev.sni ≠ [] then ({ s with sniCache := setSNI s.sniCache x.ev.pid x.ev.sni }, none)
    else (s, none)
  else
    let host := remoteHost s.sniCache x
    let key := connKey (x.ev.pid, host)
    if key ∈ s.connSeen then (s, none)
    else
      ({ s with connSeen := insert key s.connSeen, counter := s.counter + 1 },
        some (line colorMode x.ev host))

/-- What is printed for each event. -/
def run : List Input → List (Option Bytes) := Outputs.run (printEvent colorMode) start

end Go

namespace C

/-- `sni_cache`, of `MAX_SNI` slots. -/
abbrev SniCache := SlotCache.Cache Nat Bytes 1024

/-- `pid % MAX_SNI`. -/
def overflowSlot (pid : Nat) : Fin 1024 := ⟨pid % 1024, Nat.mod_lt pid (Nat.succ_pos 1023)⟩

def setSni (sniCache : SniCache) (pid : Nat) (host : Bytes) : SniCache :=
  SlotCache.put overflowSlot sniCache pid (host.take 255)

def getSni (sniCache : SniCache) (pid : Nat) : Bytes := (SlotCache.get sniCache pid).getD []

def remoteHost (sniCache : SniCache) (x : Input) : Bytes :=
  let sni := getSni sniCache x.ev.pid
  if sni ≠ [] then sni.take 299 else x.answer

/-- The hash of `conn_mark`. -/
def connHash (key : Bytes) : UInt32 := key.foldl (fun h b => h * 33 + b.toUInt32) 5381

/-- `conn_seen`, of `MAX_CONN` slots. -/
def connSeen : Scheme Bytes Unit 4096 where
  hash key := ⟨(connHash key).toNat % 4096, Nat.mod_lt _ (Nat.succ_pos 4095)⟩
  fresh := ()
  clear := id

/-- `conn_mark`: a full table treats what it does not hold as new. -/
def connMark (t : Table Bytes Unit 4096) (key : Bytes) : Table Bytes Unit 4096 × Bool :=
  connSeen.mark true t key

structure State where
  sniCache : SniCache
  connSeen : Table Bytes Unit 4096
  counter : Nat

def start : State := ⟨SlotCache.empty, .empty [] (), 0⟩

variable (colorMode : Bool)

def printEvent (s : State) (x : Input) : State × Option Bytes :=
  if x.ev.dir = .sni then
    if x.ev.sni ≠ [] then ({ s with sniCache := setSni s.sniCache x.ev.pid x.ev.sni }, none)
    else (s, none)
  else
    let host := remoteHost s.sniCache x
    let (connSeen, seen) := connMark s.connSeen ((connKey (x.ev.pid, host)).take 319)
    if seen then ({ s with connSeen }, none)
    else ({ s with connSeen, counter := s.counter + 1 }, some (line colorMode x.ev host))

def run : List Input → List (Option Bytes) := Outputs.run (printEvent colorMode) start

end C

/-! ## What should be printed -/

/-- The process and the name of an event that stores one. -/
def nameOf (x : Input) : Option (Nat × Bytes) :=
  if x.ev.dir = .sni ∧ x.ev.sni ≠ [] then some (x.ev.pid, x.ev.sni) else none

def names (xs : List Input) : List (Nat × Bytes) := xs.filterMap nameOf

/-- The name stored last for a process. -/
def latestName (pre : List Input) (pid : Nat) : Option Bytes :=
  SlotCache.latest (fun _ => none) (names pre) pid

/-- The host of an event after others. -/
def hostOf (pre : List Input) (x : Input) : Bytes := (latestName pre x.ev.pid).getD x.answer

/-- The process and the host of an event that has one. -/
def connOf (pre : List Input) (x : Input) : Option (Nat × Bytes) :=
  if x.ev.dir = .sni then none else some (x.ev.pid, hostOf pre x)

def connsOf (xs : List Input) : List (Nat × Bytes) := (byHistory connOf xs).filterMap id

/-- The line for an event: none if it stores a name, or if the process and the host have come
before. -/
def expected (colorMode : Bool) (pre : List Input) (x : Input) : Option Bytes :=
  (connOf pre x).bind fun conn =>
    if conn ∈ connsOf pre then none else some (Go.line colorMode x.ev conn.2)

variable {pre post : List Input} {x : Input} {pid : Nat} {host : Bytes}

theorem names_append : names (pre ++ post) = names pre ++ names post := List.filterMap_append

theorem names_snoc : names (pre ++ [x]) = names pre ++ (nameOf x).toList := by
  rw [names_append, names, names]
  cases h : nameOf x with
  | none =>
      rw [List.filterMap_cons_none h]
      rfl
  | some e =>
      rw [List.filterMap_cons_some h]
      rfl

theorem connsOf_snoc : connsOf (pre ++ [x]) = connsOf pre ++ (connOf pre x).toList := by
  rw [connsOf, byHistory_snoc, List.filterMap_append, connsOf]
  cases connOf pre x with
  | none => rfl
  | some conn => rfl

theorem connsOf_subset : connsOf pre ⊆ connsOf (pre ++ post) := by
  induction post using List.reverseRecOn with
  | nil =>
      rw [List.append_nil]
      exact List.Subset.refl _
  | append_singleton post x ih =>
      rw [← List.append_assoc, connsOf_snoc]
      exact List.subset_append_of_subset_left _ ih

theorem connOf_sni (h : x.ev.dir = .sni) : connOf pre x = none := if_pos h

theorem connsOf_snoc_sni (h : x.ev.dir = .sni) : connsOf (pre ++ [x]) = connsOf pre := by
  rw [connsOf_snoc, connOf_sni h, Option.toList_none, List.append_nil]

theorem expected_sni (colorMode : Bool) (h : x.ev.dir = .sni) :
    expected colorMode pre x = none := by
  rw [expected, connOf_sni h, Option.bind_none]

theorem connOf_some (h : x.ev.dir ≠ .sni) : connOf pre x = some (x.ev.pid, hostOf pre x) :=
  if_neg h

theorem connsOf_snoc_some (h : x.ev.dir ≠ .sni) :
    connsOf (pre ++ [x]) = connsOf pre ++ [(x.ev.pid, hostOf pre x)] := by
  rw [connsOf_snoc, connOf_some h, Option.toList_some]

theorem expected_some (colorMode : Bool) (h : x.ev.dir ≠ .sni) : expected colorMode pre x =
    if (x.ev.pid, hostOf pre x) ∈ connsOf pre then none
    else some (Go.line colorMode x.ev (hostOf pre x)) := by
  rw [expected, connOf_some h, Option.bind_some]

theorem nameOf_none (h : x.ev.dir ≠ .sni) : nameOf x = none := if_neg fun hset => h hset.1

/-- No empty name is stored, and none that is too long. -/
theorem of_mem_names (h : (pid, host) ∈ names pre) : host ≠ [] ∧ host.length ≤ 255 := by
  obtain ⟨x, -, hx⟩ := List.mem_filterMap.mp h
  obtain ⟨⟨-, hne⟩, he⟩ := Option.ite_none_right_eq_some.mp hx
  obtain ⟨rfl, rfl⟩ := Prod.mk.inj (Option.some.inj he)
  exact ⟨hne, Nat.le_of_lt_succ x.ev.sni_lt⟩

theorem latestName_snoc_some (h : nameOf x = some (pid, host)) :
    latestName (pre ++ [x]) = Function.update (latestName pre) pid (some host) := by
  funext p
  rw [latestName, names_snoc, h, SlotCache.latest, List.foldl_append]
  rfl

theorem latestName_snoc_none (h : nameOf x = none) : latestName (pre ++ [x]) = latestName pre := by
  funext p
  rw [latestName, names_snoc, h, Option.toList_none, List.append_nil, latestName]

theorem of_latestName (h : latestName pre pid = some host) :
    host ≠ [] ∧ host.length ≤ 255 := by
  rcases SlotCache.mem_of_latest h with hnone | hmem
  · cases hnone
  · exact of_mem_names hmem

theorem length_connKey :
    (connKey (pid, host)).length = (digits 10 pid).length + host.length + 1 := by
  rw [connKey, List.length_append, List.length_cons, Nat.add_assoc]

theorem connKey_injective : Function.Injective connKey := by
  rintro ⟨pid, host⟩ ⟨pid', host'⟩ h
  have hpid : ∀ pid host,
      (connKey (pid, host)).takeWhile (fun b => b ≠ 124) = digits 10 pid := by
    intro pid host
    rw [connKey, List.takeWhile_append_of_pos]
    · simp
    · intro b hb
      refine decide_eq_true ?_
      rintro rfl
      exact Strconv.not_mem_digits (by decide) pid hb
  have hdigits : digits 10 pid = digits 10 pid' := by rw [← hpid pid host, h, hpid]
  rw [connKey, connKey, hdigits, List.append_cancel_left_eq, List.cons_inj_right] at h
  exact Prod.ext (Strconv.digits_injective hdigits) h

/-! ## The Go code -/

namespace Go

variable {colorMode : Bool}

/-- What the maps are after some events. -/
structure Kept (s : State) (pre : List Input) : Prop where
  names : ∀ pid, s.sniCache pid = (latestName pre pid).getD []
  conns : ∀ conn, connKey conn ∈ s.connSeen ↔ conn ∈ connsOf pre

theorem remoteHost_eq {s : State} (h : Kept s pre) : remoteHost s.sniCache x = hostOf pre x := by
  rw [remoteHost, getSNI, h.names, hostOf]
  cases hname : latestName pre x.ev.pid with
  | none => exact if_neg fun h => h rfl
  | some name => exact if_pos (of_latestName hname).1

theorem printEvent_spec {s : State} (h : Kept s pre) :
    (printEvent colorMode s x).2 = expected colorMode pre x
      ∧ Kept (printEvent colorMode s x).1 (pre ++ [x]) := by
  unfold printEvent
  by_cases hdir : x.ev.dir = .sni
  · have hconns : connsOf (pre ++ [x]) = connsOf pre := connsOf_snoc_sni hdir
    rw [if_pos hdir, expected_sni colorMode hdir]
    by_cases hsni : x.ev.sni ≠ []
    · rw [if_pos hsni]
      refine ⟨rfl, fun pid => ?_, hconns ▸ h.conns⟩
      rw [latestName_snoc_some (if_pos ⟨hdir, hsni⟩)]
      change Function.update s.sniCache x.ev.pid x.ev.sni pid = _
      by_cases hpid : pid = x.ev.pid
      · rw [hpid, Function.update_self, Function.update_self, Option.getD_some]
      · rw [Function.update_of_ne hpid, Function.update_of_ne hpid, h.names]
    · rw [if_neg hsni]
      refine ⟨rfl, fun pid => ?_, hconns ▸ h.conns⟩
      rw [latestName_snoc_none (if_neg fun hset => hsni hset.2), h.names]
  · have hnames : latestName (pre ++ [x]) = latestName pre :=
      latestName_snoc_none (nameOf_none hdir)
    rw [if_neg hdir, expected_some colorMode hdir, remoteHost_eq h]
    simp only [h.conns]
    by_cases hconn : (x.ev.pid, hostOf pre x) ∈ connsOf pre
    · rw [if_pos hconn, if_pos hconn]
      refine ⟨rfl, hnames ▸ h.names, fun conn => ?_⟩
      rw [connsOf_snoc_some hdir, h.conns, List.mem_append, List.mem_singleton]
      exact (or_iff_left_of_imp fun heq => heq ▸ hconn).symm
    · rw [if_neg hconn, if_neg hconn]
      refine ⟨rfl, hnames ▸ h.names, fun conn => ?_⟩
      rw [connsOf_snoc_some hdir, Finset.mem_insert, connKey_injective.eq_iff, h.conns,
        List.mem_append, List.mem_singleton, or_comm]

theorem kept_stateAfter : Kept (stateAfter (printEvent colorMode) start pre) pre := by
  induction pre using List.reverseRecOn with
  | nil => exact ⟨fun _ => rfl, fun _ => iff_of_false (Finset.notMem_empty _) List.not_mem_nil⟩
  | append_singleton pre x ih =>
      rw [stateAfter_snoc]
      exact (printEvent_spec ih).2

/-- The Go code prints what it should. -/
theorem run_eq (inputs : List Input) :
    run colorMode inputs = byHistory (expected colorMode) inputs :=
  run_eq_byHistory.mpr fun _ _ _ _ => (printEvent_spec kept_stateAfter).1

end Go

/-! ## The C port -/

namespace C

variable {colorMode : Bool}

/-- `sni_cache` after some events. -/
def cacheAfter (pre : List Input) : SniCache :=
  (names pre).foldl (fun c e => setSni c e.1 e.2) SlotCache.empty

/-- The host that the C port takes for an event. -/
def hostAfter (pre : List Input) (x : Input) : Bytes := remoteHost (cacheAfter pre) x

/-- The cache has the name of the process, or not having it the event is not printed with either
host; and the pair of process and host, if it comes again, is one that the table had room for. -/
structure Fits (pre : List Input) (x : Input) : Prop where
  host : hostAfter pre x = hostOf pre x
    ∨ (x.ev.pid, hostOf pre x) ∈ connsOf pre ∧ (x.ev.pid, hostAfter pre x) ∈ connsOf pre
  conn : (x.ev.pid, hostAfter pre x) ∈ connsOf pre →
    (x.ev.pid, hostAfter pre x) ∈ heldWithin id 4096 ∅ (connsOf pre)

/-- What the cache and the table are after some events. -/
structure Kept (s : State) (pre : List Input) : Prop where
  names : s.sniCache = cacheAfter pre
  conns : connSeen.HoldsSet s.connSeen ((heldWithin id 4096 ∅ (connsOf pre)).image connKey)

theorem cacheAfter_snoc_some (h : nameOf x = some (pid, host)) :
    cacheAfter (pre ++ [x]) = setSni (cacheAfter pre) pid host := by
  rw [cacheAfter, names_snoc, h, List.foldl_append, cacheAfter, Option.toList_some,
    List.foldl_cons, List.foldl_nil]

theorem cacheAfter_snoc_none (h : nameOf x = none) : cacheAfter (pre ++ [x]) = cacheAfter pre := by
  rw [cacheAfter, names_snoc, h, Option.toList_none, List.append_nil, cacheAfter]

theorem mem_connsOf_of_held {conn : Nat × Bytes}
    (h : conn ∈ heldWithin id 4096 ∅ (connsOf pre)) : conn ∈ connsOf pre := by
  have hmem : conn ∈ noted id ∅ (connsOf pre) := heldWithin_subset h
  rw [mem_noted, List.map_id] at hmem
  exact hmem.resolve_left (Finset.notMem_empty conn)

theorem length_hostAfter (pre : List Input) (x : Input) : (hostAfter pre x).length < 300 := by
  unfold hostAfter remoteHost
  simp only []
  split
  · exact (List.length_take_le ..).trans_lt (by decide)
  · exact x.answer_lt

/-- The key fits into its buffer. -/
theorem take_connKey :
    (connKey (x.ev.pid, hostAfter pre x)).take 319 = connKey (x.ev.pid, hostAfter pre x) := by
  refine List.take_of_length_le ?_
  have hpid : (digits 10 x.ev.pid).length ≤ 10 :=
    Strconv.length_digits_le (by decide) (x.ev.pid_lt.trans (by decide))
  have hhost := length_hostAfter pre x
  rw [length_connKey]
  omega

section Mark

variable {s : State} {conn : Nat × Bytes}

theorem connMark_held (h : Kept s pre) : connSeen.HoldsSet (connMark s.connSeen (connKey conn)).1
    ((hold 4096 (heldWithin id 4096 ∅ (connsOf pre)) conn).image connKey) := by
  rw [← hold_image connKey_injective]
  exact h.conns.mark_held

theorem connMark_iff (h : Kept s pre) : (connMark s.connSeen (connKey conn)).2 = true ↔
    conn ∈ heldWithin id 4096 ∅ (connsOf pre) := by
  have hnew : (connMark s.connSeen (connKey conn)).2 = false ↔ _ := h.conns.mark
  rw [connKey_injective.mem_finset_image, and_iff_left (Or.inr rfl)] at hnew
  rw [← Bool.not_eq_false, hnew, not_not]

/-- What is printed for an event that stores no name. -/
theorem printEvent_out (colorMode : Bool) (h : Kept s pre) (hdir : x.ev.dir ≠ .sni) :
    (printEvent colorMode s x).2 =
      (if (x.ev.pid, hostAfter pre x) ∈ heldWithin id 4096 ∅ (connsOf pre) then none
        else some (Go.line colorMode x.ev (hostAfter pre x)))
      ∧ (printEvent colorMode s x).1.sniCache = s.sniCache
      ∧ (printEvent colorMode s x).1.connSeen =
        (connMark s.connSeen (connKey (x.ev.pid, hostAfter pre x))).1 := by
  have hhost : remoteHost s.sniCache x = hostAfter pre x := by rw [h.names, hostAfter]
  unfold printEvent
  rw [if_neg hdir, hhost]
  simp only [take_connKey, ← line_eq (length_hostAfter pre x), ← connMark_iff h]
  split
  · exact ⟨rfl, rfl, rfl⟩
  · exact ⟨rfl, rfl, rfl⟩

end Mark

/-- The line that is printed is the one that should be where the event fits. -/
theorem line_iff_fits (hdir : x.ev.dir ≠ .sni) :
    (if (x.ev.pid, hostAfter pre x) ∈ heldWithin id 4096 ∅ (connsOf pre) then none
      else some (Go.line colorMode x.ev (hostAfter pre x))) = expected colorMode pre x
      ↔ Fits pre x := by
  rw [expected_some colorMode hdir]
  by_cases hheld : (x.ev.pid, hostAfter pre x) ∈ heldWithin id 4096 ∅ (connsOf pre)
  · rw [if_pos hheld]
    constructor
    · intro heq
      have hconn : (x.ev.pid, hostOf pre x) ∈ connsOf pre := by
        by_contra hnew
        rw [if_neg hnew] at heq
        cases heq
      exact ⟨Or.inr ⟨hconn, mem_connsOf_of_held hheld⟩, fun _ => hheld⟩
    · intro hfits
      have hconn : (x.ev.pid, hostOf pre x) ∈ connsOf pre := by
        rcases hfits.host with hhost | hboth
        · exact hhost ▸ mem_connsOf_of_held hheld
        · exact hboth.1
      rw [if_pos hconn]
  · rw [if_neg hheld]
    constructor
    · intro heq
      have hnew : (x.ev.pid, hostOf pre x) ∉ connsOf pre := by
        intro hconn
        rw [if_pos hconn] at heq
        cases heq
      rw [if_neg hnew] at heq
      have hhost : hostAfter pre x = hostOf pre x := line_injective (Option.some.inj heq)
      exact ⟨Or.inl hhost, fun hconn => absurd (hhost ▸ hconn) hnew⟩
    · intro hfits
      have hnew := mt hfits.conn hheld
      have hhost := hfits.host.resolve_right fun hboth => hnew hboth.2
      rw [← hhost, if_neg hnew]

/-- After an event that fits the table holds what it had room for. -/
theorem hold_of_fits (hdir : x.ev.dir ≠ .sni) (hfits : Fits pre x) :
    hold 4096 (heldWithin id 4096 ∅ (connsOf pre)) (x.ev.pid, hostAfter pre x) =
      heldWithin id 4096 ∅ (connsOf (pre ++ [x])) := by
  have hlast : heldWithin id 4096 ∅ (connsOf (pre ++ [x])) =
      hold 4096 (heldWithin id 4096 ∅ (connsOf pre)) (x.ev.pid, hostOf pre x) := by
    rw [connsOf_snoc_some hdir, heldWithin_append]
    rfl
  rw [hlast]
  rcases hfits.host with hhost | ⟨hconn, hconn'⟩
  · rw [hhost]
  · -- neither pair is new, and so neither changes what is held
    have hnoted : (x.ev.pid, hostOf pre x) ∈ noted id ∅ (connsOf pre) := by
      rw [mem_noted, List.map_id]
      exact Or.inr hconn
    rw [hold_of_mem (hfits.conn hconn'), hold_of_noted (Nat.zero_le _) hnoted]

theorem printEvent_sni (colorMode : Bool) {s : State} (h : Kept s pre) (hdir : x.ev.dir = .sni) :
    (printEvent colorMode s x).2 = none ∧ Kept (printEvent colorMode s x).1 (pre ++ [x]) := by
  have hconns : connsOf (pre ++ [x]) = connsOf pre := connsOf_snoc_sni hdir
  rw [printEvent, if_pos hdir]
  by_cases hsni : x.ev.sni ≠ []
  · rw [if_pos hsni]
    refine ⟨rfl, ?_, hconns ▸ h.conns⟩
    rw [cacheAfter_snoc_some (if_pos ⟨hdir, hsni⟩), ← h.names]
  · rw [if_neg hsni]
    refine ⟨rfl, ?_, hconns ▸ h.conns⟩
    rw [cacheAfter_snoc_none (if_neg fun hset => hsni hset.2)]
    exact h.names

/-- An event is printed as it should be where it fits, and then the table has what it had room
for. -/
theorem printEvent_spec {s : State} (h : Kept s pre) :
    ((printEvent colorMode s x).2 = expected colorMode pre x ↔ (x.ev.dir ≠ .sni → Fits pre x))
      ∧ ((x.ev.dir ≠ .sni → Fits pre x) →
        Kept (printEvent colorMode s x).1 (pre ++ [x])) := by
  by_cases hdir : x.ev.dir = .sni
  · obtain ⟨hout, hkept⟩ := printEvent_sni colorMode h hdir
    rw [hout, expected_sni colorMode hdir]
    exact ⟨iff_of_true rfl fun hne => absurd hdir hne, fun _ => hkept⟩
  · obtain ⟨hout, hnames, hseen⟩ := printEvent_out colorMode h hdir
    rw [forall_prop_of_true hdir, hout]
    refine ⟨line_iff_fits hdir, fun hfits => ⟨?_, ?_⟩⟩
    · rw [hnames, h.names, cacheAfter_snoc_none (nameOf_none hdir)]
    · rw [hseen, ← hold_of_fits hdir hfits]
      exact connMark_held h

/-- A run is as it should be exactly where every event fits. -/
theorem run_spec (colorMode : Bool) (inputs : List Input) :
    (run colorMode inputs = byHistory (expected colorMode) inputs ↔
        AtEach (fun pre x => x.ev.dir ≠ .sni → Fits pre x) inputs)
      ∧ (AtEach (fun pre x => x.ev.dir ≠ .sni → Fits pre x) inputs →
        Kept (stateAfter (printEvent colorMode) start inputs) inputs) := by
  induction inputs using List.reverseRecOn with
  | nil => exact ⟨iff_of_true rfl atEach_nil, fun _ => ⟨rfl, Scheme.holdsSet_empty _⟩⟩
  | append_singleton xs x ih =>
      obtain ⟨hiff, hkept⟩ := ih
      rw [run, run_eq_byHistory] at hiff ⊢
      rw [atEach_snoc, atEach_snoc, hiff]
      constructor
      · refine and_congr_right fun hxs => ?_
        exact (printEvent_spec (hkept hxs)).1
      · rintro ⟨hxs, hx⟩
        rw [stateAfter_snoc]
        exact (printEvent_spec (hkept hxs)).2 hx

/-! ### Room for all -/

/-- While there are at most `1024` processes with a name the cache has the last of each. -/
theorem hostAfter_eq (h : ((names pre).map Prod.fst).toFinset.card ≤ 1024) :
    hostAfter pre x = hostOf pre x := by
  have hcache : cacheAfter pre = SlotCache.puts overflowSlot SlotCache.empty (names pre) := by
    refine List.foldl_ext _ _ _ fun c e he => ?_
    rw [setSni, List.take_of_length_le (of_mem_names he).2]
  have hholds : SlotCache.Holds (cacheAfter pre) (latestName pre) := by
    rw [hcache]
    refine SlotCache.holds_empty.puts (fun _ hk => absurd rfl hk) (fun e he => ?_) h
    exact List.mem_toFinset.mpr (List.mem_map_of_mem he)
  rw [hostAfter, remoteHost, getSni, hholds.get, hostOf]
  cases hname : latestName pre x.ev.pid with
  | none => exact if_neg fun h => h rfl
  | some name =>
      obtain ⟨hne, hlen⟩ := of_latestName hname
      rw [Option.getD_some, Option.getD_some, List.take_of_length_le (hlen.trans (by decide))]
      exact if_pos hne

theorem heldWithin_eq (h : (connsOf pre).toFinset.card ≤ 4096) :
    heldWithin id 4096 ∅ (connsOf pre) = (connsOf pre).toFinset := by
  have hroom : (noted id ∅ (connsOf pre)).card ≤ 4096 := by
    rwa [noted, Finset.empty_union, List.map_id]
  have hheld : freshWithin id 4096 false ∅ (connsOf pre) = _ ∧ _ := within_of_room hroom
  rw [hheld.2, noted, Finset.empty_union, List.map_id]

/-- With few processes and hosts the C port prints what it should. -/
theorem run_eq_of_few (colorMode : Bool) {inputs : List Input}
    (hnames : ((names inputs).map Prod.fst).toFinset.card ≤ 1024)
    (hconns : (connsOf inputs).toFinset.card ≤ 4096) :
    run colorMode inputs = byHistory (expected colorMode) inputs := by
  refine (run_spec colorMode inputs).1.mpr fun pre x post hsplit _ => ?_
  have hcard : ∀ {α : Type} [DecidableEq α] {l l' : List α}, l ⊆ l' →
      l.toFinset.card ≤ l'.toFinset.card := fun h =>
    Finset.card_le_card fun _ hk => List.mem_toFinset.mpr (h (List.mem_toFinset.mp hk))
  have hprenames : names pre ⊆ names inputs := by
    rw [hsplit, names_append]
    exact List.subset_append_left _ _
  have hpreconns : connsOf pre ⊆ connsOf inputs := by
    rw [hsplit]
    exact connsOf_subset
  have hhost : hostAfter pre x = hostOf pre x := by
    refine hostAfter_eq ((hcard ?_).trans hnames)
    exact List.map_subset Prod.fst hprenames
  have hfew := (hcard hpreconns).trans hconns
  refine ⟨Or.inl hhost, fun hconn => ?_⟩
  rw [heldWithin_eq hfew]
  exact List.mem_toFinset.mpr hconn

/-- The Go code prints what it should: nothing for a name, and a line for every process and host
the first time. The C port prints the same exactly where every event fits. -/
theorem printEvents_agree_iff (colorMode : Bool) (inputs : List Input) :
    Go.run colorMode inputs = byHistory (expected colorMode) inputs
      ∧ (run colorMode inputs = Go.run colorMode inputs ↔
        ∀ pre x post, inputs = pre ++ x :: post → x.ev.dir ≠ .sni → Fits pre x) := by
  refine ⟨Go.run_eq inputs, ?_⟩
  rw [Go.run_eq]
  exact (run_spec colorMode inputs).1

/-! ### A full table -/

/-- A read, by a process without a name, where the lookup finds nothing. -/
def readOf (pid : Fin (2 ^ 31)) : Input where
  ev :=
    { comm := [], pid, time := [], probeName := [], dir := .read, sni := []
      comm_lt := Nat.succ_pos 255
      pid_lt := pid.isLt
      time_lt := Nat.succ_pos 15
      probeName_lt := Nat.succ_pos 63
      sni_lt := Nat.succ_pos 255 }
  answer := []
  answer_lt := Nat.succ_pos 299

/-- Reads of as many processes. -/
def reads (n : Nat) : List Input := (List.range n).map fun i => readOf (Fin.ofNat (2 ^ 31) i)

theorem readOf_dir (pid : Fin (2 ^ 31)) : (readOf pid).ev.dir ≠ .sni := by
  intro hdir
  cases hdir

theorem names_reads (n : Nat) : names (reads n) = [] := by
  refine List.filterMap_eq_nil_iff.mpr fun x hx => ?_
  obtain ⟨i, -, rfl⟩ := List.mem_map.mp hx
  exact if_neg fun hset => readOf_dir _ hset.1

theorem hostOf_reads (n : Nat) (pid : Fin (2 ^ 31)) : hostOf (reads n) (readOf pid) = [] := by
  rw [hostOf, latestName, names_reads]
  rfl

theorem connOf_read (n : Nat) {i : Nat} (h : i < 2 ^ 31) :
    connOf (reads n) (readOf (Fin.ofNat (2 ^ 31) i)) = some (i, []) := by
  have hpid : (readOf (Fin.ofNat (2 ^ 31) i)).ev.pid = i := Nat.mod_eq_of_lt h
  rw [connOf_some (readOf_dir _), hostOf_reads, hpid]

theorem connsOf_reads {n : Nat} (h : n ≤ 2 ^ 31) :
    connsOf (reads n) = (List.range n).map fun i => (i, []) := by
  induction n with
  | zero => rfl
  | succ n ih =>
      have hreads : reads (n + 1) = reads n ++ [readOf (Fin.ofNat (2 ^ 31) n)] := by
        rw [reads, List.range_succ, List.map_append, List.map_singleton, reads]
      rw [hreads, connsOf_snoc, connOf_read n h, ih (by omega), List.range_succ, List.map_append]
      rfl

/-- The first of different pairs are held. -/
theorem heldWithin_range {k n : Nat} (h : k ≤ n) :
    heldWithin id k ∅ ((List.range n).map fun i => (i, ([] : Bytes))) =
      ((List.range k).map fun i => (i, ([] : Bytes))).toFinset := by
  obtain ⟨m, rfl⟩ := Nat.exists_eq_add_of_le h
  have hnodup : ((List.range k).map fun i => (i, ([] : Bytes))).Nodup := by
    refine List.Nodup.map (fun i j hij => ?_) List.nodup_range
    exact (Prod.mk.inj hij).1
  have hcard : (((List.range k).map fun i => (i, ([] : Bytes))).toFinset).card = k := by
    rw [List.toFinset_card_of_nodup hnodup, List.length_map, List.length_range]
  have hnoted : noted id ∅ ((List.range k).map fun i => (i, ([] : Bytes))) =
      ((List.range k).map fun i => (i, ([] : Bytes))).toFinset := by
    rw [noted, Finset.empty_union, List.map_id]
  have hroom : freshWithin id k false ∅ ((List.range k).map fun i => (i, ([] : Bytes))) = _
      ∧ _ := within_of_room (hnoted ▸ hcard.le)
  rw [List.range_add, List.map_append, heldWithin_append, hroom.2, hnoted, heldWithin_of_full]
  exact hcard.ge

/-- A process beyond the first `4096` is taken for new again. -/
theorem reread_not_fits {n : Nat} (hn : 4096 ≤ n) (h : n < 2 ^ 31) :
    ¬Fits (reads (n + 1)) (readOf (Fin.ofNat (2 ^ 31) n)) := by
  intro hfits
  have hpid : (readOf (Fin.ofNat (2 ^ 31) n)).ev.pid = n := Nat.mod_eq_of_lt h
  have hhost : hostAfter (reads (n + 1)) (readOf (Fin.ofNat (2 ^ 31) n)) = [] := by
    rw [hostAfter_eq, hostOf_reads]
    rw [names_reads]
    exact Nat.zero_le _
  have hmem : (n, []) ∈ (List.range (n + 1)).map fun i => (i, ([] : Bytes)) :=
    List.mem_map_of_mem (List.mem_range.mpr (Nat.lt_succ_self n))
  have hheld := hfits.conn
  rw [hpid, hhost, connsOf_reads h, heldWithin_range (by omega)] at hheld
  obtain ⟨i, hi, heq⟩ := List.mem_map.mp (List.mem_toFinset.mp (hheld hmem))
  have hin : i = n := (Prod.mk.inj heq).1
  have hlt := List.mem_range.mp hi
  omega

/-- The second read of the last process is printed again. -/
theorem rereads_differ : run false (reads 4097 ++ [readOf (Fin.ofNat (2 ^ 31) 4096)]) ≠
    Go.run false (reads 4097 ++ [readOf (Fin.ofNat (2 ^ 31) 4096)]) := by
  rw [Go.run_eq, Ne, (run_spec false _).1, atEach_snoc, not_and]
  intro _ hfits
  exact reread_not_fits (Nat.le_refl 4096) (by decide) (hfits (readOf_dir _))

end C

end Tracep.Tlstrace
