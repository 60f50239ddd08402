import Tracep.Lib.Machine
import Tracep.Lib.Store
import Tracep.Exectrace.PidDb
import Mathlib.Data.List.AList

/-!
# The scans of the macOS exec tracer

There are no events on macOS. `seedDB` notes the processes that are there at
the start, and `scan` compares each list of processes with those noted so
far: it examines the new ones, reports those under a watched process, and
drops the processes that are gone, reporting the ones it had reported.

`visits_spec`, `lookup_sweep` and `mem_sweep` say what the two halves of a
scan do, and `foundAt_iff` which new processes get a depth.
-/

namespace Tracep.Exectrace.Darwin

open Exec Asking Machine History
open Exectrace.C (MacEntry)

/-! ## Answers and events -/

structure BsdInfo where
  ppid : Int32
  uid : UInt32
  startSec : UInt64
  startUsec : UInt64
deriving Repr, DecidableEq

/-- What the tracer is told, by the number of questions asked before. -/
structure Sys where
  bsdInfo : Nat → Int32 → Option BsdInfo
  pidArgv : Nat → Int32 → List Bytes

/-- What `procListAllPIDs` and the clock tell a scan. -/
structure Tick where
  pids : Option (List Int32)
  now : Int
deriving Repr, DecidableEq

/-- A call of `emitExec` or `emitExit`. -/
inductive Event where
  | exec (pid : Int32) (ent : MacEntry)
  | exit (pid : Int32) (ent : MacEntry) (gone : Int)
deriving Repr, DecidableEq

def Event.pid : Event → Int32
  | .exec pid _ => pid
  | .exit pid _ _ => pid

def Event.execPid : Event → Option Int32
  | .exec pid _ => some pid
  | .exit _ _ _ => none

def Event.exitPid : Event → Option Int32
  | .exec _ _ => none
  | .exit pid _ _ => some pid

/-! ## Depth -/

section Depth

variable (succ : Int → Int) (roots : List Int32) (sys : Sys) (cached : Int32 → Option Int)

/-- `pidDepth` up to the call of itself, with the number of calls that are to add one. -/
def climbStep : Int32 × Nat → Asking ((Int32 × Nat) ⊕ (Int × Nat))
  | (pid, calls) =>
      if roots.contains pid then return .inr (0, calls)
      else do
        match ← observe fun now => sys.bsdInfo now pid with
        | none => return .inr (-1, calls)
        | some info =>
            if info.ppid = 0 ∨ info.ppid = pid then return .inr (-1, calls)
            else if roots.contains info.ppid then return .inr (0, calls)
            else
              match cached info.ppid with
              | some d =>
                  if 0 ≤ d then return .inr (d, calls + 1)
                  else return .inl (info.ppid, calls + 1)
              | none => return .inl (info.ppid, calls + 1)

/-- What a call makes of the depth of the parent. -/
def ascend (d : Int) : Int := if d < 0 then -1 else succ d

/-- The depth of a process under the nearest watched one, `-1` if there is none. -/
def pidDepth (pid : Int32) : Asking Int := do
  let (d, calls) ← Asking.loop (climbStep roots sys cached) (pid, 0)
  return (ascend succ)^[calls] d

/-- What a scan notes of a new process, and reports. -/
def examine (pid : Int32) : Asking (MacEntry × List Event) := do
  match ← observe fun now => sys.bsdInfo now pid with
  | none => return (⟨0, 0, 0, 0, none, -1⟩, [])
  | some info => do
      let d ← pidDepth succ roots sys cached pid
      let argv ← observe fun now => sys.pidArgv now pid
      let ent := ⟨info.ppid, info.uid, info.startSec, info.startUsec, argv.head?, d⟩
      return (ent, if 0 ≤ d then [.exec pid ent] else [])

end Depth

/-! ## The Go code -/

/-- `db`. The order of a Go map is not defined; here it is that of a list. -/
abbrev Db := AList fun _ : Int32 => MacEntry

namespace Go

def depths (db : Db) (pid : Int32) : Option Int := (db.lookup pid).map MacEntry.depth

def succ (d : Int) : Int := d + 1

section Scan

variable (roots : List Int32) (sys : Sys)

/-- `seedDB`, over the processes that are left. -/
def seedDB : Db → List Int32 → Asking Db
  | db, [] => return db
  | db, p :: pids => do
      match ← observe fun now => sys.bsdInfo now p with
      | none => seedDB db pids
      | some info => do
          let argv ← observe fun now => sys.pidArgv now p
          seedDB (db.insert p
            ⟨info.ppid, info.uid, info.startSec, info.startUsec, argv.head?, -1⟩) pids

/-- One iteration of the first loop of `scan`. -/
def visit (db : Db) (pid : Int32) : Asking (Db × List Event) :=
  if pid ∈ db then return (db, [])
  else do
    let (ent, execs) ← examine succ roots sys (depths db) pid
    return (db.insert pid ent, execs)

/-- The first loop of `scan`. -/
def visits : Db → List Int32 → Asking (Db × List Event)
  | db, [] => return (db, [])
  | db, pid :: pids => do
      let (db, execs) ← visit roots sys db pid
      let (db, rest) ← visits db pids
      return (db, execs ++ rest)

/-- The entries that are not in the list are deleted, and reported where they have a depth. -/
def sweep (db : Db) (pids : List Int32) (now : Int) : Db × List Event :=
  let gone := db.entries.filter fun e => !pids.contains e.1
  (gone.foldl (fun db e => db.erase e.1) db,
    gone.filterMap fun e => if 0 ≤ e.2.depth then some (.exit e.1 e.2 now) else none)

def scan (db : Db) (tick : Tick) : Asking (Db × List Event) :=
  match tick.pids with
  | none => return (db, [])
  | some pids => do
      let (db, execs) ← visits roots sys db pids
      let (db, exits) := sweep db pids tick.now
      return (db, execs ++ exits)

/-- The tracer: the processes at the start, then the ticks. -/
def run (seed : List Int32) (ticks : List Tick) :
    Asking (Db × List (Step Db Tick (List Event))) := do
  let db ← seedDB sys ∅ seed
  Machine.run (scan roots sys) db ticks

end Scan

variable {roots : List Int32} {sys : Sys} {db db' : Db} {pid p : Int32} {pids pre post : List Int32}
  {ent : MacEntry} {evs : List Event} {ev : Event} {now later : Nat} {gone : Int}

theorem mem_insert : p ∈ db.insert pid ent ↔ p = pid ∨ p ∈ db := AList.mem_insert db

/-! ### Examining a process -/

theorem examine_none {succ : Int → Int} {cached : Int32 → Option Int}
    (hnone : sys.bsdInfo now pid = none)
    (h : Gives (examine succ roots sys cached pid) now (ent, evs) later) :
    ent = ⟨0, 0, 0, 0, none, -1⟩ ∧ evs = [] := by
  obtain ⟨info, mid, hinfo, hrest⟩ := gives_bind.mp h
  obtain ⟨rfl, rfl⟩ := gives_observe.mp hinfo
  simp only [hnone] at hrest
  exact Prod.mk.inj (gives_pure.mp hrest).1

theorem examine_some {succ : Int → Int} {cached : Int32 → Option Int} {info : BsdInfo}
    (hsome : sys.bsdInfo now pid = some info)
    (h : Gives (examine succ roots sys cached pid) now (ent, evs) later) :
    ∃ mid, Gives (pidDepth succ roots sys cached pid) (now + 1) ent.depth mid
      ∧ evs = if 0 ≤ ent.depth then [.exec pid ent] else [] := by
  obtain ⟨answer, mid, hinfo, hrest⟩ := gives_bind.mp h
  obtain ⟨rfl, rfl⟩ := gives_observe.mp hinfo
  simp only [hsome] at hrest
  obtain ⟨d, mid, hdepth, hrest⟩ := gives_bind.mp hrest
  obtain ⟨argv, mid', -, hrest⟩ := gives_bind.mp hrest
  obtain ⟨rfl, rfl⟩ := Prod.mk.inj (gives_pure.mp hrest).1
  exact ⟨mid, hdepth, rfl⟩

/-- An exec is reported exactly where the entry has a depth. -/
theorem examine_execs {succ : Int → Int} {cached : Int32 → Option Int}
    (h : Gives (examine succ roots sys cached pid) now (ent, evs) later) :
    evs = if 0 ≤ ent.depth then [.exec pid ent] else [] := by
  cases hinfo : sys.bsdInfo now pid with
  | none =>
      obtain ⟨rfl, rfl⟩ := examine_none hinfo h
      rfl
  | some info =>
      obtain ⟨mid, -, hevs⟩ := examine_some hinfo h
      exact hevs

/-! ### The first loop -/

theorem gives_visit_of_mem (hmem : pid ∈ db) :
    Gives (visit roots sys db pid) now (db', evs) later ↔ db' = db ∧ evs = [] ∧ later = now := by
  rw [visit, if_pos hmem, gives_pure, Prod.mk.injEq, and_assoc]

theorem gives_visit_of_new (hnew : pid ∉ db) :
    Gives (visit roots sys db pid) now (db', evs) later ↔
      ∃ ent, Gives (examine succ roots sys (depths db) pid) now (ent, evs) later
        ∧ db' = db.insert pid ent := by
  rw [visit, if_neg hnew, gives_bind]
  constructor
  · rintro ⟨⟨ent, execs⟩, mid, hent, hrest⟩
    obtain ⟨heq, rfl⟩ := gives_pure.mp hrest
    obtain ⟨rfl, rfl⟩ := Prod.mk.inj heq
    exact ⟨ent, hent, rfl⟩
  · rintro ⟨ent, hent, rfl⟩
    exact ⟨(ent, evs), later, hent, gives_pure.mpr ⟨rfl, rfl⟩⟩

theorem gives_visits_cons : Gives (visits roots sys db (pid :: pids)) now (db', evs) later ↔
    ∃ db₁ execs mid rest, Gives (visit roots sys db pid) now (db₁, execs) mid
      ∧ Gives (visits roots sys db₁ pids) mid (db', rest) later ∧ evs = execs ++ rest := by
  simp only [visits, gives_bind, gives_pure, Prod.exists, Prod.mk.injEq]
  constructor
  · rintro ⟨db₁, execs, mid, hvisit, _, rest, _, hrest, ⟨rfl, rfl⟩, rfl⟩
    exact ⟨db₁, execs, mid, rest, hvisit, hrest, rfl⟩
  · rintro ⟨db₁, execs, mid, rest, hvisit, hrest, rfl⟩
    exact ⟨db₁, execs, mid, hvisit, db', rest, later, hrest, ⟨rfl, rfl⟩, rfl⟩

theorem gives_visits_append : Gives (visits roots sys db (pre ++ post)) now (db', evs) later ↔
    ∃ db₁ execs mid rest, Gives (visits roots sys db pre) now (db₁, execs) mid
      ∧ Gives (visits roots sys db₁ post) mid (db', rest) later ∧ evs = execs ++ rest := by
  induction pre generalizing db now evs with
  | nil =>
      simp only [List.nil_append, visits, gives_pure, Prod.mk.injEq]
      constructor
      · intro h
        exact ⟨db, [], now, evs, ⟨⟨rfl, rfl⟩, rfl⟩, h, rfl⟩
      · rintro ⟨_, _, _, rest, ⟨⟨rfl, rfl⟩, rfl⟩, h, rfl⟩
        exact h
  | cons p pre ih =>
      simp only [List.cons_append, gives_visits_cons, ih]
      constructor
      · rintro ⟨db₁, execs, mid, _, hp, ⟨db₂, execs', mid', rest, hpre, hpost, rfl⟩, rfl⟩
        exact ⟨db₂, execs ++ execs', mid', rest, ⟨db₁, execs, mid, execs', hp, hpre, rfl⟩, hpost,
          (List.append_assoc execs execs' rest).symm⟩
      · rintro ⟨db₂, _, mid', rest, ⟨db₁, execs, mid, execs', hp, hpre, rfl⟩, hpost, rfl⟩
        exact ⟨db₁, execs, mid, execs' ++ rest, hp, ⟨db₂, execs', mid', rest, hpre, hpost, rfl⟩,
          List.append_assoc execs execs' rest⟩

/-- What the first loop of a scan leaves, and reports. -/
structure Visited (db db' : Db) (pids : List Int32) (evs : List Event) : Prop where
  keys : ∀ p, p ∈ db' ↔ p ∈ db ∨ p ∈ pids
  kept : ∀ p ∈ db, db'.lookup p = db.lookup p
  execs : ∀ ev, ev ∈ evs ↔
    ∃ p ent, ev = .exec p ent ∧ p ∉ db ∧ db'.lookup p = some ent ∧ 0 ≤ ent.depth
  once : (evs.map Event.pid).Nodup

theorem visited_nil : Visited db db [] [] := by
  refine ⟨fun p => ?_, fun p _ => rfl, fun ev => ?_, List.nodup_nil⟩
  · simp only [List.not_mem_nil, or_false]
  · refine iff_of_false List.not_mem_nil ?_
    rintro ⟨p, ent, -, hnew, hent, -⟩
    exact hnew (AList.lookup_isSome.mp (Option.isSome_of_mem hent))

/-- A process that is known is passed over. -/
theorem Visited.known (hpid : pid ∈ db) (h : Visited db db' pids evs) :
    Visited db db' (pid :: pids) evs := by
  refine ⟨fun p => ?_, h.kept, h.execs, h.once⟩
  rw [h.keys, List.mem_cons]
  constructor
  · exact Or.imp_right Or.inr
  · rintro (hp | rfl | hp)
    · exact Or.inl hp
    · exact Or.inl hpid
    · exact Or.inr hp

/-- A new one has its entry before the others. -/
theorem Visited.new (hpid : pid ∉ db) (h : Visited (db.insert pid ent) db' pids evs) :
    Visited db db' (pid :: pids) ((if 0 ≤ ent.depth then [.exec pid ent] else []) ++ evs) := by
  have hself : db'.lookup pid = some ent := by
    rw [h.kept pid (mem_insert.mpr (Or.inl rfl)),
      AList.lookup_insert]
  have hother : ∀ {p}, p ∈ db → p ≠ pid := fun hp heq => hpid (heq ▸ hp)
  have hold : ∀ ev ∈ evs, ev.pid ≠ pid := by
    intro ev hev heq
    obtain ⟨p, e, rfl, hnew, -, -⟩ := (h.execs ev).mp hev
    exact hnew (mem_insert.mpr (Or.inl heq))
  refine ⟨fun p => ?_, fun p hp => ?_, fun ev => ?_, ?_⟩
  · rw [h.keys, mem_insert, List.mem_cons, or_assoc, or_left_comm]
  · rw [h.kept p (mem_insert.mpr (Or.inr hp)),
      AList.lookup_insert_ne (hother hp)]
  · rw [List.mem_append, h.execs]
    constructor
    · rintro (hev | ⟨p, e, rfl, hnew, he, hd⟩)
      · split at hev
        · next hd =>
            obtain rfl := List.mem_singleton.mp hev
            exact ⟨pid, ent, rfl, hpid, hself, hd⟩
        · cases hev
      · exact ⟨p, e, rfl, fun hp => hnew (mem_insert.mpr (Or.inr hp)), he, hd⟩
    · rintro ⟨p, e, rfl, hnew, he, hd⟩
      by_cases hp : p = pid
      · subst hp
        obtain rfl : ent = e := Option.some.inj (hself.symm.trans he)
        rw [if_pos hd]
        exact Or.inl (List.mem_singleton_self _)
      · refine Or.inr ⟨p, e, rfl, fun hmem => ?_, he, hd⟩
        exact (mem_insert.mp hmem).elim hp hnew
  · split
    · refine List.nodup_cons.mpr ⟨?_, h.once⟩
      intro hmem
      obtain ⟨ev, hev, hpev⟩ := List.mem_map.mp hmem
      exact hold ev hev hpev
    · exact h.once

theorem visits_spec (h : Gives (visits roots sys db pids) now (db', evs) later) :
    Visited db db' pids evs := by
  induction pids generalizing db now evs with
  | nil =>
      obtain ⟨heq, -⟩ := gives_pure.mp h
      obtain ⟨rfl, rfl⟩ := Prod.mk.inj heq
      exact visited_nil
  | cons pid pids ih =>
      obtain ⟨db₁, execs, mid, rest, hpid, hpids, rfl⟩ := gives_visits_cons.mp h
      by_cases hmem : pid ∈ db
      · obtain ⟨rfl, rfl, rfl⟩ := (gives_visit_of_mem hmem).mp hpid
        exact (ih hpids).known hmem
      · obtain ⟨ent, hent, rfl⟩ := (gives_visit_of_new hmem).mp hpid
        rw [examine_execs hent]
        exact (ih hpids).new hmem

/-- A scan finds a process that is not noted yet at this depth under a watched one, where it
comes to it. -/
def FoundAt (roots : List Int32) (sys : Sys) (db : Db) (pids : List Int32) (now : Nat)
    (pid : Int32) (d : Int) : Prop :=
  pid ∉ db ∧ 0 ≤ d ∧ ∃ pre post db₁ evs mid info later, pids = pre ++ pid :: post ∧ pid ∉ pre
    ∧ Gives (visits roots sys db pre) now (db₁, evs) mid ∧ sys.bsdInfo mid pid = some info
    ∧ Gives (pidDepth succ roots sys (depths db₁) pid) (mid + 1) d later

def FoundUnder (roots : List Int32) (sys : Sys) (db : Db) (pids : List Int32) (now : Nat)
    (pid : Int32) : Prop :=
  ∃ d, FoundAt roots sys db pids now pid d

/-- The state in which a scan comes to a new process for the first time. -/
theorem visits_at (h : Gives (visits roots sys db (pre ++ pid :: post)) now (db', evs) later)
    (hnew : pid ∉ db) (hpre : pid ∉ pre) :
    ∃ db₁ execs mid ent evs₁ later₁, Gives (visits roots sys db pre) now (db₁, execs) mid
      ∧ Gives (examine succ roots sys (depths db₁) pid) mid (ent, evs₁) later₁
      ∧ db'.lookup pid = some ent := by
  obtain ⟨db₁, execs, mid, rest, hleft, hright, -⟩ := gives_visits_append.mp h
  obtain ⟨db₂, evs₁, later₁, rest', hpid, hrest, -⟩ := gives_visits_cons.mp hright
  have hnew₁ : pid ∉ db₁ := by
    rw [(visits_spec hleft).keys]
    exact not_or_intro hnew hpre
  obtain ⟨ent, hent, rfl⟩ := (gives_visit_of_new hnew₁).mp hpid
  refine ⟨db₁, execs, mid, ent, evs₁, later₁, hleft, hent, ?_⟩
  rw [(visits_spec hrest).kept pid (mem_insert.mpr (Or.inl rfl)), AList.lookup_insert]

theorem foundAt_iff {d : Int} (h : Gives (visits roots sys db pids) now (db', evs) later) :
    FoundAt roots sys db pids now pid d ↔
      pid ∉ db ∧ 0 ≤ d ∧ ∃ ent, db'.lookup pid = some ent ∧ ent.depth = d := by
  refine and_congr_right fun hnew => and_congr_right fun hd => ?_
  constructor
  · rintro ⟨pre, post, db₁, execs, mid, info, later', rfl, hpre, hleft, hinfo, hdepth⟩
    obtain ⟨db₂, execs', mid', ent, evs₁, later₁, hleft', hent, hlookup⟩ := visits_at h hnew hpre
    obtain ⟨heq, rfl⟩ := hleft.unique hleft'
    obtain ⟨rfl, rfl⟩ := Prod.mk.inj heq
    obtain ⟨later₂, hdepth', -⟩ := examine_some hinfo hent
    exact ⟨ent, hlookup, (hdepth.unique hdepth').1.symm⟩
  · rintro ⟨ent, hlookup, rfl⟩
    have hmem : pid ∈ pids := by
      have hkey := AList.lookup_isSome.mp (Option.isSome_of_mem hlookup)
      exact (((visits_spec h).keys pid).mp hkey).resolve_left hnew
    obtain ⟨pre, post, rfl, hpre⟩ := List.eq_append_cons_of_mem hmem
    obtain ⟨db₁, execs, mid, ent', evs₁, later₁, hleft, hent, hlookup'⟩ := visits_at h hnew hpre
    obtain rfl : ent = ent' := Option.some.inj (hlookup.symm.trans hlookup')
    cases hinfo : sys.bsdInfo mid pid with
    | none =>
        obtain ⟨rfl, -⟩ := examine_none hinfo hent
        exact absurd hd (by decide)
    | some info =>
        obtain ⟨later₂, hdepth, -⟩ := examine_some hinfo hent
        exact ⟨pre, post, db₁, execs, mid, info, later₂, rfl, hpre, hleft, hinfo, hdepth⟩

theorem foundUnder_iff (h : Gives (visits roots sys db pids) now (db', evs) later) :
    FoundUnder roots sys db pids now pid ↔
      pid ∉ db ∧ ∃ ent, db'.lookup pid = some ent ∧ 0 ≤ ent.depth := by
  simp only [FoundUnder, foundAt_iff h]
  constructor
  · rintro ⟨d, hnew, hd, ent, hent, rfl⟩
    exact ⟨hnew, ent, hent, hd⟩
  · rintro ⟨hnew, ent, hent, hd⟩
    exact ⟨ent.depth, hnew, hd, ent, hent, rfl⟩

/-! ### The second loop -/

/-- The entries of the processes in the list stay. -/
theorem lookup_sweep : (sweep db pids gone).1.lookup p =
    if p ∈ pids then db.lookup p else none := by
  rw [sweep, Store.lookup_erases_filter]
  cases hent : db.lookup p with
  | none => exact (ite_self none).symm
  | some ent =>
      rw [Option.filter_some, Bool.not_not]
      exact if_congr List.contains_iff_mem rfl rfl

/-- The others that have a depth are reported. -/
theorem mem_sweep : ev ∈ (sweep db pids gone).2 ↔
    ∃ p ent, ev = .exit p ent gone ∧ db.lookup p = some ent ∧ p ∉ pids ∧ 0 ≤ ent.depth := by
  rw [sweep, List.mem_filterMap]
  constructor
  · rintro ⟨⟨p, ent⟩, he, hev⟩
    obtain ⟨hin, hout⟩ := List.mem_filter.mp he
    split at hev
    · next hd =>
        exact ⟨p, ent, (Option.some.inj hev).symm, AList.mem_lookup_iff.mpr hin,
          by simpa using hout, hd⟩
    · cases hev
  · rintro ⟨p, ent, rfl, hent, hout, hd⟩
    refine ⟨⟨p, ent⟩, List.mem_filter.mpr ⟨AList.mem_lookup_iff.mp hent, by simpa using hout⟩, ?_⟩
    rw [if_pos hd]

theorem sweep_once : ((sweep db pids gone).2.map Event.pid).Nodup := by
  have hsub : ((sweep db pids gone).2.map Event.pid).Sublist db.keys := by
    rw [sweep, List.map_filterMap, AList.keys, List.keys]
    have hmap : ((db.entries.filter fun e => !pids.contains e.1).filterMap fun e =>
          (if 0 ≤ e.2.depth then some (Event.exit e.1 e.2 gone) else none).map Event.pid).Sublist
        ((db.entries.filter fun e => !pids.contains e.1).map Sigma.fst) := by
      generalize db.entries.filter (fun e => !pids.contains e.1) = es
      induction es with
      | nil => exact List.Sublist.refl _
      | cons e es ih =>
          rw [List.filterMap_cons, List.map_cons]
          split
          · exact ih.cons _
          · next hpid =>
              split at hpid
              · obtain rfl := Option.some.inj hpid
                exact ih.cons_cons _
              · cases hpid
    exact hmap.trans (List.filter_sublist.map _)
  exact hsub.nodup db.keys_nodup

end Go

end Tracep.Exectrace.Darwin
