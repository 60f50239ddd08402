import Tracep.Exectrace.DarwinScan

/-!
# What the macOS exec tracer reports

The theorems about whole runs of the Go tracer on macOS. Every scan leaves
the processes of its list, reports the new ones under a watched process and
the reported ones that are gone, and so the reports about one process
alternate, beginning with an exec (`run_scans`).

What is in the first list is not to be reported as new. `seedDB` passes over
a process it is told nothing about, where `scan`, and the C port of `seedDB`,
note it; such a process is new to the first scan
(`run_keepsSeeded_iff`).
-/

namespace Tracep.Exectrace.Darwin.Go

open Exec Asking Machine History
open Exectrace.C (MacEntry)

variable {roots : List Int32} {sys : Sys} {db db' : Db} {pid p : Int32}
  {seed pids : List Int32} {ticks : List Tick} {tick : Tick} {ent : MacEntry} {evs : List Event}
  {now later : Nat} {gone : Int}

/-- A scan, with what it is given. -/
abbrev Scan := Step Db Tick (List Event)

variable {x : Scan} {h steps rest : List Scan}

/-! ## One scan -/

/-- What a scan leaves and reports. -/
structure Scanned (db db' : Db) (pids : List Int32) (evs : List Event) (gone : Int) : Prop where
  keys : ∀ p, p ∈ db' ↔ p ∈ pids
  kept : ∀ p ∈ db, p ∈ pids → db'.lookup p = db.lookup p
  execs : ∀ p ent, .exec p ent ∈ evs ↔ p ∉ db ∧ db'.lookup p = some ent ∧ 0 ≤ ent.depth
  exits : ∀ p ent t, .exit p ent t ∈ evs ↔
    t = gone ∧ db.lookup p = some ent ∧ p ∉ pids ∧ 0 ≤ ent.depth
  once : (evs.map Event.pid).Nodup

theorem gives_scan_none (htick : tick.pids = none) :
    Gives (scan roots sys db tick) now (db', evs) later ↔ db' = db ∧ evs = [] ∧ later = now := by
  simp only [scan, htick, gives_pure, Prod.mk.injEq, and_assoc]

theorem gives_scan_some (htick : tick.pids = some pids) :
    Gives (scan roots sys db tick) now (db', evs) later ↔
      ∃ db₁ execs, Gives (visits roots sys db pids) now (db₁, execs) later
        ∧ db' = (sweep db₁ pids tick.now).1 ∧ evs = execs ++ (sweep db₁ pids tick.now).2 := by
  simp only [scan, htick, gives_bind, gives_pure, Prod.exists, Prod.mk.injEq]
  constructor
  · rintro ⟨db₁, execs, mid, hvisits, ⟨rfl, rfl⟩, rfl⟩
    exact ⟨db₁, execs, hvisits, rfl, rfl⟩
  · rintro ⟨db₁, execs, hvisits, rfl, rfl⟩
    exact ⟨db₁, execs, later, hvisits, ⟨rfl, rfl⟩, rfl⟩

/-- The process of an event of the second loop was noted, and is not in the list. -/
theorem of_mem_sweep {ev : Event} (h : ev ∈ (sweep db pids gone).2) :
    ev.pid ∈ db ∧ ev.pid ∉ pids := by
  obtain ⟨p, ent, rfl, hent, hp, -⟩ := mem_sweep.mp h
  exact ⟨AList.lookup_isSome.mp (Option.isSome_of_mem hent), hp⟩

theorem scan_spec (htick : tick.pids = some pids)
    (hscan : Gives (scan roots sys db tick) now (db', evs) later) :
    Scanned db db' pids evs tick.now := by
  obtain ⟨db₁, execs, hvisits, rfl, rfl⟩ := (gives_scan_some htick).mp hscan
  have hv := visits_spec hvisits
  have hexec : ∀ {p ent gone}, .exec p ent ∉ (sweep db₁ pids gone).2 := by
    intro p ent gone hmem
    obtain ⟨_, _, heq, -⟩ := mem_sweep.mp hmem
    cases heq
  have hexit : ∀ {p ent gone}, .exit p ent gone ∉ execs := by
    intro p ent gone hmem
    obtain ⟨_, _, heq, -⟩ := (hv.execs _).mp hmem
    cases heq
  have hin : ∀ p, p ∈ (sweep db₁ pids tick.now).1 ↔ p ∈ pids := by
    intro p
    rw [← AList.lookup_isSome, lookup_sweep]
    split
    · next hp => exact iff_of_true (AList.lookup_isSome.mpr ((hv.keys p).mpr (Or.inr hp))) hp
    · next hp => exact iff_of_false Bool.false_ne_true hp
  -- a process that is gone was noted before
  have hold : ∀ {p}, p ∈ db₁ → p ∉ pids → p ∈ db := by
    intro p hp hout
    exact ((hv.keys p).mp hp).resolve_right hout
  refine ⟨hin, ?_, ?_, ?_, ?_⟩
  · intro p hp hpids
    rw [lookup_sweep, if_pos hpids, hv.kept p hp]
  · intro p ent
    rw [List.mem_append, or_iff_left hexec, hv.execs]
    constructor
    · rintro ⟨p', ent', heq, hnew, hent, hd⟩
      obtain ⟨rfl, rfl⟩ := Event.exec.inj heq
      have hp : p ∈ pids := by
        have hkey := (hv.keys p).mp (AList.lookup_isSome.mp (Option.isSome_of_mem hent))
        exact hkey.resolve_left hnew
      rw [lookup_sweep, if_pos hp]
      exact ⟨hnew, hent, hd⟩
    · rintro ⟨hnew, hent, hd⟩
      rw [lookup_sweep] at hent
      split at hent
      · exact ⟨p, ent, rfl, hnew, hent, hd⟩
      · cases hent
  · intro p ent t
    rw [List.mem_append, or_iff_right hexit, mem_sweep]
    constructor
    · rintro ⟨p', ent', heq, hent, hp, hd⟩
      obtain ⟨rfl, rfl, rfl⟩ := Event.exit.inj heq
      have hmem := hold (AList.lookup_isSome.mp (Option.isSome_of_mem hent)) hp
      rw [hv.kept p hmem] at hent
      exact ⟨rfl, hent, hp, hd⟩
    · rintro ⟨rfl, hent, hp, hd⟩
      refine ⟨p, ent, rfl, ?_, hp, hd⟩
      rw [hv.kept p (AList.lookup_isSome.mp (Option.isSome_of_mem hent))]
      exact hent
  · rw [List.map_append]
    refine List.nodup_append.mpr ⟨hv.once, sweep_once, ?_⟩
    intro p hp q hq heq
    obtain ⟨ev, hev, rfl⟩ := List.mem_map.mp hp
    obtain ⟨ev', hev', rfl⟩ := List.mem_map.mp hq
    obtain ⟨r, ent, rfl, hnew, -, -⟩ := (hv.execs ev).mp hev
    obtain ⟨hmem, hout⟩ := of_mem_sweep hev'
    have hsame : r = ev'.pid := heq
    exact hnew (hsame ▸ hold hmem hout)

/-- An entry with a depth is one that is reported, with no exit since. -/
def Tells (out : List Event) (db : Db) : Prop :=
  ∀ p ent, db.lookup p = some ent ∧ 0 ≤ ent.depth ↔
    Since (fun ev => ev = .exec p ent) (fun ev => ev.pid = p) out

theorem Scanned.tells {out : List Event} (hscan : Scanned db db' pids evs gone)
    (htells : Tells out db) : Tells (out ++ evs) db' := by
  intro p ent
  have hexec : Since (fun ev => ev = .exec p ent) (fun ev => ev.pid = p) evs ↔ _ :=
    since_iff_mem (x := Event.exec p ent) hscan.once
  rw [since_append, ← htells p ent, hexec, hscan.execs]
  by_cases hp : p ∈ db
  · rw [or_iff_right fun hexec => hexec.1 hp]
    by_cases hpids : p ∈ pids
    · rw [hscan.kept p hp hpids]
      refine (and_iff_left ?_).symm
      rintro (⟨q, e⟩ | ⟨q, e, t⟩) hev rfl
      · exact ((hscan.execs _ e).mp hev).1 hp
      · exact ((hscan.exits _ e t).mp hev).2.2.1 hpids
    · refine iff_of_false ?_ ?_
      · rintro ⟨hent, -⟩
        exact hpids ((hscan.keys p).mp (AList.lookup_isSome.mp (Option.isSome_of_mem hent)))
      · rintro ⟨⟨hent, hd⟩, hnone⟩
        exact hnone _ ((hscan.exits p ent gone).mpr ⟨rfl, hent, hpids, hd⟩) rfl
  · have hbefore : ¬(db.lookup p = some ent ∧ 0 ≤ ent.depth) := fun hent =>
      hp (AList.lookup_isSome.mp (Option.isSome_of_mem hent.1))
    rw [or_iff_left fun hold => hbefore hold.1, and_iff_right hp]

/-! ## The start -/

/-- When `seedDB` asks for the processes of the list. -/
def asked (sys : Sys) : Nat → List Int32 → List (Nat × Int32)
  | _, [] => []
  | now, p :: pids =>
      (now, p) :: asked sys (if (sys.bsdInfo now p).isSome then now + 2 else now + 1) pids

/-- `seedDB` is told something about the process. -/
def Answered (sys : Sys) (now : Nat) (pids : List Int32) (p : Int32) : Prop :=
  ∃ t, (t, p) ∈ asked sys now pids ∧ (sys.bsdInfo t p).isSome

theorem answered_cons {q : Int32} : Answered sys now (q :: seed) p ↔
    p = q ∧ (sys.bsdInfo now q).isSome
      ∨ Answered sys (if (sys.bsdInfo now q).isSome then now + 2 else now + 1) seed p := by
  simp only [Answered, asked, List.mem_cons, Prod.mk.injEq]
  constructor
  · rintro ⟨t, ⟨rfl, rfl⟩ | hmem, ht⟩
    · exact Or.inl ⟨rfl, ht⟩
    · exact Or.inr ⟨t, hmem, ht⟩
  · rintro (⟨rfl, ht⟩ | ⟨t, hmem, ht⟩)
    · exact ⟨now, Or.inl ⟨rfl, rfl⟩, ht⟩
    · exact ⟨t, Or.inr hmem, ht⟩

theorem seedDB_spec (h : Gives (seedDB sys db seed) now db' later) :
    (∀ p, p ∈ db' ↔ p ∈ db ∨ Answered sys now seed p)
      ∧ ((∀ p ent, db.lookup p = some ent → ent.depth = -1) →
        ∀ p ent, db'.lookup p = some ent → ent.depth = -1) := by
  induction seed generalizing db now with
  | nil =>
      obtain ⟨rfl, -⟩ := gives_pure.mp h
      refine ⟨fun p => ?_, id⟩
      refine (or_iff_left ?_).symm
      rintro ⟨t, hmem, -⟩
      cases hmem
  | cons q seed ih =>
      obtain ⟨info, mid, hinfo, hrest⟩ := gives_bind.mp h
      obtain ⟨rfl, rfl⟩ := gives_observe.mp hinfo
      cases hq : sys.bsdInfo now q with
      | none =>
          simp only [hq] at hrest
          obtain ⟨hkeys, hdepth⟩ := ih hrest
          refine ⟨fun p => ?_, hdepth⟩
          rw [hkeys, answered_cons, hq]
          simp
      | some info =>
          simp only [hq] at hrest
          obtain ⟨argv, mid, hargv, hrest⟩ := gives_bind.mp hrest
          obtain ⟨-, rfl⟩ := gives_observe.mp hargv
          obtain ⟨hkeys, hdepth⟩ := ih hrest
          refine ⟨fun p => ?_, fun hdb => hdepth fun p ent hent => ?_⟩
          · rw [hkeys, mem_insert, answered_cons, hq, or_assoc, or_left_comm]
            simp
          · by_cases hp : p = q
            · rw [hp, AList.lookup_insert] at hent
              exact (Option.some.inj hent) ▸ rfl
            · rw [AList.lookup_insert_ne hp] at hent
              exact hdb p ent hent

theorem gives_run : Gives (run roots sys seed ticks) now (db, steps) later ↔
    ∃ db₀ mid, Gives (seedDB sys ∅ seed) now db₀ mid
      ∧ Gives (Machine.run (scan roots sys) db₀ ticks) mid (db, steps) later := by
  rw [run, gives_bind]

theorem mem_seedDB (h : Gives (seedDB sys ∅ seed) now db later) :
    p ∈ db ↔ Answered sys now seed p := by
  rw [(seedDB_spec h).1]
  exact or_iff_right (AList.notMem_empty p)

/-- Nothing is reported at the start. -/
theorem tells_seedDB (h : Gives (seedDB sys ∅ seed) now db later) : Tells [] db := by
  intro p ent
  refine iff_of_false ?_ not_since_nil
  rintro ⟨hent, hd⟩
  have hdepth := (seedDB_spec h).2 (fun p ent hent => by cases hent) p ent hent
  omega

/-! ## Runs -/

theorem tells_trace {db₀ : Db} {start : Nat} (htells : Tells [] db₀)
    (htrace : Trace (Next (scan roots sys)) (db₀, start) h (db, now)) :
    Tells (h.flatMap Step.out) db := by
  induction htrace using trace_induction with
  | nil => exact htells
  | snoc h x _ hscan hbefore =>
      rw [List.flatMap_append, List.flatMap_singleton]
      cases htick : x.event.pids with
      | none =>
          obtain ⟨hafter, hout, -⟩ := (gives_scan_none htick).mp hscan
          rw [hafter, hout, List.append_nil]
          exact hbefore
      | some pids => exact (scan_spec htick hscan).tells hbefore

/-- A scan notes the processes of its list, reports the new ones it finds under a watched one
and the reported ones that are gone, each once. -/
structure Diffs (roots : List Int32) (sys : Sys) (x : Scan) (pids : List Int32) : Prop where
  keys : ∀ p, p ∈ x.after ↔ p ∈ pids
  execs : ∀ p, p ∈ x.out.filterMap Event.execPid ↔
    FoundUnder roots sys x.before pids x.start p
  execs_once : (x.out.filterMap Event.execPid).Nodup
  exits : ∀ p, p ∈ x.out.filterMap Event.exitPid ↔
    p ∉ pids ∧ ∃ ent, x.before.lookup p = some ent ∧ 0 ≤ ent.depth
  exits_once : (x.out.filterMap Event.exitPid).Nodup

theorem filterMap_once {f : Event → Option Int32} (hf : ∀ ev p, f ev = some p → ev.pid = p)
    (honce : (evs.map Event.pid).Nodup) : (evs.filterMap f).Nodup := by
  have hsub : (evs.filterMap f).Sublist (evs.map Event.pid) := by
    clear honce
    induction evs with
    | nil => exact List.Sublist.refl _
    | cons ev evs ih =>
        rw [List.map_cons]
        cases hev : f ev with
        | none =>
            rw [List.filterMap_cons_none hev]
            exact ih.cons _
        | some p =>
            rw [List.filterMap_cons_some hev, hf ev p hev]
            exact ih.cons_cons p
  exact hsub.nodup honce

theorem mem_execPids : p ∈ evs.filterMap Event.execPid ↔ ∃ ent, .exec p ent ∈ evs := by
  rw [List.mem_filterMap]
  constructor
  · rintro ⟨⟨q, ent⟩ | ⟨q, ent, t⟩, hev, heq⟩
    · exact ⟨ent, Option.some.inj heq ▸ hev⟩
    · cases heq
  · rintro ⟨ent, hev⟩
    exact ⟨_, hev, rfl⟩

theorem mem_exitPids : p ∈ evs.filterMap Event.exitPid ↔ ∃ ent t, .exit p ent t ∈ evs := by
  rw [List.mem_filterMap]
  constructor
  · rintro ⟨⟨q, ent⟩ | ⟨q, ent, t⟩, hev, heq⟩
    · cases heq
    · exact ⟨ent, t, Option.some.inj heq ▸ hev⟩
  · rintro ⟨ent, t, hev⟩
    exact ⟨_, hev, rfl⟩

/-- The processes of the exec events, in terms of what the scan is told. -/
theorem mem_scan_execs (htick : tick.pids = some pids)
    (hscan : Gives (scan roots sys db tick) now (db', evs) later) :
    (∃ ent, .exec p ent ∈ evs) ↔ FoundUnder roots sys db pids now p := by
  obtain ⟨db₁, execs, hvisits, rfl, rfl⟩ := (gives_scan_some htick).mp hscan
  rw [foundUnder_iff hvisits]
  have hmem : ∀ {ent}, .exec p ent ∈ execs ++ (sweep db₁ pids tick.now).2 ↔
      p ∉ db ∧ db₁.lookup p = some ent ∧ 0 ≤ ent.depth := by
    intro ent
    rw [List.mem_append, or_iff_left, (visits_spec hvisits).execs]
    · constructor
      · rintro ⟨p', ent', heq, hnew, hent, hd⟩
        obtain ⟨rfl, rfl⟩ := Event.exec.inj heq
        exact ⟨hnew, hent, hd⟩
      · rintro ⟨hnew, hent, hd⟩
        exact ⟨p, ent, rfl, hnew, hent, hd⟩
    · intro hexit
      obtain ⟨_, _, heq, -⟩ := mem_sweep.mp hexit
      cases heq
  simp only [hmem, exists_and_left]

theorem diffs_of_scan (htick : x.event.pids = some pids)
    (hscan : Gives (scan roots sys x.before x.event) x.start (x.after, x.out) x.stop) :
    Diffs roots sys x pids := by
  have hspec := scan_spec htick hscan
  refine ⟨hspec.keys, fun p => ?_, ?_, fun p => ?_, ?_⟩
  · rw [mem_execPids, mem_scan_execs htick hscan]
  · refine filterMap_once ?_ hspec.once
    rintro (⟨q, ent⟩ | ⟨q, ent, t⟩) p heq
    · exact Option.some.inj heq
    · cases heq
  · rw [mem_exitPids]
    simp only [hspec.exits]
    constructor
    · rintro ⟨ent, _, rfl, hent, hp, hd⟩
      exact ⟨hp, ent, hent, hd⟩
    · rintro ⟨hp, ent, hent, hd⟩
      exact ⟨ent, _, rfl, hent, hp, hd⟩
  · refine filterMap_once ?_ hspec.once
    rintro (⟨q, ent⟩ | ⟨q, ent, t⟩) p heq
    · cases heq
    · exact Option.some.inj heq

/-- Every exit follows the exec of the same life of its process, with no other report about
the process between them, and two execs of a process have an exit between them. -/
structure Alternate (out : List Event) : Prop where
  exits : ∀ before after p ent gone, out = before ++ .exit p ent gone :: after →
    Since (fun ev => ev = .exec p ent) (fun ev => ev.pid = p) before
  execs : ∀ before after p ent, out = before ++ .exec p ent :: after →
    ∀ ent', ¬Since (fun ev => ev = .exec p ent') (fun ev => ev.pid = p) before

/-- A report is made by a scan, in a state that tells what is reported so far. -/
theorem scan_of_report {ev : Event} {before after : List Event}
    (hrun : Gives (run roots sys seed ticks) now (db, steps) later)
    (hout : steps.flatMap Step.out = before ++ ev :: after) :
    ∃ (x : Scan) (pids : List Int32) (out b a : List Event),
      Scanned x.before x.after pids x.out x.event.now ∧ Tells out x.before
        ∧ x.out = b ++ ev :: a ∧ before = out ++ b := by
  obtain ⟨db₀, mid, hseed, hscans⟩ := gives_run.mp hrun
  obtain ⟨h, x, rest, b, a, rfl, hx, hbefore⟩ := exists_split_of_flatMap hout
  obtain ⟨htrace, hscan⟩ := run_next hscans
  have htells := tells_trace (tells_seedDB hseed) htrace
  cases htick : x.event.pids with
  | none =>
      obtain ⟨-, hnone, -⟩ := (gives_scan_none htick).mp hscan
      exact absurd (hnone.symm.trans hx).symm (List.append_ne_nil_of_right_ne_nil b
        (List.cons_ne_nil ev a))
  | some pids => exact ⟨x, pids, _, b, a, scan_spec htick hscan, htells, hx, hbefore⟩

theorem alternate_of_run (hrun : Gives (run roots sys seed ticks) now (db, steps) later) :
    Alternate (steps.flatMap Step.out) := by
  constructor
  · intro before after p ent gone hout
    obtain ⟨x, pids, out, b, a, hspec, htells, hx, rfl⟩ := scan_of_report hrun hout
    have hmem : .exit p ent gone ∈ x.out := hx ▸ List.mem_append_right b List.mem_cons_self
    obtain ⟨-, hent, -, hd⟩ := (hspec.exits p ent gone).mp hmem
    have hsince := (htells p ent).mp ⟨hent, hd⟩
    exact since_append.mpr (Or.inr ⟨hsince, ne_of_before (hx ▸ hspec.once)⟩)
  · intro before after p ent hout ent' hsince
    obtain ⟨x, pids, out, b, a, hspec, htells, hx, rfl⟩ := scan_of_report hrun hout
    have hmem : .exec p ent ∈ x.out := hx ▸ List.mem_append_right b List.mem_cons_self
    have hnew := ((hspec.execs p ent).mp hmem).1
    rcases since_append.mp hsince with ⟨b₁, ev, b₂, rfl, rfl, -⟩ | ⟨hold, -⟩
    · have hbefore := ne_of_before (hx ▸ hspec.once)
      exact hbefore (.exec p ent') (List.mem_append_right b₁ List.mem_cons_self) rfl
    · have hent := ((htells p ent').mpr hold).1
      exact hnew (AList.lookup_isSome.mp (Option.isSome_of_mem hent))

/-- A process appears, is gone, and appears again. -/
def comesAndGoes : Sys where
  bsdInfo _ p := if p = 20 then some ⟨1, 501, 0, 0⟩ else none
  pidArgv _ _ := [[108, 115]]

def appearances : List Tick :=
  [⟨some [7, 20], 1⟩, ⟨some [7], 2⟩, ⟨none, 3⟩, ⟨some [20, 7, 20], 4⟩]

/-- The process is in the first list, and in all others. -/
def Stays (seed : List Int32) (ticks : List Tick) (p : Int32) : Prop :=
  p ∈ seed ∧ ∀ tick ∈ ticks, ∀ pids, tick.pids = some pids → p ∈ pids

/-- No process that was there at the start and stays is reported as new. -/
def KeepsSeeded (seed : List Int32) (ticks : List Tick) (steps : List Scan) : Prop :=
  ∀ p, Stays seed ticks p → ∀ ent, .exec p ent ∉ steps.flatMap Step.out

/-- The first scan that gets a list. -/
def FirstScan (steps : List Scan) (x : Scan) (pids : List Int32) : Prop :=
  ∃ h rest, steps = h ++ x :: rest ∧ x.event.pids = some pids ∧ ∀ y ∈ h, y.event.pids = none

/-- A process that is in every list is noted once it is noted at the start, or there was a
list. -/
theorem noted_of_trace {db₀ : Db} {start : Nat}
    (htrace : Trace (Next (scan roots sys)) (db₀, start) h (db, now))
    (hstays : ∀ y ∈ h, ∀ pids, y.event.pids = some pids → p ∈ pids)
    (hnoted : p ∈ db₀ ∨ ∃ y ∈ h, y.event.pids ≠ none) : p ∈ db := by
  induction htrace using trace_induction with
  | nil => exact hnoted.resolve_right fun ⟨y, hy, _⟩ => List.not_mem_nil hy
  | snoc h x _ hscan ih =>
      cases htick : x.event.pids with
      | none =>
          obtain ⟨hafter, -, -⟩ := (gives_scan_none htick).mp hscan
          rw [hafter]
          refine ih (fun y hy => hstays y (List.mem_append_left _ hy)) ?_
          refine hnoted.imp_right ?_
          rintro ⟨y, hy, hsome⟩
          rcases List.mem_append.mp hy with hy | hy
          · exact ⟨y, hy, hsome⟩
          · exact absurd (List.mem_singleton.mp hy ▸ htick) hsome
      | some pids =>
          have hlast : x ∈ h ++ [x] := List.mem_append_right h (List.mem_singleton_self x)
          exact ((scan_spec htick hscan).keys p).mpr (hstays x hlast pids htick)

/-- Exactly the processes that `seedDB` was told nothing about, and that the first scan finds
under a watched one, are reported although they were there. -/
theorem run_keepsSeeded_iff (hrun : Gives (run roots sys seed ticks) now (db, steps) later) :
    KeepsSeeded seed ticks steps ↔ ∀ p, Stays seed ticks p → Answered sys now seed p
      ∨ ∀ x pids, FirstScan steps x pids → ¬FoundUnder roots sys x.before pids x.start p := by
  obtain ⟨db₀, mid, hseed, hscans⟩ := gives_run.mp hrun
  constructor
  · intro hkeeps p hp
    refine Or.inr ?_
    rintro x pids ⟨h, rest, rfl, htick, -⟩ hfound
    obtain ⟨-, hscan⟩ := run_next hscans
    obtain ⟨ent, hexec⟩ := (mem_scan_execs htick hscan).mpr hfound
    exact hkeeps p hp ent (List.mem_flatMap.mpr
      ⟨x, List.mem_append_right h List.mem_cons_self, hexec⟩)
  · intro hall p hp ent hreport
    obtain ⟨x, hx, hexec⟩ := List.mem_flatMap.mp hreport
    obtain ⟨h, rest, rfl⟩ := List.append_of_mem hx
    obtain ⟨htrace, hscan⟩ := run_next hscans
    cases htick : x.event.pids with
    | none =>
        obtain ⟨-, hnone, -⟩ := (gives_scan_none htick).mp hscan
        rw [hnone] at hexec
        cases hexec
    | some pids =>
        have hnew := (((scan_spec htick hscan).execs p ent).mp hexec).1
        have hstays : ∀ y ∈ h, ∀ pids, y.event.pids = some pids → p ∈ pids := by
          intro y hy
          refine hp.2 y.event ?_
          rw [← run_events hscans]
          exact List.mem_map_of_mem (List.mem_append_left _ hy)
        have hearlier : ¬(p ∈ db₀ ∨ ∃ y ∈ h, y.event.pids ≠ none) := fun hnoted =>
          hnew (noted_of_trace htrace hstays hnoted)
        rw [not_or, mem_seedDB hseed] at hearlier
        have hfirst : FirstScan (h ++ x :: rest) x pids := by
          refine ⟨h, rest, rfl, htick, ?_⟩
          intro y hy
          by_contra hsome
          exact hearlier.2 ⟨y, hy, hsome⟩
        have hfound := (mem_scan_execs htick hscan).mp ⟨ent, hexec⟩
        exact (hall p hp).elim hearlier.1 fun hnot => hnot x pids hfirst hfound

/-- The system tells nothing about process 20 at first. -/
def lateAnswer : Sys where
  bsdInfo t p := if p = 20 ∧ t ≠ 0 then some ⟨1, 501, 0, 0⟩ else none
  pidArgv _ _ := [[108, 115]]

theorem comesAndGoes_keepsSeeded : ∃ db steps later,
    Gives (run [1] comesAndGoes [20] [⟨some [20], 1⟩, ⟨none, 2⟩]) 0 (db, steps) later
      ∧ (KeepsSeeded [20] [⟨some [20], 1⟩, ⟨none, 2⟩] steps ↔
        ∀ p, Stays [20] [⟨some [20], 1⟩, ⟨none, 2⟩] p → Answered comesAndGoes 0 [20] p
          ∨ ∀ x pids, FirstScan steps x pids →
            ¬FoundUnder [1] comesAndGoes x.before pids x.start p)
      ∧ KeepsSeeded [20] [⟨some [20], 1⟩, ⟨none, 2⟩] steps := by
  obtain ⟨⟨db, steps⟩, later, hrun, -⟩ := exists_gives
    (run [1] comesAndGoes [20] [⟨some [20], 1⟩, ⟨none, 2⟩]) (fun _ => true) true 0 3
    (by decide +kernel)
  have hiff := run_keepsSeeded_iff hrun
  refine ⟨db, steps, later, hrun, hiff, hiff.mpr ?_⟩
  intro p hp
  obtain rfl := List.mem_singleton.mp hp.1
  exact Or.inl ⟨0, by decide, by decide⟩

theorem lateAnswer_not_keepsSeeded : ¬∀ roots sys seed ticks now db steps later,
    Gives (run roots sys seed ticks) now (db, steps) later → KeepsSeeded seed ticks steps := by
  intro hall
  obtain ⟨⟨db, steps⟩, later, hrun, hout⟩ := exists_gives
    (run [1] lateAnswer [20] [⟨some [20], 1⟩]) (fun r => (r.2.flatMap Step.out).map Event.execPid)
    [some 20] 0 3 (by decide +kernel)
  have hkeeps := hall _ _ _ _ _ _ _ _ hrun 20
    ⟨List.mem_singleton_self _, fun tick htick pids hpids => by
      rw [List.mem_singleton.mp htick] at hpids
      exact Option.some.inj hpids ▸ List.mem_singleton_self _⟩
  have hmem : some 20 ∈ (steps.flatMap Step.out).map Event.execPid :=
    hout ▸ List.mem_singleton_self _
  obtain ⟨⟨q, ent⟩ | ⟨q, ent, t⟩, hev, heq⟩ := List.mem_map.mp hmem
  · obtain rfl := Option.some.inj heq
    exact hkeeps ent hev
  · cases heq

end Tracep.Exectrace.Darwin.Go
