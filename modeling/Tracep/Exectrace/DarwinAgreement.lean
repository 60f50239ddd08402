import Tracep.Exectrace.DarwinTable
import Tracep.Exectrace.TableTracer

/-!
# Where the macOS exec tracers agree

A scan of the C port agrees with that of the Go code exactly where it fits
the table: there is room for the new processes beside the old ones, the batch
of the second loop holds all that are gone, the depths are `int`s, and the
list is not empty while there is something in the table
(`exists_scan_of_fits`, `fits_of_agrees`). So the tracers agree over a run
exactly where every scan fits (`run_agrees_iff`).
-/

namespace Tracep.Exectrace.Darwin.C

open Exec Asking Machine Probing
open Exectrace.C (MacEntry MacDb macdb macDB pidCap slotOf crowdPid crowdPid_inj)

variable {roots : List Int32} {sys : Sys} {pid p : Int32} {pids goners : List Int32}
  {ent : MacEntry} {evs evs' : List Event} {now later : Nat} {d : Int} {t t' : MacDb}
  {m : Int32 → Option MacEntry} {db db' : Db} {tick : Tick} {ticks : List Tick}

/-! ## One scan -/

/-- The table and the map hold the same processes at the same depths, and the same was
reported, the exits in any order. -/
structure Agrees (t : MacDb) (db : Db) (evs evs' : List Event) : Prop where
  execs : evs.filter (fun ev => ev.execPid.isSome) = evs'.filter fun ev => ev.execPid.isSome
  exits : (evs.filter fun ev => ev.exitPid.isSome).Perm (evs'.filter fun ev => ev.exitPid.isSome)
  depths : ∀ p, C.depths t p = Go.depths db p

/-- The list fits the table: there is something in it if there is in the table, there is room
for it, the batch holds what is gone, and the depths are `int`s. -/
structure Fits (roots : List Int32) (sys : Sys) (db : Db) (pids : List Int32) (now : Nat) :
    Prop where
  listed : pids = [] → ∀ p, p ∉ db
  room : ({p | p ∈ db} ∪ {p | p ∈ pids}).ncard ≤ pidCap
  batch : {p | p ∈ db ∧ p ∉ pids}.ncard ≤ 1024
  shallow : ∀ p d, Go.FoundAt roots sys db pids now p d → d < 2 ^ 31

theorem gives_scan_null (htick : procListAllPIDs tick.pids = none) :
    Gives (scanMacDB roots sys t tick) now (t', evs) later ↔
      t' = t ∧ evs = [] ∧ later = now := by
  simp only [scanMacDB, htick, gives_pure, Prod.mk.injEq, and_assoc]

theorem gives_scan_list (htick : procListAllPIDs tick.pids = some pids) :
    Gives (scanMacDB roots sys t tick) now (t', evs) later ↔
      ∃ t₁ execs exits, Gives (visits roots sys t pids) now (t₁, execs) later
        ∧ (sweep tick.now t₁ (C.goners t₁ pids)).Returns (t', exits) ∧ evs = execs ++ exits := by
  simp only [scanMacDB, htick, gives_bind, gives_lift, gives_pure, Prod.exists, Prod.mk.injEq]
  constructor
  · rintro ⟨t₁, execs, mid, hvisits, _, exits, _, ⟨hsweep, rfl⟩, ⟨rfl, rfl⟩, rfl⟩
    exact ⟨t₁, execs, exits, hvisits, hsweep, rfl⟩
  · rintro ⟨t₁, execs, exits, hvisits, hsweep, rfl⟩
    exact ⟨t₁, execs, later, hvisits, t', exits, later, ⟨hsweep, rfl⟩, ⟨rfl, rfl⟩, rfl⟩

theorem keys_eq : keys (fun p => db.lookup p) = {p | p ∈ db} :=
  Set.ext fun _ => mem_keys

theorem exec_or_exit (ev : Event) : ev.exitPid.isSome = !ev.execPid.isSome := by
  cases ev with
  | exec p e => rfl
  | exit p e t => rfl

/-- The reports of a scan are the execs, and then the exits. -/
theorem filter_reports {execs exits : List Event} (hexecs : ∀ ev ∈ execs, ev.execPid.isSome)
    (hexits : ∀ ev ∈ exits, ev.exitPid.isSome) :
    (execs ++ exits).filter (fun ev => ev.execPid.isSome) = execs
      ∧ ((execs ++ exits).filter fun ev => ev.exitPid.isSome) = exits := by
  simp only [exec_or_exit, Bool.not_eq_true'] at hexits
  constructor
  · rw [List.filter_append, List.filter_eq_self.mpr hexecs, List.filter_eq_nil_iff.mpr,
      List.append_nil]
    intro ev hev
    exact Bool.eq_false_iff.mp (hexits ev hev)
  · rw [List.filter_append, List.filter_eq_nil_iff.mpr, List.filter_eq_self.mpr, List.nil_append]
    · intro ev hev
      rw [exec_or_exit, hexits ev hev]
      rfl
    · intro ev hev
      rw [exec_or_exit, hexecs ev hev]
      exact Bool.false_ne_true

theorem isSome_of_visits (hgo : Gives (Go.visits roots sys db pids) now (db', evs) later) :
    ∀ ev ∈ evs, ev.execPid.isSome := by
  intro ev hev
  obtain ⟨p, ent, rfl, -⟩ := ((Go.visits_spec hgo).execs ev).mp hev
  rfl

theorem isSome_of_sweep (db : Db) (pids : List Int32) (gone : Int) :
    ∀ ev ∈ (Go.sweep db pids gone).2, ev.exitPid.isSome := by
  intro ev hev
  obtain ⟨p, ent, rfl, -⟩ := Go.mem_sweep.mp hev
  rfl

theorem isSome_of_exits (gone : Int) (m : Int32 → Option MacEntry) (goners : List Int32) :
    ∀ ev ∈ goners.filterMap (exitOf gone m), ev.exitPid.isSome := by
  intro ev hev
  obtain ⟨p, ent, rfl, -⟩ := mem_exits.mp hev
  rfl

/-- The second loops report the same, if the batch is of all that are gone. -/
theorem exits_perm {gone : Int} (h : macdb.Holds t fun p => db.lookup p)
    (hall : ∀ p, p ∈ C.goners t pids ↔ p ∈ db ∧ p ∉ pids) :
    ((C.goners t pids).filterMap (exitOf gone fun p => db.lookup p)).Perm
      (Go.sweep db pids gone).2 := by
  refine (List.perm_ext_iff_of_nodup (exits_nodup (goners_nodup h))
    (List.Nodup.of_map Event.pid Go.sweep_once)).mpr ?_
  intro ev
  rw [mem_exits, Go.mem_sweep]
  constructor
  · rintro ⟨p, ent, rfl, hp, hent, hd⟩
    exact ⟨p, ent, rfl, hent, ((hall p).mp hp).2, hd⟩
  · rintro ⟨p, ent, rfl, hent, hp, hd⟩
    exact ⟨p, ent, rfl, (hall p).mpr ⟨AList.lookup_isSome.mp (Option.isSome_of_mem hent), hp⟩,
      hent, hd⟩

/-- The batch is of all that are gone if there are no more than it has room for. -/
theorem mem_goners_iff (h : macdb.Holds t fun p => db.lookup p)
    (hbatch : {p | p ∈ db ∧ p ∉ pids}.ncard ≤ 1024) :
    p ∈ C.goners t pids ↔ p ∈ db ∧ p ∉ pids := by
  have hset : {p | p ∈ db ∧ p ∉ pids} = {p | (db.lookup p).isSome
      ∧ (!(liveBitmap pids (slotOf p) && pids.contains p)) = true} := by
    ext p
    exact (and_congr_left' mem_keys.symm).trans
      ((mem_goners_all pids h).symm.trans h.mem_keysWhere)
  rw [hset, ← h.length_keysWhere] at hbatch
  rw [C.goners, List.take_of_length_le hbatch, mem_goners_all pids h]
  exact and_congr_left' mem_keys

theorem procListAllPIDs_of_ne (htick : tick.pids = some pids) (hpids : pids ≠ []) :
    procListAllPIDs tick.pids = some pids := by
  cases pids with
  | nil => exact absurd rfl hpids
  | cons p pids =>
      rw [htick]
      rfl

/-- After the first loop the processes that are gone are those that were noted before. -/
theorem gone_after_visits (hgo : Gives (Go.visits roots sys db pids) now (db', evs) later) :
    {p | p ∈ db' ∧ p ∉ pids} = {p | p ∈ db ∧ p ∉ pids} := by
  ext p
  refine and_congr_left fun hp => ?_
  rw [(Go.visits_spec hgo).keys, or_iff_left hp]

theorem ints_of_shallow (hint : Ints fun p => db.lookup p)
    (hshallow : ∀ p d, Go.FoundAt roots sys db pids now p d → d < 2 ^ 31)
    (hgo : Gives (Go.visits roots sys db pids) now (db', evs) later) :
    Ints fun p => db'.lookup p := by
  intro p ent hent
  by_cases hp : p ∈ db
  · have hkept := (Go.visits_spec hgo).kept p hp
    exact hint p ent (hkept.symm.trans hent)
  · by_cases hd : 0 ≤ ent.depth
    · exact hshallow p ent.depth ((Go.foundAt_iff hgo).mpr ⟨hp, hd, ent, hent, rfl⟩)
    · unfold IsInt
      omega

/-- What the second loop leaves is what that of the Go code leaves. -/
theorem lookup_swept {gone : Int} (hall : ∀ p, p ∈ goners ↔ p ∈ db ∧ p ∉ pids) :
    (fun p => if p ∈ goners then none else db.lookup p) =
      fun p => (Go.sweep db pids gone).1.lookup p := by
  funext p
  rw [Go.lookup_sweep]
  by_cases hp : p ∈ pids
  · rw [if_pos hp, if_neg fun hin => ((hall p).mp hin).2 hp]
  · rw [if_neg hp]
    by_cases hdb : p ∈ db
    · rw [if_pos ((hall p).mpr ⟨hdb, hp⟩)]
    · rw [AList.lookup_eq_none.mpr hdb, ite_self]

theorem ints_sweep {gone : Int} (hint : Ints fun p => db.lookup p) :
    Ints fun p => (Go.sweep db pids gone).1.lookup p := by
  intro p ent hent
  simp only [Go.lookup_sweep] at hent
  split at hent
  · exact hint p ent hent
  · cases hent

/-- With nothing noted and nothing in the list nothing is done. -/
theorem scan_nothing (gone : Int) (hnone : ∀ p, p ∉ db) :
    (Go.sweep db [] gone).2 = [] ∧ ∀ p, (Go.sweep db [] gone).1.lookup p = db.lookup p := by
  constructor
  · refine List.eq_nil_iff_forall_not_mem.mpr fun ev hev => ?_
    obtain ⟨p, ent, -, hent, -⟩ := Go.mem_sweep.mp hev
    exact hnone p (AList.lookup_isSome.mp (Option.isSome_of_mem hent))
  · intro p
    rw [Go.lookup_sweep, if_neg List.not_mem_nil, AList.lookup_eq_none.mpr (hnone p)]

/-- A scan that fits does what that of the Go code does. -/
theorem exists_scan_of_fits (h : macdb.Holds t fun p => db.lookup p)
    (hint : Ints fun p => db.lookup p)
    (hfits : ∀ pids, tick.pids = some pids → Fits roots sys db pids now)
    (hgo : Gives (Go.scan roots sys db tick) now (db', evs') later) :
    ∃ t' evs, Gives (scanMacDB roots sys t tick) now (t', evs) later ∧ Agrees t' db' evs evs'
      ∧ (macdb.Holds t' fun p => db'.lookup p) ∧ Ints fun p => db'.lookup p := by
  have hnull : procListAllPIDs tick.pids = none →
      Gives (scanMacDB roots sys t tick) now (t, []) now := by
    intro htick
    exact (gives_scan_null htick).mpr ⟨rfl, rfl, rfl⟩
  cases htick : tick.pids with
  | none =>
      obtain ⟨rfl, rfl, rfl⟩ := (Go.gives_scan_none htick).mp hgo
      exact ⟨t, [], hnull (by rw [htick]; rfl), ⟨rfl, List.Perm.refl _, fun p => depths_eq h⟩, h,
        hint⟩
  | some pids =>
      have hfit := hfits pids htick
      obtain ⟨db₁, execs, hvisits, rfl, rfl⟩ := (Go.gives_scan_some htick).mp hgo
      by_cases hpids : pids = []
      · subst hpids
        obtain ⟨heq, rfl⟩ := gives_pure.mp hvisits
        obtain ⟨rfl, rfl⟩ := Prod.mk.inj heq
        obtain ⟨hexits, hsame⟩ := scan_nothing tick.now (hfit.listed rfl)
        refine ⟨t, [], hnull (by rw [htick]; rfl), ⟨?_, ?_, ?_⟩, ?_, ints_sweep hint⟩
        · rw [hexits, List.append_nil]
        · rw [hexits, List.append_nil]
        · intro p
          rw [depths_eq h, Go.depths, hsame]
        · rw [funext hsame]
          exact h
      · have hroom := hfit.room
        rw [← keys_eq] at hroom
        have hint₁ := ints_of_shallow hint hfit.shallow hvisits
        obtain ⟨t₁, hvisits', h₁⟩ := exists_visits h hroom (fun p ent _ => hint₁ p ent) hvisits
        have hall : ∀ p, p ∈ C.goners t₁ pids ↔ p ∈ db₁ ∧ p ∉ pids := by
          intro p
          refine mem_goners_iff h₁ ?_
          rw [gone_after_visits hvisits]
          exact hfit.batch
        obtain ⟨t', hsweep, h'⟩ := sweep_returns tick.now h₁ (goners_nodup h₁)
        rw [lookup_swept hall] at h'
        have hscan := (gives_scan_list (procListAllPIDs_of_ne htick hpids)).mpr
          ⟨t₁, execs, _, hvisits', hsweep, rfl⟩
        have hreports := filter_reports (isSome_of_visits hvisits)
          (isSome_of_exits tick.now (fun p => db₁.lookup p) (C.goners t₁ pids))
        have hreports' := filter_reports (isSome_of_visits hvisits)
          (isSome_of_sweep db₁ pids tick.now)
        refine ⟨t', _, hscan, ⟨?_, ?_, fun p => depths_eq h'⟩, h', ints_sweep hint₁⟩
        · rw [hreports.1, hreports'.1]
        · rw [hreports.2, hreports'.2]
          exact exits_perm h₁ hall

/-- A scan that does what that of the Go code does fits. -/
theorem fits_of_agrees {later' : Nat} (h : macdb.Holds t fun p => db.lookup p)
    (hint : Ints fun p => db.lookup p) (htick : tick.pids = some pids)
    (hgo : Gives (Go.scan roots sys db tick) now (db', evs') later)
    (hscan : Gives (scanMacDB roots sys t tick) now (t', evs) later')
    (hagrees : ∀ p, C.depths t' p = Go.depths db' p) : Fits roots sys db pids now := by
  obtain ⟨db₁, execs, hvisits, rfl, -⟩ := (Go.gives_scan_some htick).mp hgo
  by_cases hpids : pids = []
  · subst hpids
    obtain ⟨heq, -⟩ := gives_pure.mp hvisits
    obtain ⟨rfl, -⟩ := Prod.mk.inj heq
    obtain ⟨rfl, -, -⟩ := (gives_scan_null (by rw [htick]; rfl)).mp hscan
    have hnone : ∀ p, p ∉ db₁ := by
      intro p hp
      have hdepth := hagrees p
      rw [depths_eq h, Go.depths, Go.lookup_sweep, if_neg List.not_mem_nil] at hdepth
      exact AList.lookup_eq_none.mp (Option.map_eq_none_iff.mp hdepth) hp
    refine ⟨fun _ => hnone, ?_, ?_, ?_⟩
    · have hempty : {p | p ∈ db₁} ∪ {p | p ∈ ([] : List Int32)} = keys fun p => db₁.lookup p := by
        rw [keys_eq]
        ext p
        simp
      rw [hempty]
      exact h.keys_ncard_le
    · have hempty : {p | p ∈ db₁ ∧ p ∉ ([] : List Int32)} = ∅ :=
        Set.eq_empty_iff_forall_notMem.mpr fun p hp => hnone p hp.1
      rw [hempty, Set.ncard_empty]
      exact Nat.zero_le _
    · rintro p d ⟨-, -, pre, post, -, -, -, -, -, heq, -⟩
      exact absurd heq.symm (List.append_ne_nil_of_right_ne_nil pre (List.cons_ne_nil p post))
  · obtain ⟨t₁, execs', exits, hvisits', hsweep, -⟩ :=
      (gives_scan_list (procListAllPIDs_of_ne htick hpids)).mp hscan
    obtain ⟨m₁, h₁, hkeys, hint₁⟩ := visits_holds h hint hvisits'
    obtain ⟨t₂, hsweep', h'⟩ := sweep_returns tick.now h₁ (goners_nodup h₁)
    obtain ⟨rfl, -⟩ := Prod.mk.inj (hsweep.unique hsweep')
    rw [keys_eq] at hkeys
    refine ⟨fun hnil => absurd hnil hpids, ?_, ?_, ?_⟩
    · rw [← hkeys]
      exact h₁.keys_ncard_le
    · have hsub : {p | p ∈ db ∧ p ∉ pids} ⊆ ((C.goners t₁ pids).toFinset : Set Int32) := by
        rintro p ⟨hp, hout⟩
        have hdepth := hagrees p
        rw [depths_eq h', Go.depths, Go.lookup_sweep, if_neg hout] at hdepth
        have hsome : (m₁ p).isSome := by
          have hmem : p ∈ keys m₁ := by
            rw [hkeys]
            exact Or.inl hp
          exact hmem
        rw [Finset.mem_coe, List.mem_toFinset]
        by_contra hnot
        rw [if_neg hnot, Option.map_none, Option.map_eq_none_iff] at hdepth
        rw [hdepth] at hsome
        cases hsome
      have hcard := Set.ncard_le_ncard hsub (Finset.finite_toSet _)
      rw [Set.ncard_coe_finset] at hcard
      have hlength : (C.goners t₁ pids).length ≤ 1024 := List.length_take_le 1024 _
      exact hcard.trans ((List.toFinset_card_le _).trans hlength)
    · intro p d hfound
      obtain ⟨-, -, pre, post, -, -, -, -, -, hsplit, -⟩ := id hfound
      have hp : p ∈ pids := by
        rw [hsplit]
        exact List.mem_append_right pre List.mem_cons_self
      obtain ⟨-, -, ent, hent, rfl⟩ := (Go.foundAt_iff hvisits).mp hfound
      have hdepth := hagrees p
      rw [depths_eq h', Go.depths, Go.lookup_sweep, if_pos hp, hent] at hdepth
      obtain ⟨e, he, heq⟩ := Option.map_eq_some_iff.mp hdepth
      rw [← heq]
      split at he
      · cases he
      · exact hint₁ p e he

/-! ## Runs -/

abbrev Scan := Machine.Step MacDb Tick (List Event)

def SameScan (x : Scan) (y : Go.Scan) : Prop := Agrees x.after y.after x.out y.out

def AllFit (roots : List Int32) (sys : Sys) (ys : List Go.Scan) : Prop :=
  ∀ y ∈ ys, ∀ pids, y.event.pids = some pids → Fits roots sys y.before pids y.start

variable {xs : List Scan} {ys : List Go.Scan}

theorem exists_run_of_fits (h : macdb.Holds t fun p => db.lookup p)
    (hint : Ints fun p => db.lookup p)
    (hgo : Gives (Machine.run (Go.scan roots sys) db ticks) now (db', ys) later)
    (hfits : AllFit roots sys ys) :
    ∃ t' xs, Gives (Machine.run (scanMacDB roots sys) t ticks) now (t', xs) later
      ∧ List.Forall₂ SameScan xs ys := by
  induction ticks generalizing t db now ys with
  | nil =>
      obtain ⟨rfl, rfl, rfl⟩ := gives_run_nil.mp hgo
      exact ⟨t, [], gives_run_nil.mpr ⟨rfl, rfl, rfl⟩, .nil⟩
  | cons tick ticks ih =>
      obtain ⟨db₁, evs', mid, ys, hscan, hrest, rfl⟩ := gives_run_cons.mp hgo
      obtain ⟨hfit, hrestfits⟩ := List.forall_mem_cons.mp hfits
      obtain ⟨t₁, evs, hscan', hagrees, h₁, hint₁⟩ := exists_scan_of_fits h hint hfit hscan
      obtain ⟨t', xs, hrun, hsame⟩ := ih h₁ hint₁ hrest hrestfits
      exact ⟨t', _, gives_run_cons.mpr ⟨t₁, evs, mid, xs, hscan', hrun, rfl⟩, .cons hagrees hsame⟩

theorem fits_of_run {later' : Nat} (h : macdb.Holds t fun p => db.lookup p)
    (hint : Ints fun p => db.lookup p)
    (hgo : Gives (Machine.run (Go.scan roots sys) db ticks) now (db', ys) later)
    (hrun : Gives (Machine.run (scanMacDB roots sys) t ticks) now (t', xs) later')
    (hsame : List.Forall₂ SameScan xs ys) : AllFit roots sys ys := by
  induction ticks generalizing t db now xs ys with
  | nil =>
      obtain ⟨-, rfl, -⟩ := gives_run_nil.mp hgo
      exact fun y hy => absurd hy List.not_mem_nil
  | cons tick ticks ih =>
      obtain ⟨db₁, evs', mid, ys, hscan, hrest, rfl⟩ := gives_run_cons.mp hgo
      obtain ⟨t₁, evs, mid', xs, hscan', hrest', rfl⟩ := gives_run_cons.mp hrun
      obtain ⟨hagrees, hrestsame⟩ := List.forall₂_cons.mp hsame
      have hfit : ∀ pids, tick.pids = some pids → Fits roots sys db pids now := fun pids htick =>
        fits_of_agrees h hint htick hscan hscan' hagrees.depths
      obtain ⟨t₂, evs₂, hscan₂, -, h₁, hint₁⟩ := exists_scan_of_fits h hint hfit hscan
      obtain ⟨heq, rfl⟩ := hscan'.unique hscan₂
      obtain ⟨rfl, rfl⟩ := Prod.mk.inj heq
      exact List.forall_mem_cons.mpr ⟨hfit, ih h₁ hint₁ hrest hrest' hrestsame⟩

/-- From the same table the tracers report and hold the same exactly where all scans fit. -/
theorem run_agrees_iff (h : macdb.Holds t fun p => db.lookup p)
    (hint : ∀ p ent, db.lookup p = some ent → ent.depth < 2 ^ 31)
    (hgo : Gives (Machine.run (Go.scan roots sys) db ticks) now (db', ys) later) :
    (∃ t' xs later', Gives (Machine.run (scanMacDB roots sys) t ticks) now (t', xs) later'
      ∧ List.Forall₂ SameScan xs ys) ↔ AllFit roots sys ys := by
  constructor
  · rintro ⟨t', xs, later', hrun, hsame⟩
    exact fits_of_run h hint hgo hrun hsame
  · intro hfits
    obtain ⟨t', xs, hrun, hsame⟩ := exists_run_of_fits h hint hgo hfits
    exact ⟨t', xs, later, hrun, hsame⟩

theorem holds_macDB : macdb.Holds macDB fun p => (∅ : Db).lookup p := Scheme.holds_empty _ _

theorem ints_empty (p : Int32) (ent : MacEntry) (h : (∅ : Db).lookup p = some ent) :
    ent.depth < 2 ^ 31 := by
  cases h

/-- Every process is a child of process 1. -/
def childrenOf1 : Sys where
  bsdInfo _ _ := some ⟨1, 501, 0, 0⟩
  pidArgv _ _ := [[108, 115]]

theorem childrenOf1_agrees : ∃ db ys later,
    Gives (Machine.run (Go.scan [1] childrenOf1) ∅ [⟨some [7, 20], 1⟩, ⟨some [7], 2⟩]) 0 (db, ys)
        later
      ∧ ((∃ t' xs later', Gives (Machine.run (scanMacDB [1] childrenOf1) macDB
          [⟨some [7, 20], 1⟩, ⟨some [7], 2⟩]) 0 (t', xs) later' ∧ List.Forall₂ SameScan xs ys)
        ↔ AllFit [1] childrenOf1 ys)
      ∧ ys.map (fun y => y.out.map fun ev => (ev.execPid, ev.exitPid)) =
        [[(some 7, none), (some 20, none)], [(none, some 20)]] := by
  obtain ⟨⟨db, ys⟩, later, hgo, hout⟩ := exists_gives
    (Machine.run (Go.scan [1] childrenOf1) ∅ [⟨some [7, 20], 1⟩, ⟨some [7], 2⟩])
    (fun r => r.2.map fun y => y.out.map fun ev => (ev.execPid, ev.exitPid))
    [[(some 7, none), (some 20, none)], [(none, some 20)]] 0 3 (by decide +kernel)
  exact ⟨db, ys, later, hgo, run_agrees_iff holds_macDB ints_empty hgo, hout⟩

/-! ## A crowd that is gone at once -/

/-- The climb ends where it starts. -/
theorem exists_pidDepth (now : Nat) (cached : Int32 → Option Int) (p : Int32) :
    ∃ later, Gives (pidDepth Go.succ [1] childrenOf1 cached p) now 0 later := by
  have hclimb : ∃ later,
      Gives (climbStep [1] childrenOf1 cached (p, 0)) now (.inr (0, 0)) later := by
    unfold climbStep
    simp only []
    by_cases hp : [1].contains p = true
    · rw [if_pos hp]
      exact ⟨now, gives_pure.mpr ⟨rfl, rfl⟩⟩
    · rw [if_neg hp]
      refine ⟨now + 1, gives_bind.mpr ⟨_, _, gives_observe.mpr ⟨rfl, rfl⟩, ?_⟩⟩
      have hself : ¬((1 : Int32) = 0 ∨ 1 = p) := by
        rintro (h | rfl)
        · exact absurd h (by decide)
        · exact hp (by decide)
      simp only [childrenOf1]
      rw [if_neg hself]
      exact gives_pure.mpr ⟨rfl, rfl⟩
  obtain ⟨later, hclimb⟩ := hclimb
  exact ⟨later, gives_bind.mpr ⟨(0, 0), later, gives_loop_now hclimb, gives_pure.mpr ⟨rfl, rfl⟩⟩⟩

theorem exists_examine (now : Nat) (cached : Int32 → Option Int) (p : Int32) :
    ∃ ent evs later, Gives (examine Go.succ [1] childrenOf1 cached p) now (ent, evs) later := by
  obtain ⟨later, hdepth⟩ := exists_pidDepth (now + 1) cached p
  have hargv : Gives (observe fun now => childrenOf1.pidArgv now p) later [[108, 115]]
      (later + 1) := gives_observe.mpr ⟨rfl, rfl⟩
  refine ⟨⟨1, 501, 0, 0, some [108, 115], 0⟩, [.exec p ⟨1, 501, 0, 0, some [108, 115], 0⟩],
    later + 1, gives_bind.mpr ⟨some ⟨1, 501, 0, 0⟩, now + 1, gives_observe.mpr ⟨rfl, rfl⟩, ?_⟩⟩
  exact gives_bind.mpr ⟨0, later, hdepth, gives_bind.mpr ⟨_, _, hargv, gives_pure.mpr ⟨rfl, rfl⟩⟩⟩

theorem exists_visits_of_crowd (now : Nat) (db : Db) (pids : List Int32) :
    ∃ db' evs later, Gives (Go.visits [1] childrenOf1 db pids) now (db', evs) later := by
  induction pids generalizing now db with
  | nil => exact ⟨db, [], now, gives_pure.mpr ⟨rfl, rfl⟩⟩
  | cons pid pids ih =>
      have hvisit : ∃ db₁ execs mid,
          Gives (Go.visit [1] childrenOf1 db pid) now (db₁, execs) mid := by
        by_cases hpid : pid ∈ db
        · exact ⟨db, [], now, (Go.gives_visit_of_mem hpid).mpr ⟨rfl, rfl, rfl⟩⟩
        · obtain ⟨ent, evs, later, hent⟩ := exists_examine now (Go.depths db) pid
          exact ⟨_, evs, later, (Go.gives_visit_of_new hpid).mpr ⟨ent, hent, rfl⟩⟩
      obtain ⟨db₁, execs, mid, hvisit⟩ := hvisit
      obtain ⟨db', rest, later, hrest⟩ := ih mid db₁
      exact ⟨db', _, later, Go.gives_visits_cons.mpr ⟨db₁, execs, mid, rest, hvisit, hrest, rfl⟩⟩

theorem exists_scan_of_crowd (now : Nat) (db : Db) (htick : tick.pids = some pids) :
    ∃ db' evs later, Gives (Go.scan [1] childrenOf1 db tick) now (db', evs) later := by
  obtain ⟨db₁, execs, later, hvisits⟩ := exists_visits_of_crowd now db pids
  exact ⟨_, _, later, (Go.gives_scan_some htick).mpr ⟨db₁, execs, hvisits, rfl, rfl⟩⟩

/-- One process more than a batch has room for. -/
def crowd : List Int32 := (List.range 1025).map crowdPid

theorem mem_crowd : p ∈ crowd ↔ ∃ i < 1025, crowdPid i = p := by
  rw [crowd, List.mem_map]
  simp only [List.mem_range]

theorem crowd_nodup : crowd.Nodup := by
  refine List.Nodup.map_on ?_ List.nodup_range
  intro i hi j hj heq
  have hlt : ∀ {i}, i ∈ List.range 1025 → i ≤ pidCap := fun hi =>
    (List.mem_range.mp hi).le.trans (by decide)
  exact crowdPid_inj (hlt hi) (hlt hj) heq

/-- The PIDs of a crowd are those from 2 on. -/
theorem toInt_crowdPid {i : Nat} (hi : i < 1025) : (crowdPid i).toInt = i + 2 := by
  rw [crowdPid, UInt32.toInt32_ofNat', Int32.toInt_ofNat_of_lt (by omega)]
  rfl

theorem one_lt_of_mem_crowd (hp : p ∈ crowd) : 1 < p := by
  obtain ⟨i, hi, rfl⟩ := mem_crowd.mp hp
  rw [Int32.lt_iff_toInt_lt, toInt_crowdPid hi]
  change (1 : Int) < i + 2
  omega

theorem crowd_not_agrees : ¬∀ roots sys t db ticks now db' ys later,
    (macdb.Holds t fun p => db.lookup p) →
    (∀ p ent, db.lookup p = some ent → ent.depth < 2 ^ 31) →
    (∀ tick ∈ ticks, ∃ pids, tick.pids = some pids ∧ pids.length < pidCap ∧ pids.Nodup
      ∧ ∀ p ∈ pids, 0 < p) →
    Gives (Machine.run (Go.scan roots sys) db ticks) now (db', ys) later →
    ∃ t' xs later', Gives (Machine.run (scanMacDB roots sys) t ticks) now (t', xs) later'
      ∧ List.Forall₂ SameScan xs ys := by
  intro hall
  obtain ⟨db₁, evs₁, mid, hfirst⟩ :=
    exists_scan_of_crowd 0 ∅ (rfl : Tick.pids ⟨some crowd, 1⟩ = some crowd)
  obtain ⟨db₂, evs₂, later, hsecond⟩ :=
    exists_scan_of_crowd mid db₁ (rfl : Tick.pids ⟨some [1], 2⟩ = some [1])
  have hgo := gives_run_cons.mpr ⟨db₁, evs₁, mid, _, hfirst, gives_run_cons.mpr
    ⟨db₂, evs₂, later, [], hsecond, gives_run_nil.mpr ⟨rfl, rfl, rfl⟩, rfl⟩, rfl⟩
  obtain ⟨t', xs, later', hrun, hsame⟩ := hall _ _ _ _ _ _ _ _ _ holds_macDB ints_empty (by
    intro tick htick
    rcases List.mem_cons.mp htick with rfl | htick
    · refine ⟨crowd, rfl, ?_, crowd_nodup, fun p hp =>
        Int32.lt_trans (by decide) (one_lt_of_mem_crowd hp)⟩
      rw [crowd, List.length_map, List.length_range]
      decide
    · rw [List.mem_singleton.mp htick]
      refine ⟨[1], rfl, by decide, List.nodup_singleton 1, fun p hp => ?_⟩
      rw [List.mem_singleton.mp hp]
      decide) hgo
  have hfit := fits_of_run holds_macDB ints_empty hgo hrun hsame _
    (List.mem_cons_of_mem _ (List.mem_singleton_self _)) [1] rfl
  have hset : {p | p ∈ db₁ ∧ p ∉ [(1 : Int32)]} = (crowd.toFinset : Set Int32) := by
    ext p
    rw [Finset.mem_coe, List.mem_toFinset, ← (Go.scan_spec rfl hfirst).keys p]
    refine and_iff_left_of_imp ?_
    intro hp heq
    rw [List.mem_singleton.mp heq, (Go.scan_spec rfl hfirst).keys] at hp
    exact absurd (one_lt_of_mem_crowd hp) (by decide)
  have hbatch := hfit.batch
  rw [hset, Set.ncard_coe_finset, List.toFinset_card_of_nodup crowd_nodup, crowd, List.length_map,
    List.length_range] at hbatch
  exact absurd hbatch (by decide)

end Tracep.Exectrace.Darwin.C
