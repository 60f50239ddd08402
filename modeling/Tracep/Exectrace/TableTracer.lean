import Tracep.Exectrace.Tracer

/-!
# The table as the entries of the C tracer

The C handlers do to the table what those of `Map` do to a map of the
entries in it (`C.handle_returns`), so a run of the C tracer is a run of the
other (`C.run_returns`). The one thing a map cannot do is run out of room:
`handleExec` uses an invalid entry exactly when a process is to be noted for
which there is none (`C.handle_faults_iff`), and so a run is safe exactly
when it never comes to that (`C.run_safe_iff`). Entries leave the table by
exits alone, so enough processes that do not exit bring it there
(`C.crowd_faults`).
-/

namespace Tracep.Exectrace.C

open Exec Probing

variable {opts : Options} {proc : Proc} {s s' : State} {ev : Event} {lines : List Line}
  {m : Int32 → Option PidEntry} {pid : Int32}

/-! ## What the table holds -/

/-- The table is sound. -/
def State.Valid (s : State) : Prop := ∃ m, piddb.Holds s.table m

theorem view_db (h : piddb.Holds s.table m) :
    s.view.db = fun pid => (m pid).map PidEntry.toEntry := by
  funext pid
  change ((piddb.find s.table pid).map fun ent => (s.table.slots ent).val).map _ = _
  rw [h.find_val]

theorem view_db_apply (h : piddb.Holds s.table m) (pid : Int32) :
    s.view.db pid = (m pid).map PidEntry.toEntry := congrFun (view_db h) pid

theorem keys_view (h : piddb.Holds s.table m) : keys s.view.db = keys m := by
  ext pid
  change (s.view.db pid).isSome ↔ (m pid).isSome
  rw [view_db_apply h, Option.isSome_map]

theorem pidDepth_eq (s : State) (pid : Int32) :
    pidDepth opts proc s pid = Map.pidDepth port opts proc s.view pid := by
  have hcached : (fun ppid => (piddbFind s.table ppid).map fun ent => (s.table.slots ent).val.depth)
      = fun ppid => (s.view.db ppid).map Entry.depth := by
    funext ppid
    change _ = Option.map _ (Option.map _ (Option.map _ (piddbFind s.table ppid)))
    rw [Option.map_map, Option.map_map]
    rfl
  rw [pidDepth, hcached]
  rfl

/-! ## One event -/

/-- An exec is accepted for which there is no room: the process has no entry, and as many
others have one as the table has slots. -/
def Overflows (opts : Options) (proc : Proc) (s : Exectrace.State) (ev : Event) : Prop :=
  ∃ pid, Accepts port opts proc s ev pid ∧ s.db pid = none ∧ (keys s.db).ncard = pidCap

theorem handleExec_faults_iff (h : piddb.Holds s.table m) {data : Bytes} {tsNs : UInt64} :
    (handleExec opts proc s data tsNs).Faults ↔ Overflows opts proc s.view (.exec data tsNs) := by
  have hview : s.view.db (pidOf data) = none ↔ m (pidOf data) = none := by
    rw [view_db_apply h, Option.map_eq_none_iff]
  unfold handleExec
  by_cases h8 : data.length < 8
  · rw [if_pos h8]
    refine iff_of_false not_faults_pure ?_
    rintro ⟨pid, ⟨tsNs', d, now, hacc⟩, -⟩
    obtain ⟨data', heq, hlen, -⟩ := hacc.exec
    obtain ⟨rfl, -⟩ := Event.exec.inj heq
    omega
  have hsafe : ¬(Map.pidDepth port opts proc s.view (pidOf data)).Faults := not_faults_pidDepth
  rw [if_neg h8, readPid_eq (Nat.le_of_not_lt h8), pure_bind, pidDepth_eq, faults_bind,
    or_iff_right hsafe]
  constructor
  · rintro ⟨⟨d, now⟩, hdepth, hfault⟩
    by_cases hd : d < 0
    · simp [if_pos hd] at hfault
    simp only [if_neg hd] at hfault
    refine ⟨pidOf data, ⟨tsNs, d, now, ⟨data, rfl, Nat.le_of_not_lt h8, rfl⟩, hdepth,
      Int.not_lt.mp hd⟩, ?_⟩
    rw [hview, keys_view h, ← h.get_eq_none]
    cases hget : piddbGet s.table (pidOf data) with
    | none => exact hget
    | some r =>
        rw [hget] at hfault
        exact absurd hfault not_faults_pure
  · rintro ⟨pid, ⟨tsNs', d, now, hacc⟩, hfull⟩
    obtain ⟨data', heq, -, rfl⟩ := hacc.exec
    obtain ⟨rfl, -⟩ := Event.exec.inj heq
    refine ⟨(d, now), hacc.depth, ?_⟩
    have hget : piddbGet s.table (pidOf data) = none := by
      rw [hview, keys_view h, ← h.get_eq_none] at hfull
      exact hfull
    simp only [if_neg (Int.not_lt.mpr hacc.nonneg), hget]
    exact faults_fault

theorem not_faults_handleExit (h : piddb.Holds s.table m) {data : Bytes} {tsNs : UInt64} :
    ¬(handleExit opts s data tsNs).Faults := by
  unfold handleExit
  by_cases h24 : data.length < 24
  · rw [if_pos h24]
    exact not_faults_pure
  have hcode := readLe32_eq (d := data) (i := 8) 8 rfl (by omega)
  rw [if_neg h24, readPid_eq (by omega), hcode, pure_bind, pure_bind]
  cases hfind : piddbFind s.table (pidOf data) with
  | none => exact not_faults_pure
  | some ent =>
      obtain ⟨t', hret, -⟩ := h.delete (pidOf data)
      refine not_faults_bind hret.not_faults fun t _ => ?_
      split <;> exact not_faults_pure

/-- A handler uses an invalid entry only for want of room. -/
theorem handle_faults_iff (h : s.Valid) :
    (handle opts proc s ev).Faults ↔ Overflows opts proc s.view ev := by
  obtain ⟨m, hm⟩ := h
  cases ev with
  | exec data tsNs => exact handleExec_faults_iff hm
  | exit data tsNs =>
      refine iff_of_false (not_faults_handleExit hm) ?_
      rintro ⟨pid, ⟨tsNs', d, now, hacc⟩, -⟩
      obtain ⟨data', heq, -⟩ := hacc.exec
      cases heq

theorem view_update (now : Nat) {table : PidDb} {e : Option PidEntry}
    (h : piddb.Holds s.table m) (h' : piddb.Holds table (Function.update m pid e)) :
    State.view ⟨table, now⟩
      = ⟨Function.update s.view.db pid (e.map PidEntry.toEntry), now⟩ := by
  have hdb : (State.view ⟨table, now⟩).db
      = Function.update s.view.db pid (e.map PidEntry.toEntry) := by
    rw [view_db (s := ⟨table, now⟩) h', view_db h]
    exact Function.comp_update (Option.map PidEntry.toEntry) m pid e
  rw [← hdb]
  rfl

theorem handleExec_returns (h : piddb.Holds s.table m) {data : Bytes} {tsNs : UInt64}
    (hret : (handleExec opts proc s data tsNs).Returns (s', lines)) :
    s'.Valid ∧ (Map.handleExec port opts proc s.view data tsNs).Returns (s'.view, lines) := by
  unfold handleExec at hret
  unfold Map.handleExec
  by_cases h8 : data.length < 8
  · rw [if_pos h8] at hret ⊢
    obtain ⟨rfl, rfl⟩ := Prod.mk.inj (returns_pure.mp hret)
    exact ⟨⟨m, h⟩, returns_pure.mpr rfl⟩
  rw [if_neg h8, readPid_eq (Nat.le_of_not_lt h8), pure_bind] at hret ⊢
  rw [pidDepth_eq] at hret
  obtain ⟨⟨d, now⟩, hdepth, hrest⟩ := returns_bind.mp hret
  rw [hdepth.bind_iff]
  by_cases hd : d < 0
  · simp only [if_pos hd] at hrest ⊢
    obtain ⟨rfl, rfl⟩ := Prod.mk.inj (returns_pure.mp hrest)
    exact ⟨⟨m, h⟩, returns_pure.mpr rfl⟩
  simp only [if_neg hd] at hrest ⊢
  generalize (readFirstArg port proc (pidOf data)).run now = first at hrest ⊢
  obtain ⟨cmdline, now₁⟩ := first
  simp only [] at hrest ⊢
  generalize (printExec port opts proc (pidOf data) d).run now₁ = printed at hrest ⊢
  obtain ⟨line, now₂⟩ := printed
  simp only [] at hrest ⊢
  cases hget : piddbGet s.table (pidOf data) with
  | none =>
      rw [hget] at hrest
      exact absurd hrest not_returns_fault
  | some r =>
      obtain ⟨table, ent, created⟩ := r
      obtain ⟨hslot, rfl, htable⟩ := h.get_cases hget
      have hstore := htable.store (j := ent) (by rw [hslot]) ⟨d, tsNs, some cmdline⟩
      simp only [hslot, Function.update_idem] at hstore
      simp only [hget, hslot] at hrest
      obtain ⟨rfl, rfl⟩ := Prod.mk.inj (returns_pure.mp hrest)
      refine ⟨⟨_, hstore⟩, returns_pure.mpr ?_⟩
      have hent : (s.view.db (pidOf data)).getD ⟨0, 0, []⟩
          = ((m (pidOf data)).getD piddb.fresh).toEntry := by
        rw [view_db_apply h]
        cases m (pidOf data) <;> rfl
      have hfound : (s.view.db (pidOf data)).isSome = !(m (pidOf data)).isNone := by
        rw [view_db_apply h]
        cases m (pidOf data) <;> rfl
      rw [view_update _ h hstore, hent, hfound]
      rfl

theorem handleExit_returns (h : piddb.Holds s.table m) {data : Bytes} {tsNs : UInt64}
    (hret : (handleExit opts s data tsNs).Returns (s', lines)) :
    s'.Valid ∧ (Map.handleExit opts s.view data tsNs).Returns (s'.view, lines) := by
  unfold handleExit at hret
  unfold Map.handleExit
  by_cases h24 : data.length < 24
  · rw [if_pos h24] at hret ⊢
    obtain ⟨rfl, rfl⟩ := Prod.mk.inj (returns_pure.mp hret)
    exact ⟨⟨m, h⟩, returns_pure.mpr rfl⟩
  have hcode := readLe32_eq (d := data) (i := 8) 8 rfl (by omega)
  rw [if_neg h24, readPid_eq (by omega), hcode, pure_bind, pure_bind] at hret ⊢
  rw [view_db_apply h, ← h.find_val]
  unfold piddbFind at hret
  cases hfind : piddb.find s.table (pidOf data) with
  | none =>
      rw [hfind] at hret
      obtain ⟨rfl, rfl⟩ := Prod.mk.inj (returns_pure.mp hret)
      exact ⟨⟨m, h⟩, returns_pure.mpr rfl⟩
  | some ent =>
      obtain ⟨table, hdelete, htable⟩ := h.delete (pidOf data)
      have hview := view_update s.now h htable
      simp only [hfind] at hret
      rw [piddbDelete, hdelete.bind_iff] at hret
      by_cases hexit : (!opts.showExit) = true
      · simp only [if_pos hexit] at hret ⊢
        obtain ⟨rfl, rfl⟩ := Prod.mk.inj (returns_pure.mp hret)
        rw [hview]
        exact ⟨⟨_, htable⟩, returns_pure.mpr rfl⟩
      · simp only [if_neg hexit] at hret ⊢
        obtain ⟨rfl, rfl⟩ := Prod.mk.inj (returns_pure.mp hret)
        rw [hview]
        exact ⟨⟨_, htable⟩, returns_pure.mpr rfl⟩

/-- What the handlers do to the table they do to the entries in it. -/
theorem handle_returns (h : s.Valid) (hret : (handle opts proc s ev).Returns (s', lines)) :
    s'.Valid ∧ (Map.handle port opts proc s.view ev).Returns (s'.view, lines) := by
  obtain ⟨m, hm⟩ := h
  cases ev with
  | exec data tsNs => exact handleExec_returns hm hret
  | exit data tsNs => exact handleExit_returns hm hret

/-! ## Runs -/

theorem runWith_returns {evs : List Event} {steps : List Step} (h : s.Valid)
    (hret : (runWith (handle opts proc) State.view s evs).Returns (s', steps)) :
    s'.Valid ∧ (runWith (Map.handle port opts proc) id s.view evs).Returns (s'.view, steps) := by
  induction evs generalizing s steps with
  | nil =>
      obtain ⟨rfl, rfl⟩ := Prod.mk.inj (returns_pure.mp hret)
      exact ⟨h, returns_pure.mpr rfl⟩
  | cons ev evs ih =>
      obtain ⟨s₁, lines, rest, hev, hevs, rfl⟩ := runWith_cons_iff.mp hret
      obtain ⟨h₁, hmap⟩ := handle_returns h hev
      obtain ⟨h₂, hmaps⟩ := ih h₁ hevs
      exact ⟨h₂, runWith_cons_iff.mpr ⟨s₁.view, lines, rest, hmap, hmaps, rfl⟩⟩

theorem holds_pidDB : piddb.Holds pidDB (fun _ => none) := Scheme.holds_empty _ _

/-- A run of the C tracer is a run of the tracer that keeps its entries in a map. -/
theorem run_returns {evs : List Event} {steps : List Step}
    (hret : (run opts proc evs).Returns (s, steps)) :
    s.Valid ∧ (Map.run port opts proc evs).Returns (s.view, steps) := by
  have hstart : State.view ⟨pidDB, 0⟩ = ⟨fun _ => none, 0⟩ := by
    have hdb : (State.view ⟨pidDB, 0⟩).db = fun _ => none := view_db (s := ⟨pidDB, 0⟩) holds_pidDB
    rw [← hdb]
    rfl
  have h := runWith_returns ⟨_, holds_pidDB⟩ hret
  rwa [hstart] at h

/-- No invalid entry is used in a run exactly when it never comes to a process to be noted
with the table full of others. -/
theorem run_safe_iff (opts : Options) (proc : Proc) (evs : List Event) :
    ¬(run opts proc evs).Faults ↔
      ∀ pre ev post, evs = pre ++ ev :: post → ∀ s steps,
        (run opts proc pre).Returns (s, steps) → ¬Overflows opts proc s.view ev := by
  rw [run, runWith_faults_iff]
  constructor
  · intro hsafe pre ev post heq s steps hret hover
    exact hsafe ⟨pre, ev, post, heq, s, steps, hret,
      (handle_faults_iff (run_returns hret).1).mpr hover⟩
  · rintro hroom ⟨pre, ev, post, heq, s, steps, hret, hfault⟩
    exact hroom pre ev post heq s steps hret ((handle_faults_iff (run_returns hret).1).mp hfault)

/-! ## A crowd -/

/-- `-t`. -/
def watchInit : Options := ⟨[1], false, false, false, true, true, false⟩

/-- The processes are children of `init`, and there is nothing else to be read of them. -/
def orphans : Proc where
  ppid _ _ := 1
  cmdline _ _ := none
  comm _ _ := none
  environ _ _ := none
  exe _ _ := []
  cwd _ _ := []
  user _ _ := []

def crowdPid (i : Nat) : Int32 := (UInt32.ofNat (i + 2)).toInt32

def crowdExec (i : Nat) : Event :=
  .exec (le32Bytes (UInt32.ofNat (i + 2)) ++ le32Bytes (UInt32.ofNat (i + 2))) 0

/-- So many processes execute a program, and none exits. -/
def crowd (n : Nat) : List Event := (List.range n).map crowdExec

theorem crowdPid_inj {i j : Nat} (hi : i ≤ pidCap) (hj : j ≤ pidCap)
    (h : crowdPid i = crowdPid j) : i = j := by
  have hnat := congrArg (fun pid => pid.toUInt32.toNat) h
  simp only [crowdPid, UInt32.toUInt32_toInt32, UInt32.toNat_ofNat'] at hnat
  unfold pidCap at hi hj
  omega

theorem accepts_crowdExec (s : Exectrace.State) (i : Nat) :
    Accepts port watchInit orphans s (crowdExec i) (crowdPid i) := by
  have hpid : pidOf (le32Bytes (UInt32.ofNat (i + 2)) ++ le32Bytes (UInt32.ofNat (i + 2)))
      = crowdPid i := congrArg UInt32.toInt32 (le32_le32Bytes _)
  have hdepth : ∃ now, (Map.pidDepth port watchInit orphans s (crowdPid i)).Returns (0, now) := by
    by_cases hroot : isWatchRoot watchInit (crowdPid i) = true
    · refine ⟨s.now, 1, ?_⟩
      change pidDepthRun _ _ _ _ 1 _ _ = _
      rw [pidDepthRun, pidDepthStep, if_pos hroot]
      rfl
    · refine ⟨s.now + 1, 1, ?_⟩
      change pidDepthRun _ _ _ _ 1 _ _ = _
      rw [pidDepthRun, pidDepthStep, if_neg hroot]
      rfl
  obtain ⟨now, hnow⟩ := hdepth
  exact ⟨0, 0, now, ⟨_, rfl, Nat.le_refl 8, hpid⟩, hnow, Int.le_refl 0⟩

/-- While there is room an accepted exec is handled to the end. -/
theorem handle_ends (h : s.Valid) (hacc : Accepts port opts proc s.view ev pid)
    (hroom : ¬Overflows opts proc s.view ev) : ∃ r, (handle opts proc s ev).Returns r := by
  obtain ⟨m, hm⟩ := h
  obtain ⟨tsNs, d, now, hacc⟩ := hacc
  obtain ⟨data, rfl, h8, rfl⟩ := hacc.exec
  have hsafe : ¬(handleExec opts proc s data tsNs).Faults := (handleExec_faults_iff hm).not.mpr hroom
  change ∃ r, (handleExec opts proc s data tsNs).Returns r
  unfold handleExec at hsafe ⊢
  rw [if_neg (Nat.not_lt.mpr h8), readPid_eq h8, pure_bind, pidDepth_eq] at hsafe ⊢
  rw [hacc.depth.faults_bind_iff] at hsafe
  simp only [hacc.depth.bind_iff, if_neg (Int.not_lt.mpr hacc.nonneg)] at hsafe ⊢
  cases hget : piddbGet s.table (pidOf data) with
  | none =>
      rw [hget] at hsafe
      exact absurd faults_fault hsafe
  | some r => exact ⟨_, returns_pure.mpr rfl⟩

theorem ncard_crowd {n : Nat} (hn : n ≤ pidCap) :
    Set.ncard ((Finset.range n).image crowdPid : Set Int32) = n := by
  rw [Set.ncard_coe_finset, Finset.card_image_of_injOn, Finset.card_range]
  intro i hi j hj hij
  have hi := Finset.mem_range.mp hi
  have hj := Finset.mem_range.mp hj
  exact crowdPid_inj (by omega) (by omega) hij

/-- Each process of a crowd that there is room for has an entry in the end. -/
theorem crowd_noted : ∀ n ≤ pidCap, ∃ s steps,
    (run watchInit orphans (crowd n)).Returns (s, steps)
      ∧ keys s.view.db = (Finset.range n).image crowdPid
  | 0, _ => by
      refine ⟨⟨pidDB, 0⟩, [], returns_pure.mpr rfl, ?_⟩
      rw [keys_view holds_pidDB]
      simp [keys]
  | n + 1, hn => by
      obtain ⟨s, steps, hret, hkeys⟩ := crowd_noted n (Nat.le_of_succ_le hn)
      have hvalid := (run_returns hret).1
      have hacc := accepts_crowdExec s.view n
      have hroom : ¬Overflows watchInit orphans s.view (crowdExec n) := by
        rintro ⟨pid, -, -, hfull⟩
        rw [hkeys, ncard_crowd (Nat.le_of_succ_le hn)] at hfull
        omega
      obtain ⟨⟨s', lines⟩, hev⟩ := handle_ends hvalid hacc hroom
      refine ⟨s', steps ++ [⟨s.view, crowdExec n, lines, s'.view⟩], ?_, ?_⟩
      · rw [crowd, List.range_succ, List.map_append]
        exact runWith_snoc hret hev
      · obtain ⟨tsNs, d, now, hacc⟩ := hacc
        rcases Map.handle_cases (handle_returns hvalid hev).2 with
          ⟨-, -, hnone, -⟩ | ⟨pid, tsNs', d', now', hacc', hdb, -⟩ | ⟨pid, tsNs', ent, c, hexit, -⟩
        · exact absurd ⟨tsNs, d, now, hacc⟩ (hnone _)
        · obtain ⟨rfl, -⟩ := hacc.unique hacc'
          rw [hdb, Scheme.keys_update_some, hkeys, Finset.range_add_one, Finset.image_insert,
            Finset.coe_insert]
        · exact absurd ⟨tsNs, d, now, hacc⟩ hexit.not_accepts

/-- One process more than the table has slots for. -/
theorem crowd_faults : (run watchInit orphans (crowd (pidCap + 1))).Faults := by
  obtain ⟨s, steps, hret, hkeys⟩ := crowd_noted pidCap (Nat.le_refl _)
  refine runWith_faults_iff.mpr ⟨crowd pidCap, crowdExec pidCap, [], ?_, s, steps, hret, ?_⟩
  · rw [crowd, List.range_succ, List.map_append]
    rfl
  rw [handle_faults_iff (run_returns hret).1]
  refine ⟨crowdPid pidCap, accepts_crowdExec _ _, ?_, ?_⟩
  · have hnew : crowdPid pidCap ∉ keys s.view.db := by
      rw [hkeys, Finset.mem_coe, Finset.mem_image]
      rintro ⟨i, hi, heq⟩
      have hi := Finset.mem_range.mp hi
      have := crowdPid_inj (Nat.le_of_lt hi) (Nat.le_refl _) heq
      omega
    exact Option.not_isSome_iff_eq_none.mp hnew
  · rw [hkeys, ncard_crowd (Nat.le_refl _)]

end Tracep.Exectrace.C
