import Tracep.Lib.Chase
import Tracep.Exectrace.TableTracer

/-!
# Depths

While no process gets another parent, the depth of a process is how many are
between it and the nearest watched one above it (`IsDepth`). `pidDepth` goes
up to a process whose depth has been noted and counts from there. What has
been noted are depths, whatever the order of the events (`Coherent`), so
`pidDepth` gives the depth whatever has been noted (`pidDepth_nearest`).
-/

namespace Tracep.Exectrace

open Exec Relation

/-! ## The depth of a process -/

/-- `q` is the parent of `p`, and not the top of the tree. -/
def Parent (f : Int32 → Int32) (p q : Int32) : Prop := f p = q ∧ 0 < q

/-- The processes have the same parents whenever they are asked for. -/
def Still (proc : Proc) (f : Int32 → Int32) : Prop := ∀ now p, proc.ppid now p = f p

/-- No process is above itself. -/
def Acyclic (f : Int32 → Int32) : Prop := ∀ p, ¬TransGen (Parent f) p p

/-- A watched process has depth 0. For another one it is the number of processes strictly
between it and the nearest watched one above it, or `-1` if there is none. -/
def IsDepth (f : Int32 → Int32) (watchPIDs : List Int32) (pid : Int32) (d : Int) : Prop :=
  if pid ∈ watchPIDs then d = 0
  else (∃ between q, Through (Parent f) (· ∈ watchPIDs) pid between q ∧ d = between.length)
    ∨ (¬∃ between q, Through (Parent f) (· ∈ watchPIDs) pid between q) ∧ d = -1

section Depth

variable {f : Int32 → Int32} {watchPIDs : List Int32} {p q : Int32} {d : Int}

theorem parent_rightUnique : Relator.RightUnique (Parent f) := fun _ _ _ h h' => h.1.symm.trans h'.1

theorem IsDepth.root (h : p ∈ watchPIDs) : IsDepth f watchPIDs p 0 := by
  rw [IsDepth, if_pos h]

theorem IsDepth.top (hp : p ∉ watchPIDs) (h : f p ≤ 0) : IsDepth f watchPIDs p (-1) := by
  rw [IsDepth, if_neg hp]
  refine Or.inr ⟨?_, rfl⟩
  rintro ⟨between, q, hq⟩
  refine not_through_of_stuck (fun q hpq => ?_) hq
  obtain ⟨rfl, hpos⟩ := hpq
  exact absurd hpos (Int32.not_lt.mpr h)

theorem IsDepth.child (hp : p ∉ watchPIDs) (hpq : Parent f p q) (hq : q ∈ watchPIDs) :
    IsDepth f watchPIDs p 0 := by
  rw [IsDepth, if_neg hp]
  exact Or.inl ⟨[], q, .here hpq hq, rfl⟩

/-- A process is one deeper than its parent. -/
theorem IsDepth.next (hp : p ∉ watchPIDs) (hpq : Parent f p q) (hq : q ∉ watchPIDs)
    (h : IsDepth f watchPIDs q d) : IsDepth f watchPIDs p (if d < 0 then -1 else d + 1) := by
  rw [IsDepth, if_neg hq] at h
  rw [IsDepth, if_neg hp]
  rcases h with ⟨between, r, hr, rfl⟩ | ⟨hnone, rfl⟩
  · refine Or.inl ⟨q :: between, r, hr.next hpq hq, ?_⟩
    rw [if_neg (by omega), List.length_cons]
    rfl
  · refine Or.inr ⟨?_, rfl⟩
    rintro ⟨between, r, hr⟩
    rcases hr.first parent_rightUnique hpq with ⟨hgoal, -⟩ | ⟨-, rest, -, hrest⟩
    · exact hq hgoal
    · exact hnone ⟨rest, r, hrest⟩

theorem IsDepth.unique {d' : Int} (h : IsDepth f watchPIDs p d) (h' : IsDepth f watchPIDs p d') :
    d = d' := by
  unfold IsDepth at h h'
  split at h
  · next hp =>
      rw [if_pos hp] at h'
      exact h.trans h'.symm
  next hp =>
  rw [if_neg hp] at h'
  rcases h with ⟨between, q, hq, rfl⟩ | ⟨hnone, rfl⟩ <;>
    rcases h' with ⟨between', q', hq', rfl⟩ | ⟨hnone', rfl⟩
  · rw [hq.unique parent_rightUnique hq']
  · exact absurd ⟨between, q, hq⟩ hnone'
  · exact absurd ⟨between', q', hq'⟩ hnone
  · rfl

/-- A depth fits in 32 bits, since the processes between have different PIDs. -/
theorem IsDepth.lt (h : IsDepth f watchPIDs p d) (hacyclic : Acyclic f) : -1 ≤ d ∧ d < 2 ^ 31 := by
  rw [IsDepth] at h
  split at h
  · omega
  rcases h with ⟨between, q, hq, rfl⟩ | ⟨-, rfl⟩
  · have hcount : ((between ++ [q]).map Int32.toInt).toFinset ⊆ Finset.Ico 1 (2 ^ 31) := by
      intro n hn
      obtain ⟨x, hx, rfl⟩ := List.mem_map.mp (List.mem_toFinset.mp hn)
      obtain ⟨y, -, hpos⟩ := exists_rel_of_isChain hq.chain x hx
      exact Finset.mem_Ico.mpr ⟨Int32.lt_iff_toInt_lt.mp hpos, x.toInt_lt⟩
    have hnodup := (hq.nodup hacyclic).map fun _ _ => Int32.toInt_inj.mp
    have hle := Finset.card_le_card hcount
    rw [List.toFinset_card_of_nodup hnodup, List.length_map, List.length_append, Int.card_Ico] at hle
    change between.length + 1 ≤ 2147483647 at hle
    omega
  · omega

end Depth

/-! ## What `pidDepth` gives -/

/-- The next number is the next one, of those that can be depths. -/
def Port.Counts (P : Port) : Prop := ∀ d, 0 ≤ d → d + 1 < 2 ^ 31 → P.succ d = d + 1

theorem Go.port_counts : Go.port.Counts := by
  intro d hlo hhi
  change (BitVec.ofInt 64 (d + 1)).toInt = d + 1
  rw [BitVec.toInt_ofInt]
  exact Int.bmod_eq_of_le (by omega) (by omega)

theorem C.port_counts : C.port.Counts := by
  intro d hlo hhi
  exact int32_eq (by omega) hhi

section PidDepth

variable {P : Port} {opts : Options} {proc : Proc} {cached : Int32 → Option Int} {f : Int32 → Int32}
  {pid q : Int32} {d : Int} {now mid later : Nat}

theorem pidDepth_now (h : (pidDepthStep P opts proc cached pid).run now = (.inl d, later)) :
    (pidDepth P opts proc cached pid now).Returns (d, later) := by
  refine ⟨1, ?_⟩
  change pidDepthRun P opts proc cached 1 pid now = _
  rw [pidDepthRun, h]

theorem pidDepth_call (h : (pidDepthStep P opts proc cached pid).run now = (.inr q, mid))
    (hq : (pidDepth P opts proc cached q mid).Returns (d, later)) :
    (pidDepth P opts proc cached pid now).Returns (if d < 0 then -1 else P.succ d, later) := by
  obtain ⟨calls, hcalls⟩ := hq
  change pidDepthRun P opts proc cached calls q mid = _ at hcalls
  refine ⟨calls + 1, ?_⟩
  change pidDepthRun P opts proc cached (calls + 1) pid now = _
  simp only [pidDepthRun, h, hcalls]
  rfl

/-- What the next call does, while no parent changes. -/
theorem pidDepthStep_run (P : Port) (opts : Options) (cached : Int32 → Option Int) (pid : Int32)
    (now : Nat) (hstill : Still proc f) :
    (pidDepthStep P opts proc cached pid).run now
      = if pid ∈ opts.watchPIDs then (.inl 0, now)
        else if f pid ≤ 0 then (.inl (-1), now + 1)
        else if f pid ∈ opts.watchPIDs then (.inl 0, now + 1)
        else
          match cached (f pid) with
          | some depth => (.inl (P.succ depth), now + 1)
          | none => (.inr (f pid), now + 1) := by
  have hroot (p : Int32) : isWatchRoot opts p = true ↔ p ∈ opts.watchPIDs := List.contains_iff_mem
  unfold pidDepthStep
  by_cases hpid : pid ∈ opts.watchPIDs
  · rw [if_pos hpid, if_pos ((hroot pid).mpr hpid)]
    rfl
  rw [if_neg hpid, if_neg (mt (hroot pid).mp hpid), StateT.run_bind, ask_run, hstill, pure_bind]
  simp only []
  by_cases hneg : f pid < 0
  · rw [if_pos hneg, if_pos (Int32.le_of_lt hneg)]
    rfl
  by_cases hzero : f pid = 0
  · rw [if_neg hneg, if_pos hzero, if_pos (hzero ▸ Int32.le_refl 0)]
    rfl
  have hpos : ¬f pid ≤ 0 := fun hle => hneg (Int32.lt_of_le_of_ne hle hzero)
  rw [if_neg hneg, if_neg hzero, if_neg hpos]
  by_cases hwatched : f pid ∈ opts.watchPIDs
  · rw [if_pos hwatched, if_pos ((hroot _).mpr hwatched)]
    rfl
  rw [if_neg hwatched, if_neg (mt (hroot _).mp hwatched)]
  cases cached (f pid) <;> rfl

/-- What has been noted are depths. -/
def Cached (f : Int32 → Int32) (watchPIDs : List Int32) (cached : Int32 → Option Int) : Prop :=
  ∀ p d, cached p = some d → 0 ≤ d ∧ IsDepth f watchPIDs p d

theorem cached_nothing (f : Int32 → Int32) (watchPIDs : List Int32) :
    Cached f watchPIDs fun _ => none := nofun

/-- `pidDepth` comes to an end, and gives the depth. -/
theorem exists_pidDepth (hP : P.Counts) (hstill : Still proc f) (hacyclic : Acyclic f)
    (hcached : Cached f opts.watchPIDs cached) (pid : Int32) (now : Nat) :
    ∃ d later, (pidDepth P opts proc cached pid now).Returns (d, later)
      ∧ IsDepth f opts.watchPIDs pid d := by
  induction pid using (wellFounded_of_acyclic hacyclic).induction generalizing now with
  | _ pid ih =>
      have hstep := pidDepthStep_run P opts cached pid now hstill
      by_cases hpid : pid ∈ opts.watchPIDs
      · rw [if_pos hpid] at hstep
        exact ⟨0, now, pidDepth_now hstep, .root hpid⟩
      rw [if_neg hpid] at hstep
      by_cases htop : f pid ≤ 0
      · rw [if_pos htop] at hstep
        exact ⟨-1, now + 1, pidDepth_now hstep, .top hpid htop⟩
      rw [if_neg htop] at hstep
      have hparent : Parent f pid (f pid) := ⟨rfl, Int32.not_le.mp htop⟩
      by_cases hwatched : f pid ∈ opts.watchPIDs
      · rw [if_pos hwatched] at hstep
        exact ⟨0, now + 1, pidDepth_now hstep, .child hpid hparent hwatched⟩
      rw [if_neg hwatched] at hstep
      -- the parent's depth is noted, or `pidDepth` finds it
      cases hnoted : cached (f pid) with
      | some depth =>
          rw [hnoted] at hstep
          obtain ⟨hpos, hdepth⟩ := hcached _ _ hnoted
          have hnext := hdepth.next hpid hparent hwatched
          rw [if_neg (Int.not_lt.mpr hpos)] at hnext
          rw [← hP depth hpos (hnext.lt hacyclic).2] at hnext
          exact ⟨_, now + 1, pidDepth_now hstep, hnext⟩
      | none =>
          rw [hnoted] at hstep
          obtain ⟨d, later, hret, hdepth⟩ := ih (f pid) hparent (now + 1)
          refine ⟨_, later, pidDepth_call hstep hret, ?_⟩
          have hnext := hdepth.next hpid hparent hwatched
          split
          · next hneg => rwa [if_pos hneg] at hnext
          · next hneg =>
              rw [if_neg hneg] at hnext
              rwa [hP d (Int.not_lt.mp hneg) (hnext.lt hacyclic).2]

end PidDepth

/-! ## Runs -/

/-- The depths of the entries are depths. -/
def Coherent (f : Int32 → Int32) (opts : Options) (s : State) : Prop :=
  Cached f opts.watchPIDs fun p => (s.db p).map Entry.depth

namespace Map

variable {P : Port} {opts : Options} {proc : Proc} {f : Int32 → Int32} {s s' : State} {ev : Event}
  {evs : List Event} {lines : List Line} {steps : List Step}

/-- An event leaves depths in the entries. -/
theorem handle_coherent (hP : P.Counts) (hstill : Still proc f) (hacyclic : Acyclic f)
    (hs : Coherent f opts s) (hret : (handle P opts proc s ev).Returns (s', lines)) :
    Coherent f opts s' := by
  intro p depth hdepth
  obtain ⟨e, he, rfl⟩ := Option.map_eq_some_iff.mp hdepth
  rcases handle_cases hret with ⟨hdb, -⟩ | ⟨pid, tsNs, d, now, hacc, hdb, -⟩
    | ⟨pid, tsNs, ent, exitCode, -, -, hdb, -⟩
  · rw [hdb] at he
    exact hs p e.depth (Option.map_eq_some_iff.mpr ⟨e, he, rfl⟩)
  · rw [hdb] at he
    by_cases hp : p = pid
    · subst hp
      rw [Function.update_self] at he
      obtain rfl := Option.some.inj he
      obtain ⟨d', later, hret', hdepth'⟩ := exists_pidDepth hP hstill hacyclic hs p s.now
      obtain ⟨rfl, -⟩ := Prod.mk.inj (hret'.unique hacc.depth)
      exact ⟨hacc.nonneg, hdepth'⟩
    · rw [Function.update_of_ne hp] at he
      exact hs p e.depth (Option.map_eq_some_iff.mpr ⟨e, he, rfl⟩)
  · rw [hdb] at he
    by_cases hp : p = pid
    · subst hp
      rw [Function.update_self] at he
      cases he
    · rw [Function.update_of_ne hp] at he
      exact hs p e.depth (Option.map_eq_some_iff.mpr ⟨e, he, rfl⟩)

theorem runWith_coherent (hP : P.Counts) (hstill : Still proc f) (hacyclic : Acyclic f)
    (hs : Coherent f opts s) (hret : (runWith (handle P opts proc) id s evs).Returns (s', steps)) :
    Coherent f opts s' := by
  induction evs generalizing s steps with
  | nil =>
      obtain ⟨rfl, rfl⟩ := Prod.mk.inj (returns_pure.mp hret)
      exact hs
  | cons ev evs ih =>
      obtain ⟨s₁, lines, rest, hev, hevs, rfl⟩ := runWith_cons_iff.mp hret
      exact ih (handle_coherent hP hstill hacyclic hs hev) hevs

/-- A handler comes to an end when `pidDepth` does. -/
theorem exists_handle (h : ∀ pid, ∃ r, (Map.pidDepth P opts proc s pid).Returns r) (ev : Event) :
    ∃ r, (handle P opts proc s ev).Returns r := by
  cases ev with
  | exec data tsNs =>
      change ∃ r, (handleExec P opts proc s data tsNs).Returns r
      unfold handleExec
      by_cases h8 : data.length < 8
      · rw [if_pos h8]
        exact ⟨_, returns_pure.mpr rfl⟩
      rw [if_neg h8, readPid_eq (Nat.le_of_not_lt h8), pure_bind]
      obtain ⟨⟨d, now⟩, hdepth⟩ := h (pidOf data)
      simp only [hdepth.bind_iff]
      split <;> exact ⟨_, returns_pure.mpr rfl⟩
  | exit data tsNs =>
      change ∃ r, (handleExit opts s data tsNs).Returns r
      unfold handleExit
      by_cases h24 : data.length < 24
      · rw [if_pos h24]
        exact ⟨_, returns_pure.mpr rfl⟩
      have hcode := readLe32_eq (d := data) (i := 8) 8 rfl (by omega)
      rw [if_neg h24, readPid_eq (by omega), hcode, pure_bind, pure_bind]
      cases s.db (pidOf data) with
      | none => exact ⟨_, returns_pure.mpr rfl⟩
      | some ent =>
          simp only []
          split <;> exact ⟨_, returns_pure.mpr rfl⟩

theorem exists_runWith (hP : P.Counts) (hstill : Still proc f) (hacyclic : Acyclic f)
    (hs : Coherent f opts s) (evs : List Event) :
    ∃ s' steps, (runWith (handle P opts proc) id s evs).Returns (s', steps) := by
  induction evs generalizing s with
  | nil => exact ⟨s, [], returns_pure.mpr rfl⟩
  | cons ev evs ih =>
      have hends (pid : Int32) : ∃ r, (Map.pidDepth P opts proc s pid).Returns r := by
        obtain ⟨d, later, hret, -⟩ := exists_pidDepth hP hstill hacyclic hs pid s.now
        exact ⟨(d, later), hret⟩
      obtain ⟨⟨s₁, lines⟩, hev⟩ := exists_handle hends ev
      obtain ⟨s', rest, hevs⟩ := ih (handle_coherent hP hstill hacyclic hs hev)
      exact ⟨s', _, runWith_cons_iff.mpr ⟨s₁, lines, rest, hev, hevs, rfl⟩⟩

end Map

theorem coherent_start (f : Int32 → Int32) (opts : Options) (now : Nat) :
    Coherent f opts ⟨fun _ => none, now⟩ := cached_nothing f opts.watchPIDs

/-- Where what has been noted are depths, `pidDepth` gives the same as with nothing noted. -/
theorem exists_pidDepth_fresh {P : Port} {opts : Options} {proc : Proc}
    {cached : Int32 → Option Int} {f : Int32 → Int32} (hP : P.Counts) (hstill : Still proc f)
    (hacyclic : Acyclic f) (hcached : Cached f opts.watchPIDs cached) (pid : Int32) (now : Nat) :
    ∃ d later later', (pidDepth P opts proc cached pid now).Returns (d, later)
      ∧ (pidDepth P opts proc (fun _ => none) pid now).Returns (d, later')
      ∧ IsDepth f opts.watchPIDs pid d := by
  obtain ⟨d, later, hret, hdepth⟩ := exists_pidDepth hP hstill hacyclic hcached pid now
  obtain ⟨d', later', hret', hdepth'⟩ :=
    exists_pidDepth hP hstill hacyclic (cached_nothing f opts.watchPIDs) pid now
  obtain rfl := hdepth.unique hdepth'
  exact ⟨d, later, later', hret, hret', hdepth⟩

/-- After any events `pidDepth` gives the depth, as it does with nothing noted. A run in Go comes
to an end. One in C may not find room for an entry, and this is about those that do. -/
theorem pidDepth_nearest {opts : Options} {proc : Proc} {f : Int32 → Int32} (hstill : Still proc f)
    (hacyclic : Acyclic f) (evs : List Event) :
    (∃ s steps, (Go.run opts proc evs).Returns (s, steps) ∧ ∀ pid, ∃ d later later',
        (Map.pidDepth Go.port opts proc s pid).Returns (d, later)
          ∧ (pidDepth Go.port opts proc (fun _ => none) pid s.now).Returns (d, later')
          ∧ IsDepth f opts.watchPIDs pid d)
      ∧ ∀ s steps, (C.run opts proc evs).Returns (s, steps) → ∀ pid, ∃ d later later',
        (C.pidDepth opts proc s pid).Returns (d, later)
          ∧ (pidDepth C.port opts proc (fun _ => none) pid s.now).Returns (d, later')
          ∧ IsDepth f opts.watchPIDs pid d := by
  constructor
  · have hstart := coherent_start f opts 0
    obtain ⟨s, steps, hrun⟩ :=
      Map.exists_runWith Go.port_counts hstill hacyclic hstart evs
    have hs := Map.runWith_coherent Go.port_counts hstill hacyclic hstart hrun
    exact ⟨s, steps, hrun, fun pid =>
      exists_pidDepth_fresh Go.port_counts hstill hacyclic hs pid s.now⟩
  · intro s steps hrun pid
    have hs := Map.runWith_coherent C.port_counts hstill hacyclic (coherent_start f opts 0)
      (C.run_returns hrun).2
    rw [C.pidDepth_eq]
    exact exists_pidDepth_fresh C.port_counts hstill hacyclic hs pid s.now

/-- 7 is a child of 5, and 5 of 3. -/
def family (p : Int32) : Int32 := if p = 7 then 5 else if p = 5 then 3 else 0

def relatives : Proc := { C.orphans with ppid := fun _ => family }

theorem family_acyclic : Acyclic family := by
  have hlt {p q : Int32} (h : Parent family p q) : q < p := by
    obtain ⟨rfl, hpos⟩ := h
    unfold family at hpos ⊢
    split
    · next h7 => exact h7 ▸ by decide
    · next h7 =>
        rw [if_neg h7] at hpos
        split
        · next h5 => exact h5 ▸ by decide
        · next h5 =>
            rw [if_neg h5] at hpos
            exact absurd hpos (by decide)
  intro p h
  have hself : ∀ q, TransGen (Parent family) p q → q < p := by
    intro q hq
    induction hq with
    | single hpq => exact hlt hpq
    | tail _ hqr ih => exact Int32.lt_trans (hlt hqr) ih
  exact Int32.lt_irrefl (hself p h)

theorem pidDepth_relatives :
    (∃ s steps, (Go.run { C.watchInit with watchPIDs := [3] } relatives
        [.exec (le32Bytes 5 ++ le32Bytes 5) 0]).Returns (s, steps) ∧ ∀ pid, ∃ d later later',
        (Map.pidDepth Go.port { C.watchInit with watchPIDs := [3] } relatives s pid).Returns (d, later)
          ∧ (pidDepth Go.port { C.watchInit with watchPIDs := [3] } relatives (fun _ => none) pid
              s.now).Returns (d, later')
          ∧ IsDepth family [3] pid d)
      ∧ ∀ s steps, (C.run { C.watchInit with watchPIDs := [3] } relatives
        [.exec (le32Bytes 5 ++ le32Bytes 5) 0]).Returns (s, steps) → ∀ pid, ∃ d later later',
        (C.pidDepth { C.watchInit with watchPIDs := [3] } relatives s pid).Returns (d, later)
          ∧ (pidDepth C.port { C.watchInit with watchPIDs := [3] } relatives (fun _ => none) pid
              s.now).Returns (d, later')
          ∧ IsDepth family [3] pid d :=
  pidDepth_nearest (fun _ _ => rfl) family_acyclic [.exec (le32Bytes 5 ++ le32Bytes 5) 0]

end Tracep.Exectrace
