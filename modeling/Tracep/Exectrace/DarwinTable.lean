import Tracep.Exectrace.DarwinRuns

/-!
# The macOS exec tracer of the C port

`scanMacDB` keeps the processes in the hash table `macDB`, and takes the
ones that are gone out of it in a batch of `1024` at most. It climbs to a
watched process as the Go code does, with depths that are `int`s.

What the first loop leaves in the table is what that of the Go code notes, if
there is room for it (`exists_visits`); where there is not the loop does not
get through (`visits_holds`). The second loop takes its batch out of the table
(`sweep_returns`).
-/

namespace Tracep.Exectrace.Darwin

open Exec Asking Machine Probing
open Exectrace.C (MacEntry MacDb macdb macDB macdbFind macdbGet macdbDelete pidCap slotOf)

namespace C

/-! ## The scan -/

def depths (t : MacDb) (pid : Int32) : Option Int :=
  (macdbFind t pid).map fun j => (t.slots j).val.depth

/-- `d + 1`, as an `int`. -/
def succ (d : Int) : Int := (d + 1).bmod (2 ^ 32)

/-- `liveBitmap`. -/
def liveBitmap (pids : List Int32) (i : Fin pidCap) : Bool := pids.any fun p => slotOf p == i

/-- `goners`: the batch of those that are not in the list. -/
def goners (t : MacDb) (pids : List Int32) : List Int32 :=
  (t.keysWhere fun p => !(liveBitmap pids (slotOf p) && pids.contains p)).take 1024

/-- The last loop of `scanMacDB`. -/
def sweep (now : Int) : MacDb → List Int32 → Exec (MacDb × List Event)
  | t, [] => return (t, [])
  | t, p :: goners =>
      match macdbFind t p with
      | none => sweep now t goners
      | some j => do
          let e := (t.slots j).val
          let t ← macdbDelete t p
          let (t, rest) ← sweep now t goners
          return (t, (if 0 ≤ e.depth then [.exit p e now] else []) ++ rest)

/-- `procListAllPIDs`, `NULL` for none. -/
def procListAllPIDs : Option (List Int32) → Option (List Int32)
  | some [] => none
  | pids => pids

section Scan

variable (roots : List Int32) (sys : Sys)

/-- One iteration of the first loop of `scanMacDB`. To store through `NULL` is a fault. -/
def visit (t : MacDb) (pid : Int32) : Asking (MacDb × List Event) :=
  match macdbFind t pid with
  | some _ => return (t, [])
  | none =>
      match macdbGet t pid with
      | none => liftM (fault : Exec (MacDb × List Event))
      | some (t, ne, _) => do
          let (ent, execs) ← examine succ roots sys (depths t) pid
          return (t.set ne { t.slots ne with val := ent } t.len, execs)

def visits : MacDb → List Int32 → Asking (MacDb × List Event)
  | t, [] => return (t, [])
  | t, pid :: pids => do
      let (t, execs) ← visit roots sys t pid
      let (t, rest) ← visits t pids
      return (t, execs ++ rest)

def scanMacDB (t : MacDb) (tick : Tick) : Asking (MacDb × List Event) :=
  match procListAllPIDs tick.pids with
  | none => return (t, [])
  | some pids => do
      let (t, execs) ← visits roots sys t pids
      let (t, exits) ← liftM (sweep tick.now t (goners t pids))
      return (t, execs ++ exits)

end Scan

end C

variable {roots : List Int32} {sys : Sys} {cached cached' : Int32 → Option Int} {pid p : Int32}
  {pids : List Int32} {ent : MacEntry} {evs : List Event} {now later : Nat} {d : Int}

/-! ## Depths -/

/-- The climb asks what is known of a depth only where there is one. -/
theorem climbStep_congr (hcached : ∀ p d, 0 ≤ d → (cached p = some d ↔ cached' p = some d)) :
    climbStep roots sys cached = climbStep roots sys cached' := by
  funext ⟨pid, calls⟩
  unfold climbStep
  simp only []
  split
  · rfl
  · refine bind_congr fun info => ?_
    cases info with
    | none => rfl
    | some info =>
        simp only []
        split
        · rfl
        · split
          · rfl
          · cases h : cached info.ppid with
            | some d =>
                by_cases hd : 0 ≤ d
                · rw [(hcached info.ppid d hd).mp h]
                · simp only [if_neg hd]
                  cases h' : cached' info.ppid with
                  | some d' =>
                      by_cases hd' : 0 ≤ d'
                      · have heq := ((hcached info.ppid d' hd').mpr h').symm.trans h
                        exact absurd (Option.some.inj heq ▸ hd') hd
                      · simp only [if_neg hd']
                  | none => rfl
            | none =>
                cases h' : cached' info.ppid with
                | some d' =>
                    by_cases hd' : 0 ≤ d'
                    · cases ((hcached info.ppid d' hd').mpr h').symm.trans h
                    · simp only [if_neg hd']
                | none => rfl

/-- Where the climb ends there is no depth, none to add to, or a known one. -/
theorem climbStep_done {s : Int32 × Nat} {calls : Nat}
    (h : Gives (climbStep roots sys cached s) now (.inr (d, calls)) later) :
    d = 0 ∨ d = -1 ∨ ∃ p, cached p = some d := by
  obtain ⟨pid, calls'⟩ := s
  unfold climbStep at h
  simp only [] at h
  split at h
  · exact Or.inl (Prod.mk.inj (Sum.inr.inj (gives_pure.mp h).1)).1
  · obtain ⟨info, mid, -, hrest⟩ := gives_bind.mp h
    cases info with
    | none => exact Or.inr (Or.inl (Prod.mk.inj (Sum.inr.inj (gives_pure.mp hrest).1)).1)
    | some info =>
        simp only [] at hrest
        split at hrest
        · exact Or.inr (Or.inl (Prod.mk.inj (Sum.inr.inj (gives_pure.mp hrest).1)).1)
        · split at hrest
          · exact Or.inl (Prod.mk.inj (Sum.inr.inj (gives_pure.mp hrest).1)).1
          · split at hrest
            · next d' hknown =>
                split at hrest
                · obtain ⟨rfl, -⟩ := Prod.mk.inj (Sum.inr.inj (gives_pure.mp hrest).1)
                  exact Or.inr (Or.inr ⟨info.ppid, hknown⟩)
                · cases (gives_pure.mp hrest).1
            · cases (gives_pure.mp hrest).1

namespace C

/-- The depth is an `int`. -/
def IsInt (d : Int) : Prop := d < 2 ^ 31

theorem succ_isInt : IsInt (succ d) := by
  have h := Int.bmod_lt (x := d + 1) (m := 2 ^ 32) (by decide)
  unfold IsInt succ
  omega

theorem succ_eq (hd : 0 ≤ d) (h : IsInt (Go.succ d)) : succ d = Go.succ d := by
  unfold IsInt at h
  unfold Go.succ at h ⊢
  exact Int.bmod_eq_of_le (by omega) (by omega)

theorem ascend_isInt : IsInt (ascend succ d) := by
  unfold ascend
  split
  · unfold IsInt
    decide
  · exact succ_isInt

theorem iterate_isInt (hd : IsInt d) (n : Nat) : IsInt ((ascend succ)^[n] d) := by
  cases n with
  | zero => exact hd
  | succ n =>
      rw [Function.iterate_succ_apply']
      exact ascend_isInt

theorem ascend_eq (h : IsInt (ascend Go.succ d)) : ascend succ d = ascend Go.succ d := by
  unfold ascend at h ⊢
  split
  · rfl
  · next hd =>
      rw [if_neg hd] at h
      exact succ_eq (Int.not_lt.mp hd) h

theorem isInt_of_ascend (h : IsInt (ascend Go.succ d)) : IsInt d := by
  unfold ascend at h
  split at h
  · unfold IsInt
    omega
  · unfold IsInt Go.succ at h
    unfold IsInt
    omega

/-- The depths are the same while they are `int`s. -/
theorem iterate_eq (n : Nat) (h : IsInt ((ascend Go.succ)^[n] d)) :
    (ascend succ)^[n] d = (ascend Go.succ)^[n] d := by
  induction n with
  | zero => rfl
  | succ n ih =>
      rw [Function.iterate_succ_apply'] at h ⊢
      rw [Function.iterate_succ_apply', ih (isInt_of_ascend h), ascend_eq h]

theorem pidDepth_isInt (hcached : ∀ p d, cached p = some d → IsInt d)
    (h : Gives (pidDepth succ roots sys cached pid) now d later) : IsInt d := by
  obtain ⟨⟨e, calls⟩, mid, hloop, hrest⟩ := gives_bind.mp h
  obtain ⟨rfl, -⟩ := gives_pure.mp hrest
  obtain ⟨s, mid', hdone⟩ := exists_of_gives_loop hloop
  refine iterate_isInt ?_ calls
  rcases climbStep_done hdone with rfl | rfl | ⟨p, hp⟩
  · unfold IsInt
    decide
  · unfold IsInt
    decide
  · exact hcached p e hp

theorem gives_pidDepth (hcached : ∀ p d, 0 ≤ d → (cached p = some d ↔ cached' p = some d))
    (hd : IsInt d) (h : Gives (pidDepth Go.succ roots sys cached pid) now d later) :
    Gives (pidDepth succ roots sys cached' pid) now d later := by
  obtain ⟨⟨e, calls⟩, mid, hloop, hrest⟩ := gives_bind.mp h
  obtain ⟨rfl, rfl⟩ := gives_pure.mp hrest
  rw [climbStep_congr hcached] at hloop
  exact gives_bind.mpr ⟨(e, calls), later, hloop, gives_pure.mpr ⟨(iterate_eq calls hd).symm, rfl⟩⟩

theorem examine_isInt (hcached : ∀ p d, cached p = some d → IsInt d)
    (h : Gives (examine succ roots sys cached pid) now (ent, evs) later) : IsInt ent.depth := by
  cases hinfo : sys.bsdInfo now pid with
  | none =>
      rw [(Go.examine_none hinfo h).1]
      unfold IsInt
      decide
  | some info =>
      obtain ⟨mid, hdepth, -⟩ := Go.examine_some hinfo h
      exact pidDepth_isInt hcached hdepth

theorem gives_examine (hcached : ∀ p d, 0 ≤ d → (cached p = some d ↔ cached' p = some d))
    (hd : IsInt ent.depth) (h : Gives (examine Go.succ roots sys cached pid) now (ent, evs) later) :
    Gives (examine succ roots sys cached' pid) now (ent, evs) later := by
  unfold examine at h ⊢
  obtain ⟨info, mid, hinfo, hrest⟩ := gives_bind.mp h
  refine gives_bind.mpr ⟨info, mid, hinfo, ?_⟩
  cases info with
  | none => exact hrest
  | some info =>
      obtain ⟨d, mid', hdepth, hrest⟩ := gives_bind.mp hrest
      refine gives_bind.mpr ⟨d, mid', gives_pidDepth hcached ?_ hdepth, hrest⟩
      obtain ⟨argv, mid'', -, hpure⟩ := gives_bind.mp hrest
      obtain ⟨rfl, -⟩ := Prod.mk.inj (gives_pure.mp hpure).1
      exact hd

/-! ## The first loop -/

variable {t t' : MacDb} {m : Int32 → Option MacEntry} {db db' : Db} {goners : List Int32}

/-- The depths of the entries are `int`s, as those of a table are. -/
def Ints (m : Int32 → Option MacEntry) : Prop := ∀ p ent, m p = some ent → IsInt ent.depth

theorem Ints.update (h : Ints m) (hd : IsInt ent.depth) :
    Ints (Function.update m pid (some ent)) := by
  intro p e he
  by_cases hp : p = pid
  · rw [hp, Function.update_self] at he
    exact Option.some.inj he ▸ hd
  · rw [Function.update_of_ne hp] at he
    exact h p e he

theorem fresh_isInt : IsInt macdb.fresh.depth := by
  unfold IsInt
  decide

theorem depths_eq (h : macdb.Holds t m) : depths t p = (m p).map MacEntry.depth := by
  rw [← h.find_val (k := p), Option.map_map]
  rfl

theorem gives_visit_known (h : macdb.Holds t m) (hpid : m pid ≠ none) :
    Gives (visit roots sys t pid) now (t', evs) later ↔ t' = t ∧ evs = [] ∧ later = now := by
  have hval := h.find_val (k := pid)
  rw [visit, macdbFind]
  cases hfind : macdb.find t pid with
  | none =>
      rw [hfind] at hval
      exact absurd hval.symm hpid
  | some j => rw [gives_pure, Prod.mk.injEq, and_assoc]

/-- The depths that are noted while a new process is examined. -/
def known (m : Int32 → Option MacEntry) (pid : Int32) (p : Int32) : Option Int :=
  (Function.update m pid (some macdb.fresh) p).map MacEntry.depth

theorem find_new (h : macdb.Holds t m) (hpid : m pid = none) : macdbFind t pid = none := by
  have hval := h.find_val (k := pid)
  rw [hpid] at hval
  exact Option.map_eq_none_iff.mp hval

/-- A new process gets a slot while there is one, and is examined with its entry in the table. -/
theorem visit_room (roots : List Int32) (sys : Sys) (h : macdb.Holds t m) (hpid : m pid = none) (hroom : (keys m).ncard ≠ pidCap) :
    ∃ stored : MacEntry → MacDb,
      (visit roots sys t pid = do
        let (ent, execs) ← examine succ roots sys (known m pid) pid
        return (stored ent, execs))
      ∧ ∀ ent, macdb.Holds (stored ent) (Function.update m pid (some ent)) := by
  obtain ⟨t₁, j, hget, hj, h₁⟩ := h.get_of_none hpid hroom
  have hdepths : depths t₁ = known m pid := funext fun p => depths_eq h₁
  refine ⟨fun ent => t₁.set j { t₁.slots j with val := ent } t₁.len, ?_, fun ent => ?_⟩
  · simp only [visit, find_new h hpid, macdbGet, hget, hdepths]
  · have hstore := h₁.store (by rw [hj]) ent (j := j)
    rw [hj, Function.update_idem] at hstore
    rw [hj]
    exact hstore

theorem visit_full (h : macdb.Holds t m) (hpid : m pid = none) (hfull : (keys m).ncard = pidCap) :
    ¬Gives (visit roots sys t pid) now (t', evs) later := by
  have hget := h.get_eq_none.mpr ⟨hpid, hfull⟩
  simp only [visit, find_new h hpid, macdbGet, hget]
  exact not_gives_fault

theorem holds_visit_new (h : macdb.Holds t m) (hpid : m pid = none)
    (hvisit : Gives (visit roots sys t pid) now (t', evs) later) :
    ∃ ent, Gives (examine succ roots sys (known m pid) pid) now (ent, evs) later
      ∧ macdb.Holds t' (Function.update m pid (some ent)) := by
  have hroom : (keys m).ncard ≠ pidCap := fun hfull => visit_full h hpid hfull hvisit
  obtain ⟨stored, hvis, hstored⟩ := visit_room roots sys h hpid hroom
  rw [hvis] at hvisit
  obtain ⟨⟨ent, execs⟩, mid, hent, hrest⟩ := gives_bind.mp hvisit
  obtain ⟨heq, rfl⟩ := gives_pure.mp hrest
  obtain ⟨rfl, rfl⟩ := Prod.mk.inj heq
  exact ⟨ent, hent, hstored ent⟩

theorem exists_visit_new (h : macdb.Holds t m) (hpid : m pid = none)
    (hroom : (keys m).ncard ≠ pidCap)
    (hent : Gives (examine succ roots sys (known m pid) pid) now (ent, evs) later) :
    ∃ t', Gives (visit roots sys t pid) now (t', evs) later
      ∧ macdb.Holds t' (Function.update m pid (some ent)) := by
  obtain ⟨stored, hvis, hstored⟩ := visit_room roots sys h hpid hroom
  refine ⟨stored ent, ?_, hstored ent⟩
  rw [hvis]
  exact gives_bind.mpr ⟨(ent, evs), later, hent, gives_pure.mpr ⟨rfl, rfl⟩⟩

theorem gives_visits_cons : Gives (visits roots sys t (pid :: pids)) now (t', evs) later ↔
    ∃ t₁ execs mid rest, Gives (visit roots sys t pid) now (t₁, execs) mid
      ∧ Gives (visits roots sys t₁ pids) mid (t', rest) later ∧ evs = execs ++ rest := by
  simp only [visits, gives_bind, gives_pure, Prod.exists, Prod.mk.injEq]
  constructor
  · rintro ⟨t₁, execs, mid, hvisit, _, rest, _, hrest, ⟨rfl, rfl⟩, rfl⟩
    exact ⟨t₁, execs, mid, rest, hvisit, hrest, rfl⟩
  · rintro ⟨t₁, execs, mid, rest, hvisit, hrest, rfl⟩
    exact ⟨t₁, execs, mid, hvisit, t', rest, later, hrest, ⟨rfl, rfl⟩, rfl⟩

theorem insert_union (s : Set Int32) :
    insert pid s ∪ {p | p ∈ pids} = s ∪ {p | p ∈ pid :: pids} := by
  ext p
  simp only [Set.mem_union, Set.mem_insert_iff, Set.mem_ofPred_eq, List.mem_cons]
  rw [or_assoc, or_left_comm]

/-- Where the first loop gets through, the table holds the old and the new processes. -/
theorem visits_holds (h : macdb.Holds t m) (hint : Ints m)
    (hvisits : Gives (visits roots sys t pids) now (t', evs) later) :
    ∃ m', macdb.Holds t' m' ∧ keys m' = keys m ∪ {p | p ∈ pids} ∧ Ints m' := by
  induction pids generalizing t m now evs with
  | nil =>
      obtain ⟨heq, -⟩ := gives_pure.mp hvisits
      obtain ⟨rfl, -⟩ := Prod.mk.inj heq
      exact ⟨m, h, by simp, hint⟩
  | cons pid pids ih =>
      obtain ⟨t₁, execs, mid, rest, hpid, hrest, -⟩ := gives_visits_cons.mp hvisits
      cases hm : m pid with
      | some ent =>
          have hmem : pid ∈ keys m := Option.isSome_of_mem hm
          obtain ⟨rfl, -, rfl⟩ := (gives_visit_known h (by rw [hm]; nofun)).mp hpid
          obtain ⟨m', hm', hkeys, hint'⟩ := ih h hint hrest
          refine ⟨m', hm', ?_, hint'⟩
          rw [hkeys, ← insert_union, Set.insert_eq_of_mem hmem]
      | none =>
          obtain ⟨ent, hent, h₁⟩ := holds_visit_new h hm hpid
          have hdepth : IsInt ent.depth := by
            refine examine_isInt ?_ hent
            intro p d hd
            obtain ⟨e, he, rfl⟩ := Option.map_eq_some_iff.mp hd
            exact hint.update fresh_isInt p e he
          obtain ⟨m', hm', hkeys, hint'⟩ := ih h₁ (hint.update hdepth) hrest
          refine ⟨m', hm', ?_, hint'⟩
          rw [hkeys, Scheme.keys_update_some, insert_union]

theorem mem_keys : p ∈ keys (fun p => db.lookup p) ↔ p ∈ db := AList.lookup_isSome

theorem lookup_insert : (fun p => (db.insert pid ent).lookup p) =
    Function.update (fun p => db.lookup p) pid (some ent) := by
  funext p
  by_cases hp : p = pid
  · rw [hp, AList.lookup_insert, Function.update_self]
  · rw [AList.lookup_insert_ne hp, Function.update_of_ne hp]

/-- The entry in the table is no depth to go by. -/
theorem known_agrees (hnew : pid ∉ db) (p : Int32) (d : Int) (hd : 0 ≤ d) :
    Go.depths db p = some d ↔ known (fun p => db.lookup p) pid p = some d := by
  unfold Go.depths known
  by_cases hp : p = pid
  · rw [hp, AList.lookup_eq_none.mpr hnew, Function.update_self]
    refine iff_of_false nofun ?_
    intro heq
    rw [← Option.some.inj heq] at hd
    exact absurd hd (by decide)
  · rw [Function.update_of_ne hp]

/-- What the Go code notes of the new processes, the table holds if there is room for them. -/
theorem exists_visits (h : macdb.Holds t fun p => db.lookup p)
    (hroom : (keys (fun p => db.lookup p) ∪ {p | p ∈ pids}).ncard ≤ pidCap)
    (hint : ∀ p ent, p ∉ db → db'.lookup p = some ent → IsInt ent.depth)
    (hgo : Gives (Go.visits roots sys db pids) now (db', evs) later) :
    ∃ t', Gives (visits roots sys t pids) now (t', evs) later
      ∧ macdb.Holds t' fun p => db'.lookup p := by
  induction pids generalizing t db now evs with
  | nil =>
      obtain ⟨heq, rfl⟩ := gives_pure.mp hgo
      obtain ⟨rfl, rfl⟩ := Prod.mk.inj heq
      exact ⟨t, gives_pure.mpr ⟨rfl, rfl⟩, h⟩
  | cons pid pids ih =>
      obtain ⟨db₁, execs, mid, rest, hpid, hrest, rfl⟩ := Go.gives_visits_cons.mp hgo
      rw [← insert_union] at hroom
      by_cases hmem : pid ∈ db
      · obtain ⟨rfl, rfl, rfl⟩ := (Go.gives_visit_of_mem hmem).mp hpid
        have hsome : db₁.lookup pid ≠ none := fun hnone => AList.lookup_eq_none.mp hnone hmem
        rw [Set.insert_eq_of_mem (mem_keys.mpr hmem)] at hroom
        obtain ⟨t', hvisits, h'⟩ := ih h hroom hint hrest
        have hknown : Gives (visit roots sys t pid) mid (t, []) mid :=
          (gives_visit_known h hsome).mpr ⟨rfl, rfl, rfl⟩
        exact ⟨t', gives_visits_cons.mpr ⟨t, [], mid, rest, hknown, hvisits, rfl⟩, h'⟩
      · obtain ⟨ent, hent, rfl⟩ := (Go.gives_visit_of_new hmem).mp hpid
        have hnone : db.lookup pid = none := AList.lookup_eq_none.mpr hmem
        have hfree : (keys fun p => db.lookup p).ncard ≠ pidCap := by
          have hnot : pid ∉ keys fun p => db.lookup p := mt mem_keys.mp hmem
          have hfinite := (h.keys_finite.insert pid).union (List.finite_toSet pids)
          have hle := (Set.ncard_le_ncard Set.subset_union_left hfinite).trans hroom
          rw [Set.ncard_insert_of_notMem hnot h.keys_finite] at hle
          omega
        have hdepth : IsInt ent.depth := by
          refine hint pid ent hmem ?_
          rw [(Go.visits_spec hrest).kept pid (Go.mem_insert.mpr (Or.inl rfl)),
            AList.lookup_insert]
        obtain ⟨t₁, hvisit, h₁⟩ := exists_visit_new h hnone hfree
          (gives_examine (known_agrees hmem) hdepth hent)
        rw [← lookup_insert] at h₁
        rw [← Scheme.keys_update_some (v := ent), ← lookup_insert] at hroom
        obtain ⟨t', hvisits, h'⟩ := ih h₁ hroom
          (fun p e hp => hint p e fun hin => hp (Go.mem_insert.mpr (Or.inr hin))) hrest
        exact ⟨t', gives_visits_cons.mpr ⟨t₁, execs, mid, rest, hvisit, hvisits, rfl⟩, h'⟩

/-! ## The second loop -/

theorem mem_goners_all (pids : List Int32) (h : macdb.Holds t m) :
    p ∈ (t.keysWhere fun p => !(liveBitmap pids (slotOf p) && pids.contains p)) ↔
      (m p).isSome ∧ p ∉ pids := by
  rw [h.mem_keysWhere]
  refine and_congr_right fun _ => ?_
  have hlive : p ∈ pids → liveBitmap pids (slotOf p) = true := by
    intro hp
    exact List.any_eq_true.mpr ⟨p, hp, beq_self_eq_true _⟩
  by_cases hp : p ∈ pids
  · simp [hlive hp, hp]
  · simp [hp]

/-- What is reported of a process that is gone. -/
def exitOf (gone : Int) (m : Int32 → Option MacEntry) (p : Int32) : Option Event :=
  (m p).bind fun ent => if 0 ≤ ent.depth then some (.exit p ent gone) else none

/-- The processes of the batch are deleted, and those with a depth reported. -/
theorem sweep_returns (gone : Int) (h : macdb.Holds t m) (honce : goners.Nodup) :
    ∃ t', (sweep gone t goners).Returns (t', goners.filterMap (exitOf gone m))
      ∧ macdb.Holds t' fun p => if p ∈ goners then none else m p := by
  induction goners generalizing t m with
  | nil => exact ⟨t, returns_pure.mpr rfl, by simpa using h⟩
  | cons q goners ih =>
      obtain ⟨hq, honce⟩ := List.nodup_cons.mp honce
      have hval := h.find_val (k := q)
      have hfun : ∀ m' : Int32 → Option MacEntry, m' q = none → (∀ p, p ≠ q → m' p = m p) →
          (fun p => if p ∈ q :: goners then none else m p) =
            fun p => if p ∈ goners then none else m' p := by
        intro m' hnone hother
        funext p
        by_cases hp : p = q
        · subst hp
          rw [if_pos List.mem_cons_self, if_neg hq, hnone]
        · simp only [List.mem_cons, hp, false_or, hother p hp]
      rw [sweep, macdbFind]
      cases hfind : macdb.find t q with
      | none =>
          rw [hfind, Option.map_none] at hval
          obtain ⟨t', hret, h'⟩ := ih h honce
          refine ⟨t', ?_, ?_⟩
          · rw [List.filterMap_cons_none (by rw [exitOf, ← hval]; rfl)]
            exact hret
          · rw [hfun m hval.symm fun _ _ => rfl]
            exact h'
      | some j =>
          rw [hfind, Option.map_some] at hval
          obtain ⟨t₁, hdelete, h₁⟩ := h.delete q
          obtain ⟨t', hret, h'⟩ := ih h₁ honce
          have hsame : goners.filterMap (exitOf gone (Function.update m q none)) =
              goners.filterMap (exitOf gone m) := by
            refine List.filterMap_congr fun p hp => ?_
            have hne : p ≠ q := fun heq => hq (heq ▸ hp)
            rw [exitOf, exitOf, Function.update_of_ne hne]
          refine ⟨t', ?_, ?_⟩
          · refine hdelete.bind_iff.mpr (hret.bind_iff.mpr (returns_pure.mpr ?_))
            rw [hsame]
            by_cases hd : 0 ≤ (t.slots j).val.depth
            · rw [if_pos hd, List.filterMap_cons_some
                (by rw [exitOf, ← hval, Option.bind_some, if_pos hd])]
              rfl
            · rw [if_neg hd, List.filterMap_cons_none
                (by rw [exitOf, ← hval, Option.bind_some, if_neg hd])]
              rfl
          · rw [hfun _ (Function.update_self ..) fun p hp => Function.update_of_ne hp ..]
            exact h'

theorem mem_exits {gone : Int} {ev : Event} :
    ev ∈ goners.filterMap (exitOf gone m) ↔
      ∃ p ent, ev = .exit p ent gone ∧ p ∈ goners ∧ m p = some ent ∧ 0 ≤ ent.depth := by
  simp only [List.mem_filterMap, exitOf, Option.bind_eq_some_iff]
  constructor
  · rintro ⟨p, hp, ent, hent, hev⟩
    split at hev
    · next hd => exact ⟨p, ent, (Option.some.inj hev).symm, hp, hent, hd⟩
    · cases hev
  · rintro ⟨p, ent, rfl, hp, hent, hd⟩
    exact ⟨p, hp, ent, hent, if_pos hd⟩

theorem exits_nodup {gone : Int} (honce : goners.Nodup) :
    (goners.filterMap (exitOf gone m)).Nodup := by
  refine honce.filterMap ?_
  intro p q ev hp hq
  obtain ⟨e, -, he⟩ := Option.bind_eq_some_iff.mp hp
  obtain ⟨e', -, he'⟩ := Option.bind_eq_some_iff.mp hq
  split at he
  · split at he'
    · have heq := (Option.some.inj he).trans (Option.some.inj he').symm
      exact (Event.exit.inj heq).1
    · cases he'
  · cases he

theorem goners_nodup (h : macdb.Holds t m) : (C.goners t pids).Nodup :=
  h.nodup_keysWhere.sublist (List.take_sublist 1024 _)

end C

end Tracep.Exectrace.Darwin
