import Tracep.Lib.CBuffer
import Tracep.Lib.Store
import Tracep.Lib.Ttl
import Mathlib.Data.Rat.Defs
import Mathlib.Tactic.Linarith

/-!
# The process cache

Both ports keep the process they found for a port for two seconds. Go has
them in a map, which it sweeps when it has grown; C has an array with a place
for every port. Neither can be told from a cache that keeps what was found
last for every port (`Tracep.Lib.Ttl`): what the sweep deletes is too old to
be used.
-/

namespace Tracep.Dns

/-- The process that a port belongs to at some time: its PID and name. -/
abbrev Resolver := UInt16 → Int → Int × Bytes

/-! ## The Go port -/

namespace Go

/-- `cacheEntry`; times are in nanoseconds. -/
structure CacheEntry where
  pid : Int
  name : Bytes
  born : Int

/-- The map `entries` of a `procCache`. -/
abbrev Entries := AList fun _ : UInt16 => CacheEntry

def ttl : Int := 2 * 10 ^ 9

/-- The sweep of the expired entries. -/
def sweep (entries : Entries) (now : Int) : Entries :=
  entries.entries.foldl
    (fun m e => if now - e.2.born > ttl * 4 then m.erase e.1 else m) entries

variable (pidForUDPPort : Resolver)

def lookupMiss (entries : Entries) (port : UInt16) (now : Int) : Entries × (Int × Bytes) :=
  let (pid, name) := pidForUDPPort port now
  let entries := entries.insert port ⟨pid, name, now⟩
  (if entries.entries.length > 1024 then sweep entries now else entries, (pid, name))

/-- `lookup` of a `procCache`, at a time. -/
def lookup (entries : Entries) (x : UInt16 × Int) : Entries × (Int × Bytes) :=
  match entries.lookup x.1 with
  | some e =>
      if x.2 - e.born < ttl then (entries, (e.pid, e.name))
      else lookupMiss pidForUDPPort entries x.1 x.2
  | none => lookupMiss pidForUDPPort entries x.1 x.2

end Go

/-! ## The C port -/

namespace C

/-- `cache_ent`; times are in milliseconds, and `name` has 64 bytes. -/
structure CacheEnt where
  pid : Int
  name : Bytes
  born : ℚ
  set : Bool

/-- `pcache[65536]`. -/
abbrev Pcache := UInt16 → CacheEnt

/-- The static array is zero. -/
def pcache₀ : Pcache := fun _ => ⟨0, [], 0, false⟩

def cacheTtlMs : ℚ := 2000

/-- `now_ms` at a time in nanoseconds: `tv_sec * 1000.0 + tv_nsec / 1e6`. -/
def nowMs (t : Int) : ℚ := (t / 10 ^ 9 : Int) * 1000 + (t % 10 ^ 9 : Int) / 10 ^ 6

variable (pid_for_udp_port : Resolver)

/-- `proc_lookup`, at a time, for a caller with `namecap` bytes for the name. -/
def procLookup (namecap : Nat) (pcache : Pcache) (x : UInt16 × Int) : Pcache × (Int × Bytes) :=
  let e := pcache x.1
  let t := nowMs x.2
  if e.set ∧ t - e.born < cacheTtlMs then (pcache, (e.pid, fitted namecap e.name))
  else
    let (pid, name) := pid_for_udp_port x.1 x.2
    let nm := fitted 64 name
    (Function.update pcache x.1 ⟨pid, fitted 64 nm, t, true⟩, (pid, fitted namecap nm))

end C

/-! ## What the Go port keeps -/

namespace Go

variable {resolve : Resolver} {entries : Entries} {now t : Int} {last : Ttl.Last UInt16}
  {port : UInt16} {e : CacheEntry}

theorem lookup_sweep (entries : Entries) (now : Int) (port : UInt16) :
    (sweep entries now).lookup port =
      (entries.lookup port).filter fun e => !decide (now - e.born > ttl * 4) := by
  have hsweep : sweep entries now =
      (entries.entries.filter fun e => now - e.2.born > ttl * 4).foldl
        (fun m e => m.erase e.1) entries := by
    rw [List.foldl_filter]
    simp only [decide_eq_true_eq]
    rfl
  rw [hsweep, Store.lookup_erases_filter]

/-- The entry of a port, as the time it was found at and what was found. -/
def entryOf (entries : Entries) (port : UInt16) : Option (Int × (Int × Bytes)) :=
  (entries.lookup port).map fun e => (e.born, (e.pid, e.name))

/-- The map has what was found last, as far as it can still be used. -/
def Rep (resolve : Resolver) (now : Int) (entries : Entries) (last : Ttl.Last UInt16) : Prop :=
  Ttl.Keeps ttl resolve now (entryOf entries) last

theorem rep_empty : Rep resolve now ∅ fun _ => none := Ttl.keeps_start

theorem entryOf_insert (entries : Entries) (port : UInt16) (e : CacheEntry) :
    entryOf (entries.insert port e) =
      Function.update (entryOf entries) port (some (e.born, (e.pid, e.name))) := by
  funext p
  rw [Function.update_apply, entryOf]
  by_cases hp : p = port
  · rw [hp, AList.lookup_insert, if_pos rfl]
    rfl
  · rw [AList.lookup_insert_ne hp, if_neg hp]
    rfl

/-- What the sweep deletes can no longer be used. -/
theorem Rep.sweep (h : Rep resolve now entries last) : Rep resolve now (sweep entries now) last := by
  refine Ttl.Keeps.drop h fun p => ?_
  rw [entryOf, entryOf, lookup_sweep]
  cases entries.lookup p with
  | none => exact Or.inl rfl
  | some e =>
      by_cases hold : now - e.born > ttl * 4
      · refine Or.inr ⟨?_, fun x hx => ?_⟩
        · rw [Option.filter_some_neg (by simpa using hold)]
          rfl
        · cases hx
          simp only [ttl] at hold ⊢
          omega
      · refine Or.inl ?_
        rw [Option.filter_some_pos (by simpa using hold)]

theorem lookupMiss_spec (h : Rep resolve now entries last) (hnow : now ≤ t)
    (hmiss : Ttl.used ttl last port t = t) :
    (lookupMiss resolve entries port t).2 = resolve port (Ttl.used ttl last port t)
      ∧ Rep resolve t (lookupMiss resolve entries port t).1 (Ttl.after ttl last port t) := by
  have hstore : Rep resolve t
      (entries.insert port ⟨(resolve port t).1, (resolve port t).2, t⟩)
      (Ttl.after ttl last port t) := by
    rw [Rep, entryOf_insert]
    exact Ttl.Keeps.store h hnow hmiss
  refine ⟨by rw [hmiss]; rfl, ?_⟩
  change Rep resolve t (if _ then _ else _) _
  split
  · exact hstore.sweep
  · exact hstore

/-- A lookup gives what was found at the time that is to be used. -/
theorem lookup_spec (port : UInt16) (t : Int) (h : Rep resolve now entries last) (hnow : now ≤ t) :
    (lookup resolve entries (port, t)).2 = resolve port (Ttl.used ttl last port t)
      ∧ Rep resolve t (lookup resolve entries (port, t)).1 (Ttl.after ttl last port t) := by
  unfold lookup
  split
  · next e he =>
      have hent : entryOf entries port = some (e.born, (e.pid, e.name)) := by
        rw [entryOf, show entries.lookup port = some e from he]
        rfl
      split
      · next hfresh =>
          obtain ⟨hval, hafter⟩ := Ttl.Keeps.hit h hent hfresh
          rw [hafter]
          exact ⟨hval, Ttl.Keeps.mono h hnow⟩
      · next hstale =>
          refine lookupMiss_spec h hnow (Ttl.Keeps.miss h hnow fun x hx => ?_)
          rw [hent] at hx
          cases hx
          exact Int.not_lt.mp hstale
  · next he =>
      refine lookupMiss_spec h hnow (Ttl.Keeps.miss h hnow fun x hx => ?_)
      rw [entryOf, show entries.lookup port = none from he] at hx
      cases hx

end Go

/-! ## What the C port keeps -/

namespace C

variable {resolve : Resolver} {pcache : Pcache} {now t b : Int} {last : Ttl.Last UInt16}
  {port : UInt16}

theorem nowMs_eq (t : Int) : nowMs t = t / 10 ^ 6 := by
  have hdiv := congrArg (fun n : Int => (n : ℚ)) (Int.mul_ediv_add_emod t (10 ^ 9))
  simp only [Int.cast_add, Int.cast_mul, Int.cast_pow, Int.cast_ofNat] at hdiv
  rw [nowMs, ← hdiv]
  ring

/-- The time to live in milliseconds is the one in nanoseconds. -/
theorem fresh_iff : nowMs t - nowMs b < cacheTtlMs ↔ t - b < Go.ttl := by
  rw [nowMs_eq, nowMs_eq, cacheTtlMs, Go.ttl, ← sub_div, div_lt_iff₀ (by norm_num)]
  constructor
  · intro h
    have : ((t - b : Int) : ℚ) < ((2 * 10 ^ 9 : Int) : ℚ) := by
      push_cast
      linarith
    exact_mod_cast this
  · intro h
    have : ((t - b : Int) : ℚ) < ((2 * 10 ^ 9 : Int) : ℚ) := by exact_mod_cast h
    push_cast at this
    linarith

/-- The array has these entries, a time and what was found then. -/
structure Cached (pcache : Pcache) (entry : UInt16 → Option (Int × (Int × Bytes))) : Prop where
  found : ∀ p b v, entry p = some (b, v) → pcache p = ⟨v.1, v.2, nowMs b, true⟩
  unset : ∀ p, entry p = none → (pcache p).set = false

theorem cached_pcache₀ : Cached pcache₀ fun _ => none :=
  ⟨nofun, fun _ _ => rfl⟩

theorem Cached.update {entry : UInt16 → Option (Int × (Int × Bytes))} (h : Cached pcache entry)
    (port : UInt16) (t : Int) (v : Int × Bytes) :
    Cached (Function.update pcache port ⟨v.1, v.2, nowMs t, true⟩)
      (Function.update entry port (some (t, v))) := by
  constructor
  · intro p b w hent
    rw [Function.update_apply] at hent ⊢
    by_cases hp : p = port
    · rw [if_pos hp] at hent ⊢
      cases hent
      rfl
    · rw [if_neg hp] at hent ⊢
      exact h.found p b w hent
  · intro p hnone
    rw [Function.update_apply] at hnone ⊢
    by_cases hp : p = port
    · rw [if_pos hp] at hnone
      cases hnone
    · rw [if_neg hp] at hnone ⊢
      exact h.unset p hnone

/-- The array has what was found last. -/
def Rep (resolve : Resolver) (now : Int) (pcache : Pcache) (last : Ttl.Last UInt16) : Prop :=
  ∃ entry, Cached pcache entry ∧ Ttl.Keeps Go.ttl resolve now entry last

/-- A lookup gives what was found at the time that is to be used. -/
theorem procLookup_spec (hname : ∀ p b, (resolve p b).2.length < 64) (port : UInt16) (t : Int)
    (h : Rep resolve now pcache last) (hnow : now ≤ t) :
    (procLookup resolve 64 pcache (port, t)).2 = resolve port (Ttl.used Go.ttl last port t)
      ∧ Rep resolve t (procLookup resolve 64 pcache (port, t)).1
          (Ttl.after Go.ttl last port t) := by
  obtain ⟨entry, hcached, hkeeps⟩ := h
  have hfits : ∀ p b, fitted 64 (resolve p b).2 = (resolve p b).2 := fun p b =>
    List.take_of_length_le (Nat.le_of_lt_succ (hname p b))
  by_cases hhit : (pcache port).set ∧ nowMs t - (pcache port).born < cacheTtlMs
  · rw [procLookup, if_pos hhit]
    rcases hent : entry port with _ | ⟨b, v⟩
    · rw [hcached.unset port hent] at hhit
      exact absurd hhit.1 Bool.false_ne_true
    · rw [hcached.found port b v hent] at hhit ⊢
      obtain ⟨rfl, hafter⟩ := hkeeps.hit hent (fresh_iff.mp hhit.2)
      rw [hafter]
      exact ⟨Prod.ext rfl (hfits _ _), entry, hcached, hkeeps.mono hnow⟩
  · have hmiss : Ttl.used Go.ttl last port t = t := hkeeps.miss hnow fun ⟨b, v⟩ hent => by
      rw [hcached.found port b v hent] at hhit
      exact Int.not_lt.mp fun hfresh => hhit ⟨rfl, fresh_iff.mpr hfresh⟩
    rw [procLookup, if_neg hhit, hmiss]
    have hnm : fitted 64 (fitted 64 (resolve port t).2) = (resolve port t).2 := by
      rw [hfits, hfits]
    refine ⟨Prod.ext rfl hnm, _, ?_, hkeeps.store hnow hmiss⟩
    have hupdate := hcached.update port t (resolve port t)
    rwa [← hnm] at hupdate

theorem rep_pcache₀ : Rep resolve now pcache₀ fun _ => none :=
  ⟨_, cached_pcache₀, Ttl.keeps_start⟩

end C

/-! ## Runs of lookups -/

variable {resolve : Resolver} {xs : List (UInt16 × Int)}

theorem Go.run_lookup (resolve : Resolver) (hord : Ttl.Ordered xs) :
    Outputs.run (Go.lookup resolve) ∅ xs = Outputs.byHistory
      (fun pre x => resolve x.1 (Ttl.used Go.ttl (Ttl.lastAfter Go.ttl pre) x.1 x.2)) xs :=
  Ttl.run_eq_used (fun _ => Go.rep_empty) Go.lookup_spec hord

theorem C.run_procLookup (hname : ∀ p b, (resolve p b).2.length < 64) (hord : Ttl.Ordered xs) :
    Outputs.run (C.procLookup resolve 64) C.pcache₀ xs = Outputs.byHistory
      (fun pre x => resolve x.1 (Ttl.used Go.ttl (Ttl.lastAfter Go.ttl pre) x.1 x.2)) xs :=
  Ttl.run_eq_used (fun _ => C.rep_pcache₀) (C.procLookup_spec hname) hord

/-- The answer to a lookup after others is what was found for the port at the time of a lookup
of it that is less than two seconds ago. -/
def Recent (resolve : Resolver) (pre : List (UInt16 × Int)) (x : UInt16 × Int)
    (answer : Int × Bytes) : Prop :=
  ∃ t, x.2 - 2 * 10 ^ 9 < t ∧ t ≤ x.2 ∧ (x.1, t) ∈ pre ++ [x] ∧ answer = resolve x.1 t

end Tracep.Dns
