import Tracep.Lib.Bytes
import Mathlib.Data.List.Perm.Subperm

/-!
# The list of all PIDs

The C port of the macOS tracer asks libproc for the PIDs: once for their
number, and again with a buffer that has room for them. The second call
returns a number of PIDs too, and `procListAllPIDs` divides it as if it were
bytes, so that it returns at most a quarter of the list
(`length_returned_le`).
-/

namespace Tracep.Exectrace.Darwin

/-- What libproc answers while the same processes are alive: the PIDs in the order it writes
them, the number it returns for a buffer of none, and whether there is memory to allocate. -/
structure Libproc where
  alive : List Int32
  nodup : alive.Nodup
  total : Int
  alive_le : alive.length ≤ total
  total_lt : total < 2 ^ 31
  malloc : Nat → Bool

namespace Libproc

/-- `proc_listallpids` with `NULL` or with a buffer of so many bytes: what it writes and what it
returns. -/
def listallpids (lib : Libproc) : Option Int → List Int32 × Int
  | none => ([], lib.total)
  | some size =>
      let written := lib.alive.take (size / 4).toNat
      (written, written.length)

/-- `(sz + 4096) & ~3`. -/
def bufferSize (sz : Int) : Int := int32 (sz + 4096) - int32 (sz + 4096) % 4

/-- The buffer and the count, or `NULL` and nothing. -/
def procListAllPIDs (lib : Libproc) : Option (List Int32 × Int) :=
  let sz := (lib.listallpids none).2
  if sz ≤ 0 then none
  else
    let sz := bufferSize sz
    if lib.malloc (sz % 2 ^ 64).toNat = false then none
    else
      let (pids, n) := lib.listallpids (some sz)
      if n ≤ 0 then none else some (pids, n.tdiv 4)

/-- The PIDs that the caller gets. -/
def returned (lib : Libproc) : List Int32 :=
  match lib.procListAllPIDs with
  | none => []
  | some (pids, n) => pids.take n.toNat

theorem procListAllPIDs_some {lib : Libproc} {pids : List Int32} {n : Int}
    (h : lib.procListAllPIDs = some (pids, n)) :
    pids = lib.alive.take (bufferSize lib.total / 4).toNat ∧ n = (pids.length : Int).tdiv 4 := by
  unfold procListAllPIDs at h
  simp only at h
  split at h
  · cases h
  split at h
  · cases h
  split at h
  · cases h
  · cases h
    exact ⟨rfl, rfl⟩

theorem length_returned_le (lib : Libproc) : lib.returned.length ≤ lib.alive.length / 4 := by
  unfold returned
  split
  · exact Nat.zero_le _
  · next pids n hlist =>
      obtain ⟨hpids, hn⟩ := procListAllPIDs_some hlist
      subst hpids hn
      have hle := List.length_take_le' (bufferSize lib.total / 4).toNat lib.alive
      generalize lib.alive.take (bufferSize lib.total / 4).toNat = written at hle ⊢
      have hcount : ((written.length : Int).tdiv 4).toNat = written.length / 4 := rfl
      rw [hcount]
      exact (List.length_take_le _ _).trans (Nat.div_le_div_right hle)

/-- All PIDs are returned only where there are none. -/
theorem returned_all_iff (lib : Libproc) : (∀ p ∈ lib.alive, p ∈ lib.returned) ↔ lib.alive = [] := by
  constructor
  · intro hall
    have hlen := (lib.nodup.subperm hall).length_le
    have hquarter := lib.length_returned_le
    exact List.length_eq_zero_iff.mp (by omega)
  · intro hnone p hp
    rw [hnone] at hp
    cases hp

/-- `launchd` alone. -/
def launchd : Libproc :=
  ⟨[1], List.nodup_singleton 1, 1, le_refl _, by decide, fun _ => true⟩

theorem launchd_not_returned : ¬∀ p ∈ launchd.alive, p ∈ launchd.returned := by
  intro hall
  have hnone : launchd.returned = [] := rfl
  have hmem := hall 1 (List.mem_singleton_self 1)
  rw [hnone] at hmem
  cases hmem

end Libproc

end Tracep.Exectrace.Darwin
