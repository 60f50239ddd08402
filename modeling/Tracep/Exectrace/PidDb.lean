import Tracep.Lib.ProbingMap
import Tracep.Lib.Bytes

/-!
# The PID tables

The C ports keep what they know of a process in an open-addressing table of
`16384` slots: `pidDB` in the Linux tracer, `macDB` in the macOS one. Both
hash the PID multiplicatively and probe linearly, and differ in what an
entry holds; each is a `Scheme` here, and the functions of the source are
those of the scheme.

While fewer PIDs are live than there are slots the tables are finite maps
(`tables_refine_maps`).
-/

namespace Tracep.Exectrace.C

open Exec Probing

/-- `PIDDB_CAP`, `MACDB_CAP`. -/
def pidCap : Nat := 16384

/-- `((unsigned)pid * 2654435761u) & (CAP - 1)`. -/
def pidHash (pid : Int32) : UInt32 := (pid.toUInt32 * 2654435761) &&& 16383

theorem and_mask (n : UInt32) : (n &&& 16383).toNat = n.toNat % pidCap := by
  rw [UInt32.toNat_and]
  exact Nat.and_two_pow_sub_one_eq_mod n.toNat 14

theorem pidHash_lt (pid : Int32) : (pidHash pid).toNat < pidCap := by
  rw [pidHash, and_mask]
  exact Nat.mod_lt _ (by decide)

def slotOf (pid : Int32) : Fin pidCap := ⟨(pidHash pid).toNat, pidHash_lt pid⟩

/-- `(i + probe) & (CAP - 1)`. -/
theorem probe_mask {i probe : UInt32} (hi : i.toNat < pidCap) (hprobe : probe.toNat < pidCap) :
    ((i + probe) &&& 16383).toNat = (probeAt (⟨i.toNat, hi⟩ : Fin pidCap) probe.toNat).val := by
  have hsum : i.toNat + probe.toNat < 2 ^ 32 := by
    unfold pidCap at hi hprobe
    omega
  rw [and_mask, UInt32.toNat_add, Nat.mod_eq_of_lt hsum]
  rfl

/-! ## The table of the Linux tracer -/

/-- `pidEntry`. -/
structure PidEntry where
  depth : Int
  startNs : UInt64
  cmdline : Option Bytes
deriving Repr, DecidableEq

def piddb : Scheme Int32 PidEntry pidCap where
  hash := slotOf
  fresh := ⟨0, 0, none⟩
  clear e := { e with cmdline := none }

abbrev PidDb := Table Int32 PidEntry pidCap

/-- The table as it is at the start of the program. -/
def pidDB : PidDb := .empty 0 ⟨0, 0, none⟩

def piddbFind : PidDb → Int32 → Option (Fin pidCap) := piddb.find
def piddbGet : PidDb → Int32 → Option (PidDb × Fin pidCap × Bool) := piddb.get
def piddbDelete : PidDb → Int32 → Exec PidDb := piddb.delete

/-! ## The table of the macOS tracer -/

/-- `macEntry`. -/
structure MacEntry where
  ppid : Int32
  uid : UInt32
  startSec : UInt64
  startUsec : UInt64
  argv0 : Option Bytes
  depth : Int
deriving Repr, DecidableEq

def macdb : Scheme Int32 MacEntry pidCap where
  hash := slotOf
  fresh := ⟨0, 0, 0, 0, none, -1⟩
  clear e := { e with argv0 := none }

abbrev MacDb := Table Int32 MacEntry pidCap

def macDB : MacDb := .empty 0 ⟨0, 0, 0, 0, none, 0⟩

def macdbFind : MacDb → Int32 → Option (Fin pidCap) := macdb.find
def macdbGet : MacDb → Int32 → Option (MacDb × Fin pidCap × Bool) := macdb.get
def macdbDelete : MacDb → Int32 → Exec MacDb := macdb.delete

/-! ## The tables as maps -/

/-- From the table `t` every run of operations that leaves fewer PIDs live than there are
slots, after each operation, answers as the run on the empty map, and ends in a sound table
that holds what the map does. -/
def ActsAsMap {ν : Type} (S : Scheme Int32 ν pidCap) (t : Table Int32 ν pidCap) : Prop :=
  ∀ ops : List (Op Int32 ν),
    (∀ pre, pre <+: ops → (keys (S.runMap (fun _ => none) pre).1).ncard < pidCap) →
      ∃ t', (S.run t ops).Returns (t', (S.runMap (fun _ => none) ops).2)
        ∧ S.Holds t' (S.runMap (fun _ => none) ops).1

theorem tables_refine_maps : ActsAsMap piddb pidDB ∧ ActsAsMap macdb macDB :=
  ⟨fun ops hroom => (Scheme.holds_empty _ _).run ops hroom,
    fun ops hroom => (Scheme.holds_empty _ _).run ops hroom⟩

/-- Two PIDs that hash to one slot, the first of them deleted. -/
def collision : List (Op Int32 PidEntry) :=
  [.get 5, .get 16389, .update 16389 fun e => { e with depth := 7 }, .delete 5, .find 16389]

theorem collision_survives :
    slotOf 5 = slotOf 16389 ∧ ∃ t, (piddb.run pidDB collision).Returns
      (t, [.entry true ⟨0, 0, none⟩, .entry true ⟨0, 0, none⟩, .done, .done,
        .found (some ⟨7, 0, none⟩)]) := by
  have hfew : ∀ pre, pre <+: collision →
      (keys (piddb.runMap (fun _ => none) pre).1).ncard < pidCap := by
    intro pre hpre
    have hsubset : keys (piddb.runMap (fun _ => none) pre).1 ⊆ ({5, 16389} : Finset Int32) := by
      intro k hk
      rcases Scheme.keys_runMap_subset _ _ hk with h | h
      · exact absurd h Bool.false_ne_true
      · have hmem : .get k ∈ collision := hpre.subset h
        simpa [collision] using hmem
    have hle := Set.ncard_le_ncard hsubset (Finset.finite_toSet _)
    rw [Set.ncard_coe_finset] at hle
    exact hle.trans_lt (by decide)
  obtain ⟨t, hret, -⟩ := tables_refine_maps.1 collision hfew
  exact ⟨by decide, t, hret⟩

end Tracep.Exectrace.C
