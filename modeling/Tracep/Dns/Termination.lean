import Tracep.Dns.Safety

/-!
# When reading returns

Neither `readName` guards against compression pointers that go round in a
circle. A call returns exactly when the walk along the name does not enter
a cycle (`Go.readName_returns_iff`, `C.readName_returns_iff`), and a message
parser returns exactly when the walk of the sections comes to no such name
(and, for the Go port, to no name it looks for before the data).
-/

namespace Tracep.Dns

open Exec Relation

theorem Go.readName_returns_iff (data : Bytes) (p : Nat) :
    (∃ r, (Go.readName data p).Returns r) ↔ ¬Looping data p := by
  rw [← Go.readName_hangs_iff]
  exact returns_iff_not_hangs Go.readName_not_faults

namespace C

/-- A destination as it may be passed: `NULL`, or a buffer of `cap` bytes, at least one. -/
structure Dest where
  cap : Nat
  buf : Option Bytes
  ok : ∀ b, buf = some b → b.length = cap ∧ 0 < cap

theorem readName_returns_iff (d : Bytes) (p : Nat) (dst : Dest) :
    (∃ r, (readName d p dst.buf dst.cap).Returns r) ↔ ¬Looping d p := by
  rw [← readName_hangs_iff dst.ok]
  exact returns_iff_not_hangs (readName_not_faults dst.ok)

theorem parseDns_returns_iff (ntop : InetNtop) (stack : Stack) (d : Bytes) :
    (∃ r, (parseDns ntop stack d).Returns r) ↔ ¬LoopReached d nameAt := by
  have h := (messageParser ntop stack d).returns_iff
  exact h.trans (and_iff_left (not_underflows d))

end C

theorem Go.parseDNS_returns_iff (data : Bytes) :
    (∃ r, (Go.parseDNS data).Returns r) ↔
      ¬LoopReached data Go.nameAt ∧ ¬Go.NameBeforeLength data := by
  rw [← Go.underflows_iff]
  exact (Go.messageParser data).returns_iff

/-- Name readers return exactly off the cycles of compression pointers; message parsers
exactly when the walk of the sections comes to no such name. -/
theorem returns_iff_no_pointer_cycle (data : Bytes) (p : Nat) (dst : C.Dest)
    (ntop : C.InetNtop) (stack : C.Stack) :
    ((∃ r, (Go.readName data p).Returns r) ↔ ¬Looping data p)
      ∧ ((∃ r, (C.readName data p dst.buf dst.cap).Returns r) ↔ ¬Looping data p)
      ∧ ((∃ r, (Go.parseDNS data).Returns r) ↔
          ¬LoopReached data Go.nameAt ∧ ¬Go.NameBeforeLength data)
      ∧ ((∃ r, (C.parseDns ntop stack data).Returns r) ↔ ¬LoopReached data C.nameAt) :=
  ⟨Go.readName_returns_iff data p, C.readName_returns_iff data p dst,
    Go.parseDNS_returns_iff data, C.parseDns_returns_iff ntop stack data⟩

/-- A query whose only name is a pointer to itself. -/
def selfPointerQuery : Bytes := [0, 0, 1, 0, 0, 1, 0, 0, 0, 0, 0, 0, 0xC0, 12, 0, 1, 0, 1]

theorem looping_selfPointerQuery : Looping selfPointerQuery 12 :=
  ⟨12, .refl, .single (.pointer (by decide))⟩

theorem self_pointer_never_returns :
    (¬∃ r, (Go.readName selfPointerQuery (12 : Nat)).Returns r)
      ∧ (¬∃ r, (C.readName selfPointerQuery (12 : Nat) none 0).Returns r)
      ∧ (¬∃ r, (Go.parseDNS selfPointerQuery).Returns r)
      ∧ ∀ ntop stack, ¬∃ r, (C.parseDns ntop stack selfPointerQuery).Returns r := by
  have hreach : ∀ nameAt, LoopReached selfPointerQuery nameAt := fun _ =>
    .question (by decide) .nil (by decide) looping_selfPointerQuery
  refine ⟨?_, ?_, ?_, fun ntop stack => ?_⟩
  · rw [Go.readName_returns_iff]
    exact not_not.mpr looping_selfPointerQuery
  · rintro ⟨r, hr⟩
    exact hr.not_hangs ((C.readName_hangs_iff C.null_dst).mpr looping_selfPointerQuery)
  · rw [Go.parseDNS_returns_iff]
    exact fun h => h.1 (hreach _)
  · rw [C.parseDns_returns_iff]
    exact not_not.mpr (hreach _)

end Tracep.Dns
