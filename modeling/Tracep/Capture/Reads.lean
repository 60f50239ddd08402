import Tracep.Capture.Inside
import Tracep.Lib.Refill

/-!
# Frames from a BPF device

Both programs ask the device for one frame a call. `next` and `cap_next` hand
out what is left of the last read, read again once that is used up or
malformed, go on after an interrupted or an empty read, and report any other
error. So both readers are readers of a stream (`Refill.Reader`), and differ
only in how they cut.

For any reads the calls of the Go program hand out every record of every
read, in order, and the errors between them. Those of the C program hand out
the same, or less: all of it exactly if no read comes to a header shorter than
`struct bpf_hdr` (`captures_agree_iff`).
-/

namespace Tracep.Bpf

open Exec Relation Refill

variable {ε : Type}

namespace Go

/-- `darwinCapture` between two calls of `next`: the bytes `rec` that are left. -/
def reader : Reader Bytes UInt8 Bytes where
  cut := bpfNextRecord
  drop _ := []
  fill _ buf := buf

/-- One call of `next`. -/
def next (rec : Bytes) (reads : List (Answer UInt8 ε)) :
    Exec (Option (Delivery Bytes ε × Bytes × List (Answer UInt8 ε))) :=
  Refill.next reader rec reads

/-- What the calls hand out, from the first on. -/
def captured (reads : List (Answer UInt8 ε)) : Exec (List (Delivery Bytes ε)) :=
  calls next [] reads

end Go

namespace C

/-- `capture` between two calls of `cap_next`. -/
def reader : Reader Capture UInt8 Bytes where
  cut := capNext
  drop c := ⟨c.buf, none, 0⟩
  fill _ buf := .ofRead buf

/-- One call of `cap_next`. -/
def next (c : Capture) (reads : List (Answer UInt8 ε)) :
    Exec (Option (Delivery Bytes ε × Capture × List (Answer UInt8 ε))) :=
  Refill.next reader c reads

/-- What the calls hand out, from the first on. -/
def captured (reads : List (Answer UInt8 ε)) : Exec (List (Delivery Bytes ε)) :=
  calls next ⟨[], none, 0⟩ reads

end C

/-- A read whose lengths stay within 32-bit integers. -/
def Fits (buf : Bytes) : Prop := buf.length < 2 ^ 30 ∧ ∀ rest, Walk buf rest → NoOverflow rest

/-- The capture stands before bytes whose lengths stay within 32-bit integers. -/
def C.Before (c : Capture) (rest : Bytes) : Prop :=
  ∃ buf, buf.length < 2 ^ 30 ∧ Stands buf c rest ∧ ∀ rest', Walk rest rest' → NoOverflow rest'

/-! ## The readers -/

theorem Go.reads : Reads Go.reader records (fun _ => True) Eq where
  cut_none := by
    intro rec rest hs hnext
    subst hs
    rw [show Go.reader.cut rec = bpfNextRecord rec from rfl, bpfNextRecord_eq]
    exact returns_pure.mpr hnext.symm
  cut_some := by
    intro rec rest frame rest' hs hnext
    subst hs
    refine ⟨rest', ?_, rfl⟩
    rw [show Go.reader.cut rec = bpfNextRecord rec from rfl, bpfNextRecord_eq]
    exact returns_pure.mpr hnext.symm
  drop _ := rfl
  fill _ _ := rfl

theorem eq_nil_of_walk {rest : Bytes} (h : Walk [] rest) : rest = [] :=
  or_self_iff.mp (walk_single (show afterRecord [] = [] from rfl) h)

theorem noOverflow_of_walk_nil {rest : Bytes} (h : Walk [] rest) : NoOverflow rest := by
  rw [eq_nil_of_walk h]
  exact Or.inl (Nat.zero_lt_succ _)

namespace C

theorem before_used {buf : Bytes} (hbuf : buf.length < 2 ^ 30) : Before ⟨buf, none, 0⟩ [] :=
  ⟨buf, hbuf, .used, fun _ => noOverflow_of_walk_nil⟩

/-- A call that needs no read does what cutting off a record does. -/
theorem cut_spec {c : Capture} {rest : Bytes} (h : Before c rest) :
    (capRecord rest = none ∧ (capNext c).Returns none)
      ∨ ∃ frame rest' c', capRecord rest = some (frame, rest')
        ∧ (capNext c).Returns (some (frame, c')) ∧ Before c' rest' := by
  obtain ⟨buf, hbuf, hc, hno⟩ := h
  have hover := (hno rest .refl).not_overflows (hc.length_le.trans_lt hbuf)
  rcases capNext_spec (by omega) hc hover with
    ⟨hnone, hcall⟩ | ⟨frame, rest', c', hsome, hcall, hc'⟩
  · exact Or.inl ⟨hnone, hcall ▸ returns_pure.mpr rfl⟩
  · -- what follows is walked over from here on
    obtain ⟨hcomplete, -, -, hafter⟩ := capRecord_some hsome
    exact Or.inr ⟨frame, rest', c', hsome, hcall ▸ returns_pure.mpr rfl, buf, hbuf, hc',
      fun rest'' hwalk => hno rest'' (.head ⟨hcomplete, hafter⟩ hwalk)⟩

theorem reads : Reads reader capRecords Fits Before where
  cut_none := by
    intro c rest hs hnext
    rcases cut_spec hs with ⟨-, hcall⟩ | ⟨_, _, _, hsome, -⟩
    · exact hcall
    · cases hnext.symm.trans hsome
  cut_some := by
    intro c rest frame rest' hs hnext
    rcases cut_spec hs with ⟨hnone, -⟩ | ⟨_, _, c', hsome, hcall, hc'⟩
    · cases hnext.symm.trans hnone
    · obtain ⟨rfl, rfl⟩ := Prod.mk.inj (Option.some.inj (hsome.symm.trans hnext))
      exact ⟨c', hcall, hc'⟩
  drop := by
    rintro c rest ⟨buf, hbuf, hc, -⟩
    cases hc with
    | used => exact before_used hbuf
    | before p hp => exact before_used hbuf
  fill := by
    intro c rest buf _ hfits
    exact ⟨buf, hfits.1, stands_ofRead (hfits.1.trans (by norm_num)), hfits.2⟩

end C

/-! ## All of the calls -/

/-- The calls of `next` hand out the records of each read and the errors, in order. The calls of
`cap_next` hand out the same or less, and all of it exactly when the walk over no read comes to a
complete record whose header is shorter than `struct bpf_hdr`. -/
theorem captures_agree_iff (reads : List (Answer UInt8 ε))
    (hfits : ∀ buf, .data buf ∈ reads → Fits buf) :
    ∃ frames frames', (Go.captured reads).Returns frames ∧ (C.captured reads).Returns frames'
      ∧ frames = reads.flatMap (delivered records) ∧ Clipped frames' frames
      ∧ (frames' = frames ↔ ∀ buf, .data buf ∈ reads →
        ∀ rest, Walk buf rest → Complete rest → 20 ≤ hdrlenOf rest) := by
  have hgo : (Go.captured reads).Returns (deliveries records [] reads) :=
    calls_returns Go.reads rfl fun _ _ => trivial
  have hc : (C.captured reads).Returns (deliveries capRecords [] reads) :=
    calls_returns C.reads (C.before_used (Nat.two_pow_pos 30)) hfits
  rw [deliveries_nil] at hgo hc
  have hclips := delivered_clips (F := records) (G := capRecords)
    (fun _ _ => nextRecord_of_capRecord) reads
  exact ⟨_, _, hgo, hc, rfl, hclips.clipped, hclips.eq_iff.trans
    (forall₂_congr fun buf _ => capRecords_frames_eq_iff buf)⟩

/-- A read that a signal interrupts, one with a record, an error and one that brings nothing. -/
def sampleReads : List (Answer UInt8 Nat) :=
  [.interrupted, .data alignedRecord, .failed 6, .data []]

theorem mem_sampleReads {buf : Bytes} (h : .data buf ∈ sampleReads) :
    buf = alignedRecord ∨ buf = [] := by
  simpa [sampleReads] using h

theorem walk_sampleReads {buf rest : Bytes} (h : .data buf ∈ sampleReads) (hwalk : Walk buf rest) :
    rest = alignedRecord ∨ rest = [] := by
  rcases mem_sampleReads h with rfl | rfl
  · exact walk_single (by decide) hwalk
  · exact Or.inr (eq_nil_of_walk hwalk)

theorem captures_agree_sample :
    ∃ frames, (Go.captured sampleReads).Returns frames
      ∧ (C.captured sampleReads).Returns frames := by
  have hfits : ∀ buf, .data buf ∈ sampleReads → Fits buf := by
    intro buf h
    refine ⟨?_, fun rest hwalk => ?_⟩
    · rcases mem_sampleReads h with rfl | rfl <;> decide
    · rcases walk_sampleReads h hwalk with rfl | rfl <;> exact Or.inl (by decide)
  obtain ⟨frames, frames', hgo, hc, -, -, hiff⟩ := captures_agree_iff sampleReads hfits
  have hsame : frames' = frames := by
    refine hiff.mpr fun buf h rest hwalk hcomplete => ?_
    rcases walk_sampleReads h hwalk with rfl | rfl
    · decide
    · exact absurd hcomplete.1 (by decide)
  subst hsame
  exact ⟨_, hgo, hc⟩

end Tracep.Bpf
