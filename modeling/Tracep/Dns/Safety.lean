import Tracep.Dns.Frame

/-!
# Accesses stay inside the data

The Go parser looks for the name inside RDATA at `rdataOff`, the RDATA's
offset minus its length. This is where its only out-of-range accesses come
from: a call faults exactly when the walk of the answers comes to a
name-carrying record that starts, name included, before offset `RDLENGTH`
(`Go.underflows_iff`). The C parser looks at the RDATA itself and never
leaves the frame; its destination buffers stay NUL-terminated.
-/

namespace Tracep.Dns

open Exec Relation

/-! ## The Go port -/

namespace Go

/-- The answer loop comes to a record carrying a name `k` bytes into its RDATA, with that
name less than `RDLENGTH` bytes into the message. -/
def NameBeforeLength (data : Bytes) : Prop :=
  ∃ p r k, Reached data nameAt p ∧ RecordAt data p r
    ∧ nameSkip r.rtype r.rdlen = some k ∧ r.rdoff + k < r.rdlen

theorem underflows_iff (data : Bytes) :
    Underflows data nameAt ↔ NameBeforeLength data := by
  constructor
  · rintro ⟨p, r, q, hreach, hr, hq, hneg⟩
    obtain ⟨k, hk, rfl⟩ := nameAt_eq_some hq
    exact ⟨p, r, k, hreach, hr, hk, by omega⟩
  · rintro ⟨p, r, k, hreach, hr, hk, hlt⟩
    refine ⟨p, r, (r.rdoff : Int) - r.rdlen + k, hreach, hr, ?_, by omega⟩
    rw [nameAt, hk]
    rfl

theorem parseDNS_faults_iff (data : Bytes) :
    (parseDNS data).Faults ↔ NameBeforeLength data :=
  (messageParser data).faults_iff_underflows.trans (underflows_iff data)

/-- A message parser that does not fault is followed by nothing that does. -/
theorem parseDNSFromPacket_faults_iff (pkt : Bytes) :
    (parseDNSFromPacket pkt).Faults ↔
      ∃ g, datagram pkt = some g ∧ (parseDNS g.payload).Faults := by
  rw [parseDNSFromPacket_eq]
  cases hg : datagram pkt with
  | none => simp
  | some g =>
      constructor
      · intro h
        rcases faults_bind.mp h with h | ⟨r, -, h⟩
        · exact ⟨g, rfl, h⟩
        · exact absurd h not_faults_pure
      · rintro ⟨_, ⟨⟩, h⟩
        exact h.bind _

/-- Parsing evaluates no index or slice expression out of range exactly when no record
reached by the walk has its name before offset `RDLENGTH`. -/
theorem parseDNS_in_range_iff (data pkt : Bytes) :
    (¬(parseDNS data).Faults ↔ ¬NameBeforeLength data)
      ∧ (¬(parseDNSFromPacket pkt).Faults ↔
        ∀ g, datagram pkt = some g → ¬NameBeforeLength g.payload) := by
  refine ⟨not_congr (parseDNS_faults_iff data), ?_⟩
  rw [parseDNSFromPacket_faults_iff]
  constructor
  · exact fun h g hg hb => h ⟨g, hg, (parseDNS_faults_iff _).mpr hb⟩
  · rintro h ⟨g, hg, hf⟩
    exact h g hg ((parseDNS_faults_iff _).mp hf)

/-- A response with one CNAME record of 30 bytes, at offset 23. -/
def longCname : Bytes :=
  [0, 0, 0x80, 0, 0, 0, 0, 1, 0, 0, 0, 0] ++ [0, 0, 5, 0, 1, 0, 0, 0, 0, 0, 30]
    ++ List.replicate 30 0

theorem parseDNS_out_of_range : ¬∀ data, ¬(parseDNS data).Faults :=
  fun h => h longCname ⟨5, by decide⟩

end Go

/-! ## The C port -/

namespace C

variable (ntop : InetNtop) (stack : Stack)

/-- Names are never looked for before the data. -/
theorem not_underflows (d : Bytes) : ¬Underflows d nameAt := by
  rintro ⟨p, r, q, -, -, hq, hneg⟩
  obtain ⟨k, -, rfl⟩ := nameAt_eq_some hq
  omega

theorem parseDns_not_faults (d : Bytes) : ¬(parseDns ntop stack d).Faults :=
  fun h => not_underflows d ((messageParser ntop stack d).faults_iff_underflows.mp h)

theorem parsePacket_not_faults (pkt : Bytes) : ¬(parsePacket ntop stack pkt).Faults := by
  rw [parsePacket_eq]
  cases datagram pkt with
  | none => exact not_faults_pure
  | some g => exact not_faults_bind (parseDns_not_faults ntop stack _) fun _ _ => not_faults_pure

/-- A buffer of `cap` bytes with a NUL in it. -/
def Terminated (cap : Nat) (dst : Option Bytes) : Prop :=
  ∃ b, dst = some b ∧ b.length = cap ∧ 0 ∈ b

theorem DstHolds.terminated {cap : Nat} {w : Int} {text : Bytes} {dst : Option Bytes}
    (h : DstHolds cap w text dst) (hsome : dst.isSome = true) : Terminated cap dst := by
  cases dst with
  | none => cases hsome
  | some b =>
      obtain ⟨hlt, hnul⟩ := List.getElem?_eq_some_iff.mp h.nul
      exact ⟨b, rfl, h.length, hnul ▸ List.getElem_mem hlt⟩

/-- The loop states of `read_name` called with the buffer `b`. -/
def Visits (d b : Bytes) (p : Nat) (s : NameState) : Prop :=
  ReflTransGen (Next (readNameStep d b.length)) ⟨p, -1, 0, some (b.set 0 0)⟩ s

/-- Between two iterations, and at the end, the buffer keeps its length and is
NUL-terminated. -/
theorem readName_terminated (d : Bytes) (p : Nat) {b : Bytes} (hb : b ≠ []) :
    (∀ s, Visits d b p s → Terminated b.length s.dst)
      ∧ ∀ r, (readName d p (some b) b.length).Returns r → Terminated b.length r.2 := by
  have hpos := List.length_pos_iff.mpr hb
  have htied := tied_buffer p (b := b) rfl hpos
  have hstep := readName_inStep d b.length true
  rw [readName_buffer d p rfl hpos]
  constructor
  · intro s hs
    obtain ⟨g, -, hs'⟩ := hstep.reach htied hs
    exact hs'.dst.terminated hs'.written_eq
  · intro r hr
    obtain ⟨g, -, hout⟩ := hstep.loop_returns htied hr
    obtain ⟨w, text, hholds, -⟩ := hout.dst
    exact hholds.terminated hout.written_eq

/-- Addresses as `ipText` shows them. -/
def InetNtop.standard : InetNtop where
  text ip := if 0 ∉ ipText ip ∧ (ipText ip).length < 46 then ipText ip else []
  noNul ip := by
    split
    · exact (‹_ ∧ _›).1
    · simp
  fits ip := by
    split
    · exact (‹_ ∧ _›).2
    · simp

/-- Stack buffers that happen to hold zeros. -/
def Stack.zeroed : Stack :=
  ⟨fun _ => ⟨_, List.length_replicate (n := 256) (a := 0)⟩,
    fun _ => ⟨_, List.length_replicate (n := 256) (a := 0)⟩⟩

end C

end Tracep.Dns
