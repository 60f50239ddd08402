import Tracep.Lib.Loop
import Tracep.Lib.Framing
import Tracep.Lib.Bytes
import Mathlib.Data.Int.Bitwise

/-!
# Records of a BPF read

One read of a BPF device on macOS yields records back to back: a `bpf_hdr`
whose `bh_hdrlen` is the offset of the frame, the frame, and padding up to
the next multiple of four. `bpfNextRecord` cuts the first one off. It never
reads outside the buffer and is a plain function of it (`bpfNextRecord_eq`),
one that consumes at least a header, so it is a `Framing` (`records`) and
what holds of framings holds of it: cutting until nothing is left undoes
the kernel's layout, and cuts pieces of any buffer, in order
(`readRecords_buffer`).
-/

namespace Tracep.Bpf

open Exec

/-! ## The code -/

/-- `binary.LittleEndian.Uint16`. -/
def littleEndianUint16 (b : Bytes) : Exec UInt16 := do
  let hi ← index b 1
  let lo ← index b 0
  return le16 lo hi

/-- `binary.LittleEndian.Uint32`. -/
def littleEndianUint32 (b : Bytes) : Exec UInt32 := do
  let b3 ← index b 3
  let b0 ← index b 0
  let b1 ← index b 1
  let b2 ← index b 2
  return le32 b0 b1 b2 b3

/-- Round up to the BPF alignment. -/
def bpfWordAlign (x : Int) : Int := (x + 3).ldiff 3

/-- Split the first record off the buffer: its frame and the remaining buffer. -/
def bpfNextRecord (rec : Bytes) : Exec (Option (Bytes × Bytes)) :=
  if rec.length < 18 then return none
  else do
    let caplen : Int := (← littleEndianUint32 (← slice rec 8 12)).toNat
    let hdrlen : Int := (← littleEndianUint16 (← slice rec 16 18)).toNat
    -- on 64 bits `caplen` is never negative; the test is the source's
    if hdrlen < 18 ∨ caplen < 0 ∨ hdrlen + caplen > rec.length then return none
    else do
      let frame ← slice rec hdrlen (hdrlen + caplen)
      let advance := bpfWordAlign (hdrlen + caplen)
      let rest ← if advance ≥ rec.length then pure [] else slice rec advance rec.length
      return some (frame, rest)

/-- One more `bpfNextRecord`, over the remaining buffer and the frames so far. -/
def readRecordsStep (s : Bytes × List Bytes) : Exec (Bytes × List Bytes ⊕ List Bytes) := do
  let (rec, out) := s
  match ← bpfNextRecord rec with
  | none => return .inr out
  | some (frame, rest) => return .inl (rest, out ++ [frame])

/-- `bpfNextRecord` repeated on what it leaves, until there is no record: the frames. -/
def readRecords (buf : Bytes) : Exec (List Bytes) := loop readRecordsStep (buf, [])

/-! ## One record -/

/-- The next multiple of four. -/
theorem bpfWordAlign_eq (n : Nat) : bpfWordAlign n = ((n + 3) / 4 * 4 : Nat) := by
  rw [← ldiff_three]
  rfl

/-- `bh_hdrlen`. -/
def hdrlenOf (rec : Bytes) : Nat := (leWord16 rec 16).toNat

/-- `bh_caplen`. -/
def caplenOf (rec : Bytes) : Nat := (leWord32 rec 8).toNat

/-- The first record of a buffer that has one, complete, and what follows its padding. -/
def nextRecord (rec : Bytes) : Option (Bytes × Bytes) :=
  if rec.length < 18 ∨ hdrlenOf rec < 18 ∨ rec.length < hdrlenOf rec + caplenOf rec then none
  else some ((rec.drop (hdrlenOf rec)).take (caplenOf rec),
    rec.drop ((hdrlenOf rec + caplenOf rec + 3) / 4 * 4))

theorem littleEndianUint16_slice {rec : Bytes} (h : 18 ≤ rec.length) :
    littleEndianUint16 ((rec.drop 16).take 2) = pure (leWord16 rec 16) := by
  have h0 := index_take_drop 0 (show 0 < 2 by omega) (show 16 + 2 ≤ rec.length by omega)
  have h1 := index_take_drop 1 (show 1 < 2 by omega) (show 16 + 2 ≤ rec.length by omega)
  simp only [Nat.cast_zero, Nat.cast_one] at h0 h1
  rw [littleEndianUint16, h0, h1]
  rfl

theorem littleEndianUint32_slice {rec : Bytes} (h : 18 ≤ rec.length) :
    littleEndianUint32 ((rec.drop 8).take 4) = pure (leWord32 rec 8) := by
  have hle : 8 + 4 ≤ rec.length := by omega
  have h0 := index_take_drop 0 (show 0 < 4 by omega) hle
  have h1 := index_take_drop 1 (show 1 < 4 by omega) hle
  have h2 := index_take_drop 2 (show 2 < 4 by omega) hle
  have h3 := index_take_drop 3 (show 3 < 4 by omega) hle
  simp only [Nat.cast_zero, Nat.cast_one, Nat.cast_ofNat] at h0 h1 h2 h3
  rw [littleEndianUint32, h0, h1, h2, h3]
  rfl

/-- No buffer makes `bpfNextRecord` read outside it. -/
theorem bpfNextRecord_eq (rec : Bytes) : bpfNextRecord rec = pure (nextRecord rec) := by
  unfold bpfNextRecord nextRecord
  by_cases h18 : rec.length < 18
  · rw [if_pos h18, if_pos (Or.inl h18)]
  have hcap := slice_eq (d := rec) (i := 8) (j := 12) 8 4 rfl rfl (by omega)
  have hhdr := slice_eq (d := rec) (i := 16) (j := 18) 16 2 rfl rfl (by omega)
  have hlen : 18 ≤ rec.length := Nat.le_of_not_lt h18
  rw [if_neg h18, hcap, hhdr]
  simp only [pure_bind, littleEndianUint32_slice hlen, littleEndianUint16_slice hlen]
  rw [show (leWord16 rec 16).toNat = hdrlenOf rec by rfl,
    show (leWord32 rec 8).toNat = caplenOf rec by rfl]
  by_cases hbad : hdrlenOf rec < 18 ∨ rec.length < hdrlenOf rec + caplenOf rec
  · rw [if_pos (by omega), if_pos (Or.inr hbad)]
  rw [if_neg (by omega), if_neg (by omega)]
  have hframe := slice_eq (d := rec) (hdrlenOf rec) (caplenOf rec) rfl rfl (by omega)
  have hadvance : bpfWordAlign ((hdrlenOf rec : Int) + caplenOf rec)
      = ((hdrlenOf rec + caplenOf rec + 3) / 4 * 4 : Nat) := by
    rw [← bpfWordAlign_eq, Nat.cast_add]
  rw [hframe, pure_bind]
  simp only [hadvance]
  generalize (hdrlenOf rec + caplenOf rec + 3) / 4 * 4 = advance
  by_cases hend : rec.length ≤ advance
  · rw [if_pos (by omega), List.drop_of_length_le hend]
  · rw [if_neg (by omega), slice_drop (by omega), pure_bind]

/-! ## The buffer as a stream of records -/

theorem nextRecord_shrink {rec frame rest : Bytes}
    (h : nextRecord rec = some (frame, rest)) : rest.length < rec.length := by
  unfold nextRecord at h
  split at h
  · cases h
  · obtain ⟨-, rfl⟩ := Prod.mk.inj (Option.some.inj h)
    rw [List.length_drop]
    omega

/-- A frame is a piece of the buffer, and lies before what remains. -/
theorem nextRecord_piece {rec frame rest : Bytes} (h : nextRecord rec = some (frame, rest)) :
    ∃ g t, rec = g ++ frame ++ (t ++ rest) := by
  unfold nextRecord at h
  split at h
  · cases h
  · obtain ⟨rfl, rfl⟩ := Prod.mk.inj (Option.some.inj h)
    generalize hdrlenOf rec = hdrlen at *
    generalize caplenOf rec = caplen at *
    have hpad : hdrlen + caplen ≤ (hdrlen + caplen + 3) / 4 * 4 := by omega
    refine ⟨rec.take hdrlen, (rec.drop (hdrlen + caplen)).take
      ((hdrlen + caplen + 3) / 4 * 4 - (hdrlen + caplen)), ?_⟩
    have hframe := drop_split rec (Nat.le_add_right hdrlen caplen)
    rw [Nat.add_sub_cancel_left] at hframe
    rw [← drop_split rec hpad, List.append_assoc, ← hframe, List.take_append_drop]

/-- The records of a buffer. -/
def records : Framing UInt8 Bytes := ⟨nextRecord, nextRecord_shrink⟩

/-- The repetition stops, with the records of the buffer. -/
theorem readRecords_returns (buf : Bytes) : (readRecords buf).Returns (records.frames buf) := by
  refine records.loop_collect (fun rec out h => ?_) (fun rec out frame rest h => ?_) buf
  · rw [readRecordsStep, bpfNextRecord_eq, show nextRecord rec = none from h]
    rfl
  · rw [readRecordsStep, bpfNextRecord_eq, show nextRecord rec = some (frame, rest) from h]
    rfl

/-! ## What the kernel writes -/

/-- A record as the kernel lays it out: the header, of any length its field can hold, and
the frame. -/
structure Record where
  tstamp : {b : Bytes // b.length = 8}
  datalen : {b : Bytes // b.length = 4}
  extra : Bytes
  frame : Bytes
  hdrlen_lt : 18 + extra.length < 2 ^ 16
  caplen_lt : frame.length < 2 ^ 32

namespace Record

def hdrlen (r : Record) : Nat := 18 + r.extra.length

def header (r : Record) : Bytes :=
  r.tstamp.1 ++ (le32Bytes (.ofNat r.frame.length) ++ (r.datalen.1
    ++ (le16Bytes (.ofNat r.hdrlen) ++ r.extra)))

def bytes (r : Record) : Bytes := r.header ++ r.frame

/-- The padding after a record. -/
def padding (r : Record) : Nat :=
  (bpfWordAlign (r.hdrlen + r.frame.length : Nat)).toNat - (r.hdrlen + r.frame.length)

def padded (r : Record) : Bytes := r.bytes ++ List.replicate r.padding 0

theorem header_length (r : Record) : r.header.length = r.hdrlen := by
  simp only [header, hdrlen, List.length_append, r.tstamp.2, r.datalen.2, le32Bytes_length,
    le16Bytes_length]
  omega

/-- The header says where the frame lies. -/
theorem header_fields (r : Record) (x : Bytes) :
    caplenOf (r.bytes ++ x) = r.frame.length ∧ hdrlenOf (r.bytes ++ x) = r.hdrlen := by
  have h : At (r.bytes ++ x) 0 (r.bytes ++ x) := ⟨by simp, by simp⟩
  obtain ⟨hbytes, -⟩ := At.append_iff.mp h
  obtain ⟨hheader, -⟩ := At.append_iff.mp hbytes
  obtain ⟨-, hrest⟩ := At.append_iff.mp hheader
  obtain ⟨hcap, hrest⟩ := At.append_iff.mp hrest
  obtain ⟨-, hrest⟩ := At.append_iff.mp hrest
  obtain ⟨hhdr, -⟩ := At.append_iff.mp hrest
  rw [r.tstamp.2, Nat.zero_add] at hcap hhdr
  rw [le32Bytes_length, r.datalen.2] at hhdr
  constructor
  · rw [caplenOf, hcap.leWord32]
    exact Nat.mod_eq_of_lt r.caplen_lt
  · rw [hdrlenOf, hhdr.leWord16]
    exact Nat.mod_eq_of_lt r.hdrlen_lt

/-- A record is cut off whatever follows it, and as much of that as its padding takes. -/
theorem nextRecord_bytes (r : Record) (x : Bytes) :
    nextRecord (r.bytes ++ x) = some (r.frame, x.drop r.padding) := by
  obtain ⟨hcap, hhdr⟩ := r.header_fields x
  have hlen : (r.bytes ++ x).length = r.hdrlen + r.frame.length + x.length := by
    rw [bytes, List.length_append, List.length_append, r.header_length]
  have hge : 18 ≤ r.hdrlen := Nat.le_add_right 18 _
  have hpadding : r.padding = (r.hdrlen + r.frame.length + 3) / 4 * 4
      - (r.hdrlen + r.frame.length) := by
    rw [padding, bpfWordAlign_eq, Int.toNat_natCast]
  have halign : (r.hdrlen + r.frame.length + 3) / 4 * 4
      = r.hdrlen + r.frame.length + r.padding := by omega
  rw [nextRecord, hcap, hhdr, hlen, if_neg (by omega), halign, bytes, List.append_assoc,
    Nat.add_assoc, ← List.drop_drop, ← List.drop_drop, ← r.header_length, List.drop_left,
    List.drop_left, List.take_left]

theorem nextRecord_padded (r : Record) (s : Bytes) :
    nextRecord (r.padded ++ s) = some (r.frame, s) := by
  rw [padded, List.append_assoc, r.nextRecord_bytes, List.drop_append_of_le_length (by simp)]
  simp

theorem nextRecord_last (r : Record) : nextRecord r.bytes = some (r.frame, []) := by
  have h := r.nextRecord_bytes []
  rwa [List.append_nil, List.drop_nil] at h

end Record

/-- Records as they stand in a read: all padded but possibly the last. -/
def buffer (rs : List Record) (last : Option Record) : Bytes :=
  (rs.map Record.padded).flatten ++ (last.map Record.bytes).getD []

/-- Reading what the kernel wrote yields its frames, in order, and then no record; reading
any buffer comes to an end, and the frames are pieces of it, one after another. -/
theorem readRecords_buffer :
    (∀ rs last, (readRecords (buffer rs last)).Returns
      ((rs ++ last.toList).map Record.frame))
      ∧ ∀ buf, ∃ frames, (readRecords buf).Returns frames ∧ Pieces frames buf := by
  constructor
  · intro rs last
    have htail : records.frames ((last.map Record.bytes).getD [])
        = last.toList.map Record.frame := by
      have hnil : records.frames [] = [] := records.frames_of_none rfl
      cases last with
      | none => exact hnil
      | some r =>
          rw [Option.map_some, Option.getD_some, records.frames_of_some r.nextRecord_last, hnil]
          rfl
    have h := readRecords_returns (buffer rs last)
    rwa [buffer, records.frames_encode Record.nextRecord_padded, htail, ← List.map_append] at h
  · intro buf
    exact ⟨_, readRecords_returns buf,
      records.frames_pieces (fun _ _ _ => nextRecord_piece) buf⟩

end Tracep.Bpf
