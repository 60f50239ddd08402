import Tracep.Capture.Bpf

/-!
# The C walk over the records of a BPF read

`cap_next` hands out the next frame of its buffer, or asks for another read
when it finds no complete record where it stands. It takes `struct bpf_hdr`
by its size, 20 bytes with the padding of the compiler, where
`bpfNextRecord` takes the nominal 18, and it computes in 32-bit integers.

As long as these do not overflow, the calls of `cap_next` between two reads
are a `Framing` of the buffer: the one of `bpfNextRecord`, except that it
refuses a header of 18 or 19 bytes (`capRecord`). So the two deliver the
same frames from a buffer exactly when the walk over its records comes to
no such header (`capFrames_agree_iff`).
-/

namespace Tracep.Bpf

open Exec Relation

/-! ## The code -/

/-- `sizeof(struct bpf_hdr)`. -/
def sizeofBpfHdr : Int := 20

/-- `struct capture`: the bytes read last, and how far they are used up. `recPtr` (`rec`) points
into them. -/
structure Capture where
  buf : Bytes
  recPtr : Option Int
  reclen : Int

/-- One call of `cap_next`, up to the point where it asks for another read (`none`). -/
def capNext (c : Capture) : Exec (Option (Bytes × Capture)) :=
  match c.recPtr with
  | none => return none
  | some rec =>
      if c.reclen ≥ sizeofBpfHdr then do
        let caplen := int32 (← readLe32 c.buf (rec + 8)).toNat
        let hdrlen := int32 (← readLe16 c.buf (rec + 16)).toNat
        let total := int32 (hdrlen + caplen)
        if hdrlen ≥ sizeofBpfHdr ∧ caplen ≥ 0 ∧ total ≤ c.reclen then do
          let frame ← slice c.buf (rec + hdrlen) (rec + hdrlen + caplen)
          let adv := int32 (bpfWordAlign total)
          if adv ≥ c.reclen then return some (frame, ⟨c.buf, none, 0⟩)
          else return some (frame, ⟨c.buf, some (rec + adv), int32 (c.reclen - adv)⟩)
        else return none
      else return none

/-- What `cap_next` leaves after a `read` of `buf`. -/
def Capture.ofRead (buf : Bytes) : Capture := ⟨buf, some 0, int32 buf.length⟩

/-- One more `cap_next`, over the capture and the frames so far. -/
def capFramesStep (s : Capture × List Bytes) :
    Exec (Capture × List Bytes ⊕ List Bytes) := do
  match ← capNext s.1 with
  | none => return .inr s.2
  | some (frame, c) => return .inl (c, s.2 ++ [frame])

/-- The frames `cap_next` delivers from one read, before it asks for another. -/
def capFrames (buf : Bytes) : Exec (List Bytes) := loop capFramesStep (.ofRead buf, [])

/-! ## Records of a buffer -/

/-- The buffer starts with a header of at least the nominal length and all of its frame. -/
def Complete (rec : Bytes) : Prop :=
  18 ≤ hdrlenOf rec ∧ hdrlenOf rec + caplenOf rec ≤ rec.length

/-- What follows the first record and its padding. -/
def afterRecord (rec : Bytes) : Bytes := rec.drop ((hdrlenOf rec + caplenOf rec + 3) / 4 * 4)

/-- The walk over complete records. -/
def Walk : Bytes → Bytes → Prop :=
  ReflTransGen fun rec rest => Complete rec ∧ rest = afterRecord rec

/-- The sum of the two lengths is a 32-bit integer, or is never computed because `bh_caplen`
is negative as one. -/
def NoOverflow (rec : Bytes) : Prop :=
  hdrlenOf rec + caplenOf rec < 2 ^ 31 ∨ 2 ^ 31 ≤ caplenOf rec

/-- What the 32-bit arithmetic of `cap_next` gets wrong: it takes the record though the sum of the
two lengths is no `int`, or it takes a record so long that its padding ends outside of `int`. -/
def Overflows (rec : Bytes) : Prop :=
  20 ≤ rec.length ∧ 20 ≤ hdrlenOf rec ∧ caplenOf rec < 2 ^ 31
    ∧ (2 ^ 31 ≤ hdrlenOf rec + caplenOf rec
      ∨ 2 ^ 31 - 3 ≤ hdrlenOf rec + caplenOf rec ∧ hdrlenOf rec + caplenOf rec ≤ rec.length)

theorem NoOverflow.not_overflows {rec : Bytes} (h : NoOverflow rec) (hlen : rec.length < 2 ^ 30) :
    ¬Overflows rec := by
  rintro ⟨-, -, hcaplen, hover⟩
  unfold NoOverflow at h
  omega

theorem nextRecord_of_complete {rec : Bytes} (h : Complete rec) :
    nextRecord rec = some ((rec.drop (hdrlenOf rec)).take (caplenOf rec), afterRecord rec) := by
  obtain ⟨hmin, hfits⟩ := h
  rw [nextRecord, if_neg (by omega), afterRecord]

theorem nextRecord_of_not_complete {rec : Bytes} (h : ¬Complete rec) :
    nextRecord rec = none := by
  unfold Complete at h
  rw [nextRecord, if_pos (by omega)]

theorem isSome_nextRecord_iff {rec : Bytes} : (nextRecord rec).isSome ↔ Complete rec := by
  by_cases h : Complete rec
  · simp [nextRecord_of_complete h, h]
  · simp [nextRecord_of_not_complete h, h]

theorem cuts_iff {rec rest : Bytes} :
    records.Cuts rec rest ↔ Complete rec ∧ rest = afterRecord rec := by
  constructor
  · rintro ⟨frame, h⟩
    have hc : Complete rec := isSome_nextRecord_iff.mp (Option.isSome_of_mem h)
    have h' : nextRecord rec = some (frame, rest) := h
    rw [nextRecord_of_complete hc] at h'
    exact ⟨hc, (Prod.mk.inj (Option.some.inj h')).2.symm⟩
  · rintro ⟨hc, rfl⟩
    exact ⟨_, nextRecord_of_complete hc⟩

/-! ## One call -/

/-- The first record, unless its header is shorter than `struct bpf_hdr`. -/
def capRecord (rec : Bytes) : Option (Bytes × Bytes) :=
  if hdrlenOf rec < 20 then none else nextRecord rec

theorem nextRecord_of_capRecord {rec : Bytes} {x : Bytes × Bytes}
    (h : capRecord rec = some x) : nextRecord rec = some x := by
  unfold capRecord at h
  split at h
  · cases h
  · exact h

theorem isSome_capRecord_iff {rec : Bytes} :
    (capRecord rec).isSome ↔ Complete rec ∧ 20 ≤ hdrlenOf rec := by
  unfold capRecord
  split
  · rename_i h
    simp [Nat.not_le.mpr h]
  · rename_i h
    rw [isSome_nextRecord_iff]
    exact (and_iff_left (Nat.le_of_not_lt h)).symm

theorem capRecord_of_complete {rec : Bytes} (h : Complete rec) (hmin : 20 ≤ hdrlenOf rec) :
    capRecord rec = some ((rec.drop (hdrlenOf rec)).take (caplenOf rec), afterRecord rec) := by
  rw [capRecord, if_neg (Nat.not_lt.mpr hmin), nextRecord_of_complete h]

/-- The frames `cap_next` delivers, as a stream. -/
def capRecords : Framing UInt8 Bytes :=
  ⟨capRecord, fun h => nextRecord_shrink (nextRecord_of_capRecord h)⟩

/-- The capture stands before `rest`. -/
inductive Stands (buf : Bytes) : Capture → Bytes → Prop where
  | used : Stands buf ⟨buf, none, 0⟩ []
  | before (p : Nat) : p ≤ buf.length →
      Stands buf ⟨buf, some p, (buf.length - p : Nat)⟩ (buf.drop p)

theorem Stands.length_le {buf rest : Bytes} {c : Capture} (h : Stands buf c rest) :
    rest.length ≤ buf.length := by
  cases h with
  | used => exact Nat.zero_le _
  | before p hp =>
      rw [List.length_drop]
      exact Nat.sub_le _ _

theorem hdrlenOf_drop (buf : Bytes) (p : Nat) :
    hdrlenOf (buf.drop p) = (leWord16 buf (p + 16)).toNat := by
  rw [hdrlenOf, leWord16_drop]

theorem caplenOf_drop (buf : Bytes) (p : Nat) :
    caplenOf (buf.drop p) = (leWord32 buf (p + 8)).toNat := by
  rw [caplenOf, leWord32_drop]

/-- A header read where the capture stands, if there is room for one. -/
theorem capNext_before {buf : Bytes} {p : Nat} (hsize : p + 20 ≤ buf.length) :
    let r := buf.drop p
    capNext ⟨buf, some p, (buf.length - p : Nat)⟩
      = if (hdrlenOf r : Int) ≥ 20 ∧ int32 (caplenOf r) ≥ 0
          ∧ int32 (hdrlenOf r + int32 (caplenOf r)) ≤ (buf.length - p : Nat) then do
        let frame ← slice buf (p + hdrlenOf r) (p + hdrlenOf r + int32 (caplenOf r))
        let adv := int32 (bpfWordAlign (int32 (hdrlenOf r + int32 (caplenOf r))))
        if adv ≥ (buf.length - p : Nat) then return some (frame, ⟨buf, none, 0⟩)
        else return some (frame, ⟨buf, some (p + adv), int32 ((buf.length - p : Nat) - adv)⟩)
      else return none := by
  have hword := (leWord16 buf (p + 16)).toNat_lt
  have hhdrlen : int32 (leWord16 buf (p + 16)).toNat = hdrlenOf (buf.drop p) := by
    rw [hdrlenOf_drop, int32_eq] <;> omega
  have hread := readLe32_eq (d := buf) (i := p + 8) (p + 8) (by omega) (by omega)
  have hread' := readLe16_eq (d := buf) (i := p + 16) (p + 16) (by omega) (by omega)
  unfold capNext sizeofBpfHdr
  simp only []
  rw [if_pos (by omega), hread, hread']
  simp only [pure_bind, hhdrlen, ← caplenOf_drop]

/-- Without overflow a call delivers the first record where it stands and stands before what
follows, or asks for a read where there is none for it. -/
theorem capNext_spec {buf rest : Bytes} {c : Capture} (hbuf : buf.length < 2 ^ 31)
    (hc : Stands buf c rest) (hrest : ¬Overflows rest) :
    (capRecord rest = none ∧ capNext c = pure none)
      ∨ ∃ frame rest' c', capRecord rest = some (frame, rest')
        ∧ capNext c = pure (some (frame, c')) ∧ Stands buf c' rest' := by
  cases hc with
  | used => exact Or.inl ⟨rfl, rfl⟩
  | before p hp =>
      have hlen : (buf.drop p).length = buf.length - p := List.length_drop
      by_cases hsize : p + 20 ≤ buf.length
      case neg =>
        refine Or.inl ⟨?_, ?_⟩
        · rw [← Option.not_isSome_iff_eq_none, isSome_capRecord_iff]
          rintro ⟨⟨-, hfits⟩, hmin⟩
          omega
        · unfold capNext sizeofBpfHdr
          exact if_neg (by simp only []; omega)
      have hcap : caplenOf (buf.drop p) < 2 ^ 32 := (leWord32 _ _).toNat_lt
      have hstand : ∀ q, q ≤ buf.length → Stands buf ⟨buf, some q, (buf.length - q : Nat)⟩
          (buf.drop q) := Stands.before
      rw [capNext_before hsize]
      unfold Overflows at hrest
      rw [hlen] at hrest
      by_cases hgood : Complete (buf.drop p) ∧ 20 ≤ hdrlenOf (buf.drop p)
      case neg =>
        refine Or.inl ⟨?_, if_neg ?_⟩
        · rwa [← Option.not_isSome_iff_eq_none, isSome_capRecord_iff]
        · rintro ⟨hmin, hpos, hfits⟩
          by_cases hneg : 2 ^ 31 ≤ caplenOf (buf.drop p)
          · rw [int32_neg (by omega) (by omega)] at hpos
            omega
          · rw [int32_eq (x := caplenOf (buf.drop p)) (by omega) (by omega),
              int32_eq (by omega) (by omega)] at hfits
            exact hgood ⟨⟨by omega, by omega⟩, by omega⟩
      obtain ⟨hcomplete, hmin⟩ := hgood
      rw [capRecord_of_complete hcomplete hmin, afterRecord, List.drop_drop]
      obtain ⟨-, hfits⟩ := hcomplete
      generalize hdrlenOf (buf.drop p) = hdrlen at *
      generalize caplenOf (buf.drop p) = caplen at *
      have hcaplen : int32 caplen = caplen := int32_eq (by omega) (by omega)
      have htotal : int32 ((hdrlen : Int) + caplen) = (hdrlen + caplen : Nat) :=
        int32_eq (by omega) (by omega)
      have hadv : int32 (bpfWordAlign (hdrlen + caplen : Nat))
          = ((hdrlen + caplen + 3) / 4 * 4 : Nat) := by
        rw [bpfWordAlign_eq, int32_eq (by omega) (by omega)]
      have hframe : slice buf (p + hdrlen) (p + hdrlen + caplen)
          = pure ((buf.drop (p + hdrlen)).take caplen) :=
        slice_eq (p + hdrlen) caplen (by omega) rfl (by omega)
      rw [hcaplen, htotal, hadv, if_pos ⟨by omega, by omega, by omega⟩, hframe, pure_bind,
        List.drop_drop]
      refine Or.inr ?_
      generalize (hdrlen + caplen + 3) / 4 * 4 = adv
      by_cases hend : (adv : Int) ≥ (buf.length - p : Nat)
      · rw [if_pos hend, List.drop_of_length_le (show buf.length ≤ p + adv by omega)]
        exact ⟨_, _, _, rfl, rfl, .used⟩
      · have hleft : int32 ((buf.length - p : Nat) - adv) = (buf.length - (p + adv) : Nat) := by
          rw [int32_eq (by omega) (by omega)]
          omega
        rw [if_neg hend, hleft]
        exact ⟨_, _, _, rfl, rfl, hstand (p + adv) (by omega)⟩

/-! ## A whole read -/

/-- Without overflow the calls of `cap_next` between two reads deliver its stream of frames. -/
theorem capFrames_returns {buf : Bytes} (hbuf : buf.length < 2 ^ 30)
    (hno : ∀ rest, Walk buf rest → NoOverflow rest) :
    (capFrames buf).Returns (capRecords.frames buf) := by
  have hint : buf.length < 2 ^ 31 := by omega
  have hno' : ∀ rest {c}, Stands buf c rest → Walk buf rest → ¬Overflows rest :=
    fun rest _ hc hwalk => (hno rest hwalk).not_overflows (hc.length_le.trans_lt hbuf)
  have hstart : Stands buf (.ofRead buf) buf := by
    rw [Capture.ofRead, int32_eq (by omega) (by omega)]
    exact Stands.before 0 (Nat.zero_le _)
  have hfold : capRecords.frames buf
      = (capRecords.frames buf).foldl (fun out frame => out ++ [frame]) [] := by
    rw [List.foldl_append_eq_append, List.nil_append, ← List.flatMap_def,
      List.flatMap_singleton']
  rw [hfold]
  refine capRecords.loop_frames
    (fun s rest out => Stands buf s.1 rest ∧ s.2 = out ∧ Walk buf rest) _ ?_ ?_
    ⟨hstart, rfl, .refl⟩
  · rintro ⟨c, _⟩ rest out ⟨hc, rfl, hwalk⟩ hnext
    rcases capNext_spec hint hc (hno' rest hc hwalk) with ⟨-, hcall⟩ | ⟨_, _, _, hsome, -⟩
    · rw [capFramesStep, hcall]
      exact returns_pure.mpr rfl
    · exact absurd hnext (by rw [show capRecords.next rest = some _ from hsome]; simp)
  · rintro ⟨c, _⟩ rest out frame rest' ⟨hc, rfl, hwalk⟩ hnext
    rcases capNext_spec hint hc (hno' rest hc hwalk) with ⟨hnone, -⟩ | ⟨_, _, c', hsome, hcall, hc'⟩
    · exact absurd hnext (by rw [show capRecords.next rest = none from hnone]; simp)
    · obtain ⟨rfl, rfl⟩ := Prod.mk.inj (Option.some.inj (hsome.symm.trans hnext))
      refine ⟨(c', _), ?_, hc', rfl, hwalk.tail (cuts_iff.mp ⟨_, nextRecord_of_capRecord hsome⟩)⟩
      rw [Next, capFramesStep, hcall]
      exact returns_pure.mpr rfl

/-- The streams of frames are the same exactly when the walk over the complete records comes to no
header shorter than `struct bpf_hdr`. -/
theorem capRecords_frames_eq_iff (buf : Bytes) :
    capRecords.frames buf = records.frames buf
      ↔ ∀ rest, Walk buf rest → Complete rest → 20 ≤ hdrlenOf rest := by
  have hcuts : ReflTransGen records.Cuts buf = Walk buf := by
    unfold Walk
    congr
    exact funext fun _ => funext fun _ => propext cuts_iff
  rw [Framing.frames_eq_iff (fun _ _ => nextRecord_of_capRecord), hcuts]
  refine forall₂_congr fun rest _ => ?_
  rw [show records.next rest = nextRecord rest from rfl,
    show capRecords.next rest = capRecord rest from rfl, isSome_nextRecord_iff,
    isSome_capRecord_iff]
  exact forall_congr' fun h => and_iff_right h

/-- Within the limits of 32-bit integers, `cap_next` and `bpfNextRecord` deliver the same
frames from a read exactly when the walk over its complete records comes to no header
shorter than `struct bpf_hdr`. -/
theorem capFrames_agree_iff (buf : Bytes) (hbuf : buf.length < 2 ^ 30)
    (hno : ∀ rest, Walk buf rest → NoOverflow rest) :
    (∃ frames, (capFrames buf).Returns frames ∧ (readRecords buf).Returns frames)
      ↔ ∀ rest, Walk buf rest → Complete rest → 20 ≤ hdrlenOf rest := by
  have hcap := capFrames_returns hbuf hno
  have hread := readRecords_returns buf
  have hsame : (∃ frames, (capFrames buf).Returns frames ∧ (readRecords buf).Returns frames)
      ↔ capRecords.frames buf = records.frames buf := by
    constructor
    · rintro ⟨frames, h, h'⟩
      exact (hcap.unique h).trans (hread.unique h').symm
    · exact fun h => ⟨_, hcap, h ▸ hread⟩
  exact hsame.trans (capRecords_frames_eq_iff buf)

/-- From a record that fills its buffer the walk only goes to the end. -/
theorem walk_single {rec rest : Bytes} (h : afterRecord rec = []) (hwalk : Walk rec rest) :
    rest = rec ∨ rest = [] := by
  induction hwalk with
  | refl => exact Or.inl rfl
  | tail _ hstep ih =>
      obtain ⟨hcomplete, rfl⟩ := hstep
      rcases ih with rfl | rfl
      · exact Or.inr h
      · exact absurd hcomplete.1 (by decide)

/-- A record with the 20-byte header of macOS and a frame of five bytes. -/
def alignedRecord : Bytes :=
  [0, 0, 0, 0, 0, 0, 0, 0, 5, 0, 0, 0, 5, 0, 0, 0, 20, 0, 0, 0, 1, 2, 3, 4, 5]

theorem alignedRecord_agrees :
    ∃ frames, (capFrames alignedRecord).Returns frames
      ∧ (readRecords alignedRecord).Returns frames := by
  have hwalk : ∀ rest, Walk alignedRecord rest → rest = alignedRecord ∨ rest = [] :=
    fun _ => walk_single (by decide)
  refine (capFrames_agree_iff alignedRecord (by decide) fun rest h => ?_).mpr fun rest h hc => ?_
  · rcases hwalk rest h with rfl | rfl <;> exact Or.inl (by decide)
  · rcases hwalk rest h with rfl | rfl
    · decide
    · exact absurd hc.1 (by decide)

/-- A record with the nominal 18-byte header and a frame of four bytes. -/
def nominalRecord : Bytes :=
  [0, 0, 0, 0, 0, 0, 0, 0, 4, 0, 0, 0, 4, 0, 0, 0, 18, 0, 0xde, 0xad, 0xbe, 0xef]

/-- Nothing overflows, and yet `cap_next` drops the frame. -/
theorem nominalRecord_dropped :
    nominalRecord.length < 2 ^ 30 ∧ (∀ rest, Walk nominalRecord rest → NoOverflow rest)
      ∧ (capFrames nominalRecord).Returns []
      ∧ (readRecords nominalRecord).Returns [[0xde, 0xad, 0xbe, 0xef]] := by
  have hno : ∀ rest, Walk nominalRecord rest → NoOverflow rest := by
    intro rest h
    rcases walk_single (by decide) h with rfl | rfl <;> exact Or.inl (by decide)
  have hnext : records.next nominalRecord = some ([0xde, 0xad, 0xbe, 0xef], []) := by decide
  have hcap := capFrames_returns (by decide) hno
  have hread := readRecords_returns nominalRecord
  rw [capRecords.frames_of_none (by decide)] at hcap
  rw [records.frames_of_some hnext, records.frames_of_none (by decide)] at hread
  exact ⟨by decide, hno, hcap, hread⟩

end Tracep.Bpf
