import Tracep.Capture.CapNext

/-!
# Where the frames of a BPF read lie

`cap_next` keeps its frames inside the bytes it has not used up by comparing
the sum of two lengths with their number. Where the arithmetic does not
overflow this is right, a frame is a piece of what is left and what follows
it is a suffix; at the first record that overflows it is not
(`inside_iff_of_stands`). So it is right over a whole read exactly when no
record of the walk overflows (`allInside_iff`).
-/

namespace Tracep.Bpf

open Exec Relation

variable {buf rest : Bytes} {c c' : Capture}

/-- A call of `cap_next` hands out a frame. -/
def Hands (c c' : Capture) : Prop := ∃ frame, (capNext c).Returns (some (frame, c'))

/-- A call of `cap_next` does what it should: a frame that it hands out is a piece of the bytes
that are left, and what it leaves is a suffix of the buffer. -/
def Inside (buf : Bytes) (c : Capture) : Prop :=
  ¬(capNext c).Faults ∧ ∀ frame c', (capNext c).Returns (some (frame, c')) →
    (∃ rest, Stands buf c rest ∧ frame <:+: rest) ∧ ∃ rest, Stands buf c' rest

/-- All calls do, up to the next read. -/
def AllInside (buf : Bytes) : Prop := ∀ c, ReflTransGen Hands (.ofRead buf) c → Inside buf c

/-- The walk over the records that `cap_next` should hand out. -/
def CapWalk : Bytes → Bytes → Prop :=
  ReflTransGen fun rec rest => Complete rec ∧ 20 ≤ hdrlenOf rec ∧ rest = afterRecord rec

/-! ## One call -/

theorem capRecord_some {frame rest' : Bytes} (h : capRecord rest = some (frame, rest')) :
    Complete rest ∧ 20 ≤ hdrlenOf rest ∧ frame = (rest.drop (hdrlenOf rest)).take (caplenOf rest)
      ∧ rest' = afterRecord rest := by
  obtain ⟨hcomplete, hmin⟩ := isSome_capRecord_iff.mp (Option.isSome_of_mem h)
  rw [capRecord_of_complete hcomplete hmin] at h
  cases h
  exact ⟨hcomplete, hmin, rfl, rfl⟩

theorem Stands.recPtr_nonneg {q : Int} (h : Stands buf c rest) (hq : c.recPtr = some q) : 0 ≤ q := by
  cases h with
  | used => cases hq
  | before p hp =>
      cases hq
      exact Int.natCast_nonneg p

/-- At a record that overflows the frame is outside of the buffer, or what is left is. -/
theorem not_inside_of_overflows (hbuf : buf.length < 2 ^ 31) (hc : Stands buf c rest)
    (hover : Overflows rest) : ¬Inside buf c := by
  obtain ⟨hhdr, hmin, hcaplen, hsum⟩ := hover
  cases hc with
  | used => exact absurd hhdr (by decide)
  | before p hp =>
      have hlen : (buf.drop p).length = buf.length - p := List.length_drop
      have hcall := @capNext_before buf p (by omega)
      simp only at hcall
      rw [hlen] at hsum hhdr
      have hword : hdrlenOf (buf.drop p) < 2 ^ 16 := (leWord16 _ _).toNat_lt
      generalize hdrlenOf (buf.drop p) = hdrlen at *
      generalize caplenOf (buf.drop p) = caplen at *
      have hcap : int32 caplen = caplen := int32_eq (by omega) (by omega)
      rw [hcap] at hcall
      rintro ⟨hsafe, hhands⟩
      rcases hsum with hsum | ⟨hpad, hfits⟩
      · -- the sum is negative as an `int`, so the record is taken, and its frame ends outside
        have htotal : int32 ((hdrlen : Int) + caplen) = hdrlen + caplen - 2 ^ 32 :=
          int32_neg (by omega) (by omega)
        have hslice : slice buf (p + hdrlen) (p + hdrlen + caplen) = .fault := if_neg (by omega)
        rw [htotal, if_pos ⟨by omega, by omega, by omega⟩, hslice, fault_bind] at hcall
        rw [hcall] at hsafe
        exact hsafe faults_fault
      · -- the padded length is `-2^31` as an `int`
        have htotal : int32 ((hdrlen : Int) + caplen) = (hdrlen + caplen : Nat) :=
          int32_eq (by omega) (by omega)
        have hadv : int32 (bpfWordAlign (hdrlen + caplen : Nat)) = -2 ^ 31 := by
          rw [bpfWordAlign_eq, int32_neg (by omega) (by omega)]
          omega
        have hslice : slice buf (p + hdrlen) (p + hdrlen + caplen)
            = pure ((buf.drop (p + hdrlen)).take caplen) :=
          slice_eq (p + hdrlen) caplen (by omega) rfl (by omega)
        rw [htotal, if_pos ⟨by omega, by omega, by omega⟩, hslice, pure_bind, hadv,
          if_neg (by omega)] at hcall
        obtain ⟨-, rest', hrest'⟩ := hhands _ _ (hcall ▸ returns_pure.mpr rfl)
        have := hrest'.recPtr_nonneg rfl
        omega

theorem inside_iff_of_stands (hbuf : buf.length < 2 ^ 31) (hc : Stands buf c rest) :
    Inside buf c ↔ ¬Overflows rest := by
  constructor
  · exact fun hin hover => not_inside_of_overflows hbuf hc hover hin
  · intro hno
    rcases capNext_spec hbuf hc hno with ⟨-, hcall⟩ | ⟨frame, rest', c', hsome, hcall, hc'⟩
    · rw [Inside, hcall]
      exact ⟨not_faults_pure, fun _ _ hret => nomatch returns_pure.mp hret⟩
    · rw [Inside, hcall]
      refine ⟨not_faults_pure, fun frame' c'' hret => ?_⟩
      cases returns_pure.mp hret
      obtain ⟨-, -, rfl, -⟩ := capRecord_some hsome
      exact ⟨⟨rest, hc, (List.take_prefix _ _).isInfix.trans (List.drop_suffix _ _).isInfix⟩,
        rest', hc'⟩

/-! ## A whole read -/

theorem stands_ofRead (hbuf : buf.length < 2 ^ 31) : Stands buf (.ofRead buf) buf := by
  rw [Capture.ofRead, int32_eq (by omega) (by omega)]
  exact Stands.before 0 (Nat.zero_le _)

/-- As long as nothing overflows, the calls follow the walk. -/
theorem reach_of_capWalk (hbuf : buf.length < 2 ^ 31) (hall : AllInside buf)
    (hwalk : CapWalk buf rest) :
    ∃ c, ReflTransGen Hands (.ofRead buf) c ∧ Stands buf c rest := by
  induction hwalk with
  | refl => exact ⟨_, .refl, stands_ofRead hbuf⟩
  | tail _ hstep ih =>
      obtain ⟨hcomplete, hmin, rfl⟩ := hstep
      obtain ⟨c, hreach, hc⟩ := ih
      have hno := (inside_iff_of_stands hbuf hc).mp (hall c hreach)
      have hsome := capRecord_of_complete hcomplete hmin
      rcases capNext_spec hbuf hc hno with ⟨hnone, -⟩ | ⟨frame, rest', c', hsome', hcall, hc'⟩
      · rw [hsome] at hnone
        cases hnone
      · rw [hsome] at hsome'
        cases hsome'
        exact ⟨c', hreach.tail ⟨_, hcall ▸ returns_pure.mpr rfl⟩, hc'⟩

theorem capWalk_of_reach (hbuf : buf.length < 2 ^ 31)
    (hno : ∀ rest, CapWalk buf rest → ¬Overflows rest) (hreach : ReflTransGen Hands (.ofRead buf) c) :
    ∃ rest, CapWalk buf rest ∧ Stands buf c rest := by
  induction hreach with
  | refl => exact ⟨buf, .refl, stands_ofRead hbuf⟩
  | tail _ hhands ih =>
      obtain ⟨rest, hwalk, hc⟩ := ih
      obtain ⟨frame, hret⟩ := hhands
      rcases capNext_spec hbuf hc (hno rest hwalk) with
        ⟨-, hcall⟩ | ⟨frame', rest', c', hsome, hcall, hc'⟩
      · rw [hcall] at hret
        cases returns_pure.mp hret
      · rw [hcall] at hret
        cases returns_pure.mp hret
        obtain ⟨hcomplete, hmin, -, rfl⟩ := capRecord_some hsome
        exact ⟨_, hwalk.tail ⟨hcomplete, hmin, rfl⟩, hc'⟩

/-- Over a whole read, every frame lies inside of the bytes that are left and leaves a suffix,
exactly when the walk comes to no record that overflows. -/
theorem allInside_iff (hbuf : buf.length < 2 ^ 31) :
    AllInside buf ↔ ∀ rest, CapWalk buf rest → ¬Overflows rest := by
  constructor
  · intro hall rest hwalk
    obtain ⟨c, hreach, hc⟩ := reach_of_capWalk hbuf hall hwalk
    exact (inside_iff_of_stands hbuf hc).mp (hall c hreach)
  · intro hno c hreach
    obtain ⟨rest, hwalk, hc⟩ := capWalk_of_reach hbuf hno hreach
    exact (inside_iff_of_stands hbuf hc).mpr (hno rest hwalk)

theorem allInside_alignedRecord :
    AllInside alignedRecord ↔ ∀ rest, CapWalk alignedRecord rest → ¬Overflows rest :=
  allInside_iff (by decide)

/-- A header of 20 bytes that claims a frame of `2^31 - 1`. -/
def hugeRecord : Bytes := [0, 0, 0, 0, 0, 0, 0, 0, 255, 255, 255, 127, 0, 0, 0, 0, 20, 0, 0, 0]

theorem hugeRecord_not_inside : hugeRecord.length < 2 ^ 31 ∧ ¬AllInside hugeRecord := by
  refine ⟨by decide, fun hall => ?_⟩
  have hover : Overflows hugeRecord :=
    ⟨by decide, by decide, by decide, Or.inl (by decide)⟩
  exact not_inside_of_overflows (by decide) (stands_ofRead (by decide)) hover (hall _ .refl)

end Tracep.Bpf
