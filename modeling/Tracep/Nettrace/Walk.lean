import Tracep.Nettrace.Process

/-!
# The walk over a receive buffer

The C walk compares `nlmsg_len` and its aligned value as signed numbers, so
either passes the test against what is left once it reaches `2 ^ 31`. As
long as an `int` holds the aligned length of every message it accepts, the
walk stays inside the buffer and inspects the messages of the buffer, one
after another (`processNlMsgs_returns`). On coming to any other message it
parses beyond the buffer, leaves it, or goes round forever, so the condition
is exact (`processNlMsgs_safe_iff`).
-/

namespace Tracep.Nettrace.C

open Exec Relation Netlink

variable {opts : Options} {mem r : Bytes} {s s' : NlCursor}

/-! ## One iteration -/

/-- The cursor stands before what is left of the buffer. -/
def Stands (mem : Bytes) (s : NlCursor) (r : Bytes) : Prop :=
  ∃ p : Nat, p ≤ mem.length ∧ s.data = p ∧ s.len = r.length ∧ r = mem.drop p

/-- The bounds guard lets the message pass. -/
def Accepted (r : Bytes) : Prop :=
  16 ≤ r.length ∧ 16 ≤ lenOf r ∧ int32 (lenOf r) ≤ r.length

/-- An `int` holds the aligned length, or the message is refused. -/
def Held (r : Bytes) : Prop :=
  align4 (lenOf r) < 2 ^ 31 ∨ lenOf r < 2 ^ 31 ∧ r.length < lenOf r

theorem Held.accepted_iff (h : Held r) : Accepted r ↔ Present r := by
  have hle := le_align4 (lenOf r)
  have hlt : lenOf r < 2 ^ 31 := by
    rcases h with h | h <;> omega
  unfold Accepted Present
  rw [int32_eq (by omega) (by omega)]
  omega

theorem Stands.header (hs : Stands mem s r) (h16 : 16 ≤ r.length) :
    readLe32 mem s.data = pure (leWord32 r 0) := by
  obtain ⟨p, hp, hdata, -, rfl⟩ := hs
  rw [List.length_drop] at h16
  rw [hdata, readLe32_eq p rfl (by omega), leWord32_drop, Nat.add_zero]

/-- The walk ends before what is not accepted. -/
theorem step_ends (hs : Stands mem s r) (h : ¬Accepted r) :
    processNlMsgsStep opts mem s = pure (.inr s.visits) := by
  unfold processNlMsgsStep
  have hlen : s.len = r.length := hs.choose_spec.2.2.1
  by_cases h16 : 16 ≤ r.length
  · have hrefused : leWord32 r 0 < 16 ∨ int32 (leWord32 r 0).toNat > s.len := by
      rw [hlen, UInt32.lt_iff_toNat_lt]
      by_contra hno
      rw [not_or, not_lt, not_lt] at hno
      exact h ⟨h16, hno.1, hno.2⟩
    rw [if_pos (by omega), hs.header h16, pure_bind, if_pos hrefused]
  · rw [if_neg (by omega)]

/-- Behind an accepted message the cursor goes on, unless nothing is left by signed reckoning. -/
theorem step_goes_on (hs : Stands mem s r) (h : Accepted r)
    {v : Visit (Int × Int) ConnTuple}
    (hv : (inspect opts mem s.data (leWord32 r 0)).Returns v) :
    let aligned := nlmsgAlign (leWord32 r 0)
    (processNlMsgsStep opts mem s).Returns (
      if int32 aligned.toNat ≥ s.len then .inr (s.visits ++ [v])
      else .inl ⟨s.data + aligned.toNat, int32 (s.len - int32 aligned.toNat),
        s.visits ++ [v]⟩) := by
  intro aligned
  obtain ⟨h16, hmin, hfits⟩ := h
  have hlen : s.len = r.length := hs.choose_spec.2.2.1
  have hpasses : ¬(leWord32 r 0 < 16 ∨ int32 (leWord32 r 0).toNat > s.len) := by
    rw [hlen, UInt32.lt_iff_toNat_lt, not_or, not_lt, not_lt]
    exact ⟨hmin, hfits⟩
  unfold processNlMsgsStep
  rw [if_pos (by omega), hs.header h16, pure_bind, if_neg hpasses, hv.bind_iff]
  by_cases hlast : int32 aligned.toNat ≥ s.len
  · simp only [aligned, if_pos hlast]
    exact returns_pure.mpr rfl
  · simp only [aligned, if_neg hlast]
    exact returns_pure.mpr rfl

/-! ## Messages that an `int` holds -/

/-- Before a message the walk inspects it, and goes on behind it if anything is left. -/
theorem step_spec (opts : Options) (hmem : mem.length < 2 ^ 31) (hs : Stands mem s r)
    (hheld : 16 ≤ r.length → Held r) :
    (¬Present r ∧ processNlMsgsStep opts mem s = pure (.inr s.visits))
      ∨ Present r ∧ ∃ v, Shows mem v (visitWith firstLook isV4 opts (messageAt r))
        ∧ ((∃ s', Next (processNlMsgsStep opts mem) s s' ∧ Stands mem s' (afterMessage r)
            ∧ s'.visits = s.visits ++ [v])
          ∨ afterMessage r = []
            ∧ (processNlMsgsStep opts mem s).Returns (.inr (s.visits ++ [v]))) := by
  by_cases hp : Present r
  case neg =>
    refine Or.inl ⟨hp, step_ends hs fun hacc => ?_⟩
    exact hp ((hheld hacc.1).accepted_iff.mp hacc)
  refine Or.inr ⟨hp, ?_⟩
  have hroom : 16 ≤ r.length := hp.1.trans hp.2
  have hacc : Accepted r := (hheld hroom).accepted_iff.mpr hp
  have halign : align4 (lenOf r) < 2 ^ 31 := (hheld hroom).resolve_right fun h => by
    exact absurd hp.2 (Nat.not_le.mpr h.2)
  have hle := le_align4 (lenOf r)
  obtain ⟨p, hpm, hdata, hlen, hr⟩ := id hs
  obtain ⟨v, hv, hshows⟩ : ∃ v, (inspect opts mem s.data (leWord32 r 0)).Returns v
      ∧ Shows mem v (visitWith firstLook isV4 opts (messageAt r)) := by
    subst hr
    rw [hdata]
    exact inspect_returns hp (by omega)
  have haligned : (nlmsgAlign (leWord32 r 0)).toNat = align4 (lenOf r) :=
    nlmsgAlign_toNat (show lenOf r + 3 < 2 ^ 32 by omega)
  have hgoes := step_goes_on hs hacc hv
  simp only [haligned, int32_eq (x := align4 (lenOf r)) (by omega) (by omega)] at hgoes
  refine ⟨v, hshows, ?_⟩
  have hrlen : r.length = mem.length - p := by rw [hr, List.length_drop]
  by_cases hlast : ((align4 (lenOf r) : Nat) : Int) ≥ s.len
  · rw [if_pos hlast] at hgoes
    exact Or.inr ⟨List.drop_of_length_le (by omega), hgoes⟩
  · rw [if_neg hlast] at hgoes
    refine Or.inl ⟨_, hgoes, ⟨p + align4 (lenOf r), by omega, ?_, ?_, ?_⟩, rfl⟩
    · rw [hdata, Nat.cast_add]
    · change int32 _ = _
      rw [int32_eq (by omega) (by omega), afterMessage, List.length_drop]
      omega
    · rw [afterMessage, hr, List.drop_drop, ← hr]

theorem stands_start (mem : Bytes) : Stands mem ⟨0, mem.length, []⟩ mem :=
  ⟨0, Nat.zero_le _, rfl, rfl, rfl⟩

/-- The cursor comes only to what the walk over the messages does. -/
theorem walk_of_reach (hmem : mem.length < 2 ^ 31)
    (hheld : ∀ r, Walk mem r → 16 ≤ r.length → Held r)
    (hreach : ReflTransGen (Next (processNlMsgsStep opts mem)) ⟨0, mem.length, []⟩ s) :
    ∃ r, Walk mem r ∧ Stands mem s r := by
  refine reach_invariant (fun s => ∃ r, Walk mem r ∧ Stands mem s r)
    ⟨mem, .refl, stands_start mem⟩ ?_ hreach
  rintro a b ⟨r, hwalk, hs⟩ hnext
  unfold Next at hnext
  rcases step_spec opts hmem hs (hheld r hwalk) with ⟨-, hend⟩ | ⟨hp, v, -, hgoes⟩
  · rw [hend] at hnext
    cases returns_pure.mp hnext
  · rcases hgoes with ⟨s', hs', hstands, -⟩ | ⟨-, hend⟩
    · obtain rfl := Sum.inl.inj (hnext.unique hs')
      exact ⟨_, hwalk.tail ⟨hp, rfl⟩, hstands⟩
    · cases hnext.unique hend

/-- The messages of the buffer are inspected, one after another. -/
theorem processNlMsgs_returns (opts : Options) (hmem : mem.length < 2 ^ 31)
    (hheld : ∀ r, Walk mem r → 16 ≤ r.length → Held r) :
    ∃ visits, (processNlMsgs opts mem 0 mem.length).Returns visits
      ∧ List.Forall₂ (fun v msg => Shows mem v (visitWith firstLook isV4 opts msg)) visits
        (messages.frames mem) := by
  have hstart : Walk mem mem ∧ Stands mem ⟨0, mem.length, []⟩ mem
      ∧ List.Forall₂ (fun v msg => Shows mem v (visitWith firstLook isV4 opts msg)) [] [] :=
    ⟨.refl, stands_start mem, .nil⟩
  refine messages.loop_frames_rel
    (fun s r acc => Walk mem r ∧ Stands mem s r
      ∧ List.Forall₂ (fun v msg => Shows mem v (visitWith firstLook isV4 opts msg)) s.visits acc)
    (List.Forall₂ fun v msg => Shows mem v (visitWith firstLook isV4 opts msg))
    ?_ ?_ hstart
  · rintro s r acc ⟨hwalk, hs, hvisits⟩ hnext
    rcases step_spec opts hmem hs (hheld r hwalk) with ⟨-, hend⟩ | ⟨hp, -⟩
    · exact ⟨_, by rw [hend]; exact returns_pure.mpr rfl, hvisits⟩
    · rw [messages, Framing.headed_next_of hp] at hnext
      cases hnext
  · rintro s r acc msg rest ⟨hwalk, hs, hvisits⟩ hnext
    obtain ⟨hp, rfl, rfl⟩ := Framing.headed_next_iff.mp hnext
    rcases step_spec opts hmem hs (hheld r hwalk) with ⟨hp', -⟩ | ⟨-, v, hv, hgoes⟩
    · exact absurd hp hp'
    have hvisits' := List.rel_append hvisits (.cons hv .nil)
    rcases hgoes with ⟨s', hs', hstands, heq⟩ | ⟨hlast, hend⟩
    · exact Or.inl ⟨s', hs', hwalk.tail ⟨hp, rfl⟩, hstands, heq ▸ hvisits'⟩
    · rw [hlast]
      exact Or.inr ⟨Framing.headed_next_none (by decide), _, hend, hvisits'⟩

/-! ## Safety -/

/-- The walk accepts the message at the cursor, of length `mlen`. -/
def Inspects (data : Bytes) (s : NlCursor) (mlen : UInt32) : Prop :=
  s.len ≥ 16 ∧ (readLe32 data s.data).Returns mlen ∧ ¬(mlen < 16 ∨ int32 mlen.toNat > s.len)

/-- The states that the walk over `data` comes to. -/
def Reached (opts : Options) (data : Bytes) : NlCursor → Prop :=
  ReflTransGen (Next (processNlMsgsStep opts data)) ⟨0, data.length, []⟩

/-- The walk ends, its cursor stays inside the buffer, and so do the header and the payload
range of every message it inspects. -/
structure Safe (opts : Options) (data : Bytes) : Prop where
  terminates : ∃ visits, (processNlMsgs opts data 0 data.length).Returns visits
  cursor : ∀ s, Reached opts data s → 0 ≤ s.data ∧ s.data ≤ data.length
  header : ∀ s mlen, Reached opts data s → Inspects data s mlen → s.data + 16 ≤ data.length
  payload : ∀ s mlen, Reached opts data s → Inspects data s mlen →
    ∀ i, s.data + 16 ≤ i → i < s.data + 16 + dataLenOf mlen → 0 ≤ i ∧ i < data.length

theorem Stands.inspects_iff (hs : Stands mem s r) {mlen : UInt32} :
    Inspects mem s mlen ↔ Accepted r ∧ mlen = leWord32 r 0 := by
  have hlen : s.len = r.length := hs.choose_spec.2.2.1
  unfold Inspects Accepted
  rw [hlen]
  by_cases h16 : 16 ≤ r.length
  case neg => exact iff_of_false (fun h => h16 (by omega)) (fun h => h16 h.1.1)
  rw [hs.header h16, returns_pure, UInt32.lt_iff_toNat_lt, not_or, not_lt, not_lt]
  constructor
  · rintro ⟨-, rfl, hmin, hfits⟩
    exact ⟨⟨h16, hmin, hfits⟩, rfl⟩
  · rintro ⟨⟨-, hmin, hfits⟩, rfl⟩
    exact ⟨Int.ofNat_le.mpr h16, rfl, hmin, hfits⟩

theorem safe_of_held (hmem : mem.length < 2 ^ 31)
    (hheld : ∀ r, Walk mem r → 16 ≤ r.length → Held r) : Safe opts mem := by
  -- an inspected message lies in what is left of the buffer
  have hinspects : ∀ s mlen, Reached opts mem s → Inspects mem s mlen →
      ∃ p : Nat, s.data = p ∧ p + 16 ≤ mem.length ∧ p + 16 + dataLenOf mlen ≤ mem.length := by
    intro s mlen hreach hins
    obtain ⟨r, hwalk, hs⟩ := walk_of_reach hmem hheld hreach
    obtain ⟨hacc, rfl⟩ := hs.inspects_iff.mp hins
    obtain ⟨hmin, hfits⟩ := (hheld r hwalk hacc.1).accepted_iff.mp hacc
    obtain ⟨p, hp, hdata, -, hr⟩ := hs
    have hlen : r.length = mem.length - p := by rw [hr, List.length_drop]
    refine ⟨p, hdata, by omega, ?_⟩
    rw [dataLenOf_eq hmin (by omega)]
    omega
  obtain ⟨visits, hret, -⟩ := processNlMsgs_returns opts hmem hheld
  refine ⟨⟨visits, hret⟩, ?_, ?_, ?_⟩
  · intro s hreach
    obtain ⟨r, -, p, hp, hdata, -⟩ := walk_of_reach hmem hheld hreach
    omega
  · intro s mlen hreach hins
    obtain ⟨p, hdata, hheader, -⟩ := hinspects s mlen hreach hins
    omega
  · intro s mlen hreach hins i hi hi'
    obtain ⟨p, hdata, -, hpayload⟩ := hinspects s mlen hreach hins
    omega

/-! ### Messages that no `int` holds -/

/-- A message whose `data_len` comes out short is not parsed. -/
theorem inspect_short (opts : Options) (hs : Stands mem s r) (h16 : 16 ≤ r.length) {mlen : UInt32}
    (hshort : dataLenOf mlen < 4) :
    (inspect opts mem s.data mlen).Returns ⟨none, none, none⟩ := by
  obtain ⟨p, hp, hdata, -, rfl⟩ := hs
  rw [List.length_drop] at h16
  have htype := readLe16_eq (d := mem) (i := p + 4) (p + 4) rfl (by omega)
  have hshort' : ¬dataLenOf mlen ≥ nfgenMsgSize := Int.not_le.mpr hshort
  unfold inspect
  rw [hdata, htype, pure_bind]
  simp only [if_neg hshort', ite_self]
  exact returns_pure.mpr rfl

/-- An aligned length of `2 ^ 31` or more takes the cursor out of the buffer. -/
theorem not_safe_of_leaves (hmem : mem.length < 2 ^ 31) (hreach : Reached opts mem s)
    (hs : Stands mem s r) (hacc : Accepted r) {v : Visit (Int × Int) ConnTuple}
    (hv : (inspect opts mem s.data (leWord32 r 0)).Returns v)
    (hbig : 2 ^ 31 ≤ (nlmsgAlign (leWord32 r 0)).toNat) : ¬Safe opts mem := by
  intro hsafe
  have hlt := (nlmsgAlign (leWord32 r 0)).toNat_lt
  have hgoes := step_goes_on hs hacc hv
  obtain ⟨p, hp, hdata, hlen, -⟩ := hs
  simp only [int32_neg (x := (nlmsgAlign (leWord32 r 0)).toNat) (by omega) (by omega)] at hgoes
  rw [if_neg (by omega)] at hgoes
  have hout := (hsafe.cursor _ (hreach.tail hgoes)).2
  simp only [hdata] at hout
  omega

/-- An aligned length that wraps to zero leaves the cursor where it is. -/
theorem not_safe_of_stays (hreach : Reached opts mem s) (hs : Stands mem s r)
    (hmem : mem.length < 2 ^ 31) (hacc : Accepted r) (hshort : dataLenOf (leWord32 r 0) < 4)
    (hzero : (nlmsgAlign (leWord32 r 0)).toNat = 0) : ¬Safe opts mem := by
  intro hsafe
  obtain ⟨visits, hret⟩ := hsafe.terminates
  refine loop_never_returns (fun s => Stands mem s r) hs (fun a ha => ?_)
    (loop_returns_of_reach hreach hret)
  have hgoes := step_goes_on ha hacc (inspect_short opts ha hacc.1 hshort)
  obtain ⟨p, hp, hdata, hlen, hr⟩ := ha
  have hrlen : r.length = mem.length - p := by rw [hr, List.length_drop]
  have h16 := hacc.1
  simp only [hzero, int32_eq (x := (0 : Nat)) (by omega) (by omega)] at hgoes
  rw [if_neg (by omega)] at hgoes
  refine ⟨_, hgoes, p, hp, ?_, ?_, hr⟩
  · change a.data + (0 : Nat) = p
    omega
  · change int32 _ = _
    rw [int32_eq (by omega) (by omega)]
    omega

theorem not_safe_of_stands (hmem : mem.length < 2 ^ 31) (hreach : Reached opts mem s)
    (hs : Stands mem s r) (h16 : 16 ≤ r.length) (hheld : ¬Held r) : ¬Safe opts mem := by
  obtain ⟨hbig, hfits⟩ := not_or.mp hheld
  have hlt : lenOf r < 2 ^ 32 := (leWord32 r 0).toNat_lt
  have halign : (nlmsgAlign (leWord32 r 0)).toNat = (lenOf r + 3) % 2 ^ 32 / 4 * 4 := by
    rw [nlmsgAlign, and_not_three, UInt32.toNat_add]
    rfl
  unfold align4 at hbig
  by_cases hpos : lenOf r < 2 ^ 31
  · -- only the padding passes `2 ^ 31`: the message is inspected as any other
    have hp : Present r := ⟨by omega, by omega⟩
    have hacc : Accepted r := ⟨h16, hp.1, by rw [int32_eq] <;> omega⟩
    obtain ⟨v, hv, -⟩ : ∃ v, (inspect opts mem s.data (leWord32 r 0)).Returns v
        ∧ Shows mem v (visitWith firstLook isV4 opts (messageAt r)) := by
      obtain ⟨p, -, hdata, -, rfl⟩ := id hs
      rw [hdata]
      exact inspect_returns hp hpos
    exact not_safe_of_leaves hmem hreach hs hacc hv (by omega)
  have hneg : int32 (leWord32 r 0).toNat = lenOf r - 2 ^ 32 :=
    int32_neg (x := lenOf r) (by omega) (by omega)
  have hacc : Accepted r := ⟨h16, by omega, by rw [lenOf, hneg]; omega⟩
  by_cases hwrap : lenOf r < 2 ^ 31 + 16
  · -- `data_len` wraps around to a positive value
    have hdataLen : dataLenOf (leWord32 r 0) = lenOf r - 16 := by
      rw [dataLenOf, hneg, sub_right_comm, int32_sub, int32_eq] <;> omega
    obtain ⟨p, hp, hdata, -, hr⟩ := id hs
    have hrlen : r.length = mem.length - p := by rw [hr, List.length_drop]
    intro hsafe
    have hout := (hsafe.payload s _ hreach (hs.inspects_iff.mpr ⟨hacc, rfl⟩) mem.length
      (by omega) (by omega)).2
    omega
  have hshort : dataLenOf (leWord32 r 0) < 4 := by
    rw [dataLenOf, hneg, int32_eq] <;> omega
  by_cases hzero : lenOf r + 3 < 2 ^ 32
  · exact not_safe_of_leaves hmem hreach hs hacc (inspect_short opts hs h16 hshort) (by omega)
  · exact not_safe_of_stays hreach hs hmem hacc hshort (by omega)

/-- Where every message up to there is held, the cursor comes to what the walk over the
messages does, or nothing is left. -/
theorem reach_of_walk (hmem : mem.length < 2 ^ 31) (hsafe : Safe opts mem) (h : Walk mem r) :
    r = [] ∨ ∃ s, Reached opts mem s ∧ Stands mem s r := by
  induction h with
  | refl => exact Or.inr ⟨_, .refl, stands_start mem⟩
  | @tail a b _ hstep ih =>
      obtain ⟨hp, rfl⟩ := hstep
      rcases ih with rfl | ⟨s, hreach, hs⟩
      · exact absurd hp (by decide)
      have hheld : 16 ≤ a.length → Held a := fun h16 =>
        not_not.mp fun hbad => not_safe_of_stands hmem hreach hs h16 hbad hsafe
      rcases step_spec opts hmem hs hheld with ⟨hp', -⟩ | ⟨-, v, -, hgoes⟩
      · exact absurd hp hp'
      rcases hgoes with ⟨s', hnext, hs', -⟩ | ⟨hlast, -⟩
      · exact Or.inr ⟨s', hreach.tail hnext, hs'⟩
      · exact Or.inl hlast

theorem Safe.held (hsafe : Safe opts mem) (hmem : mem.length < 2 ^ 31) (hwalk : Walk mem r)
    (h16 : 16 ≤ r.length) : Held r := by
  by_contra hbad
  rcases reach_of_walk hmem hsafe hwalk with rfl | ⟨s, hreach, hs⟩
  · exact absurd h16 (by decide)
  · exact not_safe_of_stands hmem hreach hs h16 hbad hsafe

/-- The walk over a buffer is safe exactly when an `int` holds the aligned length of every
message it comes to and does not refuse. -/
theorem processNlMsgs_safe_iff (opts : Options) (data : Bytes) (hdata : data.length < 2 ^ 31) :
    Safe opts data ↔ ∀ r, Walk data r → 16 ≤ r.length → Held r :=
  ⟨fun hsafe _ hwalk h16 => hsafe.held hdata hwalk h16, safe_of_held hdata⟩

/-- A message without data. -/
def emptyMessage : Bytes := [16, 0, 0, 0, 0, 1, 0, 4, 0, 0, 0, 0, 0, 0, 0, 0]

theorem emptyMessage_safe : Safe ⟨false, false, true, true⟩ emptyMessage := by
  refine (processNlMsgs_safe_iff _ emptyMessage (by decide)).mpr fun r hwalk h16 => ?_
  rcases walk_single (by decide) hwalk with rfl | rfl
  · exact Or.inl (by decide)
  · exact absurd h16 (by decide)

/-- A header that claims `2 ^ 32 - 1` bytes. -/
def endlessMessage : Bytes := [255, 255, 255, 255, 0, 1, 0, 4, 0, 0, 0, 0, 0, 0, 0, 0]

/-- The walk goes round at it forever. -/
theorem endlessMessage_not_safe : ¬Safe ⟨false, false, true, true⟩ endlessMessage := by
  intro hsafe
  rcases hsafe.held (by decide) .refl (by decide) with h | ⟨h, -⟩
  · exact absurd h (by decide)
  · exact absurd h (by decide)

end Tracep.Nettrace.C
