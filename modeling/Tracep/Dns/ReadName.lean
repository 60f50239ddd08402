import Tracep.Dns.GoParse
import Tracep.Dns.CParse

/-!
# Reading names

What the two `readName` loops do at an offset inside or beyond the data,
in terms of the names on the wire. The Go loop consumes one item per
iteration (`Go.readNameStep_eq`), so it returns the dotted name and the
end of its field where the name resolves, hangs where it loops and fails
elsewhere. The C loop moves in step with it: same offsets, and a
destination that holds as much of the dotted text as fits
(`C.readName_inStep`).
-/

namespace Tracep.Dns

open Relation Exec

namespace Go

/-- What one iteration makes of the item it finds. -/
def afterItem (s : NameState) : Item → NameState ⊕ Option (Bytes × Int)
  | .root => .inr (some (dotted s.labels, if s.origOff ≠ -1 then s.origOff else s.off + 1))
  | .pointer t =>
      .inl { s with origOff := if s.origOff = -1 then s.off + 2 else s.origOff, off := t }
  | .label t => .inl { s with labels := s.labels ++ [t], off := s.off + 1 + t.length }
  | .bad => .inr none

/-- Decoding a two-byte slice inside the data reads the word there. -/
theorem uint16_slice {β : Type} {data : Bytes} {i j : Int} (p : Nat) (hi : i = p)
    (hj : j = i + 2) (h : p + 2 ≤ data.length) (k : UInt16 → Exec β) :
    (slice data i j >>= fun b => bigEndianUint16 b >>= k) = k (word data p) := by
  rw [slice_eq p 2 hi hj h, pure_bind]
  have h0 := index_take_drop 0 (show 0 < 2 by omega) h
  have h1 := index_take_drop 1 (show 1 < 2 by omega) h
  simp only [Nat.cast_zero, Nat.cast_one] at h0 h1
  rw [bigEndianUint16, h0, h1, pure_bind, pure_bind, pure_bind]
  rfl

theorem readNameStep_eq (data : Bytes) (s : NameState) {p : Nat} (hp : s.off = p) :
    readNameStep data s = pure (afterItem s (itemAt data p)) := by
  obtain ⟨labels, origOff, off⟩ := s
  obtain rfl := hp
  rw [readNameStep, itemAt]
  cases hl : data[p]? with
  | none =>
      have := List.getElem?_eq_none_iff.mp hl
      rw [if_pos (by simp only; omega)]
      rfl
  | some l =>
      have hlt := (List.getElem?_eq_some_iff.mp hl).1
      rw [if_neg (by simp only; omega), index_eq hl]
      simp only [pure_bind]
      by_cases h0 : l.toNat = 0
      · rw [if_pos h0, if_pos h0]
        rfl
      rw [if_neg h0, if_neg h0]
      by_cases hC : l.toNat &&& 0xC0 = 0xC0
      · rw [if_pos hC, if_pos hC]
        cases hlo : data[p + 1]? with
        | none =>
            have := List.getElem?_eq_none_iff.mp hlo
            rw [if_pos (by omega)]
            rfl
        | some lo =>
            have h1 := (List.getElem?_eq_some_iff.mp hlo).1
            rw [if_neg (by omega)]
            have hw : word data p = be16 l lo := by
              simp [word, List.getD_eq_getElem?_getD, hl, hlo]
            rw [uint16_slice p rfl rfl (by omega), hw]
            rfl
      · rw [if_neg hC, if_neg hC]
        by_cases hz : l.toNat &&& 0xC0 = 0
        · rw [if_pos hz, if_pos hz]
          by_cases hle : p + 1 + l.toNat ≤ data.length
          · rw [if_pos hle, if_neg (by omega),
              slice_eq (p + 1) l.toNat (by omega) rfl hle]
            have hlen : ((data.drop (p + 1)).take l.toNat).length = l.toNat :=
              length_take_drop (by omega)
            simp only [pure_bind, afterItem, hlen]
          · rw [if_neg hle, if_pos (by omega)]
            rfl
        · rw [if_neg hz, if_neg hz]
          rfl

variable {data : Bytes} {p : Nat}

/-- Where the walk from `off` ends, the loop returns the whole name and, unless a
pointer has been followed, the end of the field. -/
theorem loop_of_nameAt {L : List Bytes} (h : NameAt data p L) :
    ∀ (labels : List Bytes) (origOff : Int) (n : Nat), FieldEnd data p n →
      (loop (readNameStep data) ⟨labels, origOff, p⟩).Returns
        (some (dotted (labels ++ L), if origOff ≠ -1 then origOff else n)) := by
  induction h with
  | root h =>
      intro labels origOff n hn
      obtain rfl := (FieldEnd.root h).unique hn
      refine loop_returns_now ?_
      rw [readNameStep_eq data _ rfl, h]
      simp [afterItem]
  | @label p t L h _ ih =>
      intro labels origOff n hn
      have hn' : FieldEnd data (p + 1 + t.length) n := by
        cases hn with
        | root h2 => cases h.symm.trans h2
        | label h2 hrest => rwa [Item.label.inj (h.symm.trans h2)]
        | pointer h2 => cases h.symm.trans h2
      have hnext : Next (readNameStep data) ⟨labels, origOff, p⟩
          ⟨labels ++ [t], origOff, (p + 1 + t.length : Nat)⟩ := by
        rw [Next, readNameStep_eq data _ rfl, h]
        simp [afterItem]
      have := hnext.loop_returns (ih (labels ++ [t]) origOff n hn')
      rwa [List.append_assoc] at this
  | @pointer p t L h hL ih =>
      intro labels origOff n hn
      obtain rfl := (FieldEnd.pointer h).unique hn
      obtain ⟨n', hn'⟩ := hL.fieldEnd
      have hnext : Next (readNameStep data) ⟨labels, origOff, p⟩
          ⟨labels, if origOff = -1 then (p : Int) + 2 else origOff, t⟩ := by
        rw [Next, readNameStep_eq data _ rfl, h]
        simp [afterItem]
      have := hnext.loop_returns (ih labels _ n' hn')
      by_cases ho : origOff = -1
      · rw [if_pos ho, if_pos (by omega)] at this
        rwa [if_neg (by simpa using ho)]
      · rw [if_neg ho, if_pos ho] at this
        rwa [if_pos ho]

/-- Iterations follow the walk. -/
theorem readName_next {s s' : NameState} (hp : s.off = p)
    (h : Next (readNameStep data) s s') : ∃ q : Nat, s'.off = q ∧ Hop data p q := by
  rw [Next, readNameStep_eq data s hp, returns_pure] at h
  cases hi : itemAt data p with
  | root => simp [hi, afterItem] at h
  | bad => simp [hi, afterItem] at h
  | pointer t =>
      simp only [hi, afterItem, Sum.inl.injEq] at h
      exact ⟨t, by rw [h], .pointer hi⟩
  | label t =>
      simp only [hi, afterItem, Sum.inl.injEq] at h
      refine ⟨p + 1 + t.length, by rw [h, hp]; simp, .label hi⟩

/-- The offset of a loop state inside the non-negative offsets. -/
def NameState.pos (s : NameState) : Nat := s.off.toNat

theorem readName_hangs_iff : (readName data p).Hangs ↔ Looping data p := by
  have hpos : ∀ s : NameState, 0 ≤ s.off → s.off = s.pos := fun s hs => by
    rw [NameState.pos, Int.toNat_of_nonneg hs]
  refine loop_hangs_iff_cycle NameState.pos (fun s => 0 ≤ s.off)
    (hop_rightUnique data) ?_ ?_ ?_ ?_ (Int.natCast_nonneg p) (finite_walk data p)
  · intro s s' hs hnext
    obtain ⟨q, hq, -⟩ := readName_next (hpos s hs) hnext
    simp only [hq]
    omega
  · intro s s' hs hnext
    obtain ⟨q, hq, hhop⟩ := readName_next (hpos s hs) hnext
    rwa [NameState.pos, NameState.pos, hq, Int.toNat_natCast]
  · intro s q hs hhop
    have hstep := readNameStep_eq data s (hpos s hs)
    cases hhop with
    | label h =>
        refine ⟨_, by rw [Next, hstep, h, afterItem]; exact returns_pure.mpr rfl, ?_⟩
        simp only [NameState.pos]
        omega
    | pointer h =>
        refine ⟨_, by rw [Next, hstep, h, afterItem]; exact returns_pure.mpr rfl, ?_⟩
        simp [NameState.pos]
  · intro s hs
    exact ⟨_, by rw [readNameStep_eq data s (hpos s hs)]; exact returns_pure.mpr rfl⟩

theorem readName_not_faults : ¬(readName data p).Faults := by
  refine loop_not_faults (fun s => ∃ q : Nat, s.off = q) ⟨p, rfl⟩ ?_ ?_
  · intro s s' ⟨q, hq⟩ hnext
    obtain ⟨q', hq', -⟩ := readName_next hq hnext
    exact ⟨q', hq'⟩
  · intro s ⟨q, hq⟩
    rw [readNameStep_eq data s hq]
    exact not_faults_pure

/-- Before the data there is nothing to read. -/
theorem readName_faults_of_neg {off : Int} (h : off < 0) : (readName data off).Faults := by
  refine loop_faults_now ?_
  rw [readNameStep, if_neg (by simp only; omega), index_neg h]
  simp

theorem resolves_of_returns {s : NameState} {r : Bytes × Int} (hp : s.off = p)
    (h : (loop (readNameStep data) s).Returns (some r)) : Resolves data p := by
  obtain ⟨s', hreach, hend⟩ := loop_returns_iff.mp h
  rw [resolves_iff]
  induction hreach using ReflTransGen.head_induction_on generalizing p with
  | refl =>
      rw [readNameStep_eq data s' hp, returns_pure] at hend
      refine ⟨p, ReflTransGen.refl, ?_⟩
      cases hi : itemAt data p <;> simp [hi, afterItem] at hend
      rfl
  | head hnext _ ih =>
      obtain ⟨q, hq, hhop⟩ := readName_next hp hnext
      obtain ⟨c, hc, hroot⟩ := ih hq (loop_returns_iff.mpr ⟨s', ‹_›, hend⟩)
      exact ⟨c, ReflTransGen.head hhop hc, hroot⟩

/-- The name and the end of its field, where the name resolves. -/
theorem readName_returns_some {r : Bytes × Int} :
    (readName data p).Returns (some r) ↔
      ∃ L n, NameAt data p L ∧ FieldEnd data p n ∧ r = (dotted L, (n : Int)) := by
  constructor
  · intro h
    obtain ⟨L, hL⟩ := resolves_of_returns rfl h
    obtain ⟨n, hn⟩ := hL.fieldEnd
    have hr := h.unique (loop_of_nameAt hL [] (-1) n hn)
    refine ⟨L, n, hL, hn, ?_⟩
    simpa using hr
  · rintro ⟨L, n, hL, hn, rfl⟩
    simpa [readName] using loop_of_nameAt hL [] (-1) n hn

/-- A failure, where the walk breaks off. -/
theorem readName_returns_none :
    (readName data p).Returns none ↔ ¬Resolves data p ∧ ¬Looping data p := by
  constructor
  · intro h
    refine ⟨fun ⟨L, hL⟩ => ?_, fun hl => h.not_hangs (readName_hangs_iff.mpr hl)⟩
    obtain ⟨n, hn⟩ := hL.fieldEnd
    cases h.unique (readName_returns_some.mpr ⟨L, n, hL, hn, rfl⟩)
  · rintro ⟨hres, hloop⟩
    rcases (readName data p).outcome_cases with hh | hf | ⟨r, hr⟩
    · exact absurd (readName_hangs_iff.mp hh) hloop
    · exact absurd hf readName_not_faults
    · cases r with
      | none => exact hr
      | some r =>
          obtain ⟨L, n, hL, -⟩ := readName_returns_some.mp hr
          exact absurd ⟨L, hL⟩ hres

end Go

namespace C

/-! ## The destination buffer -/

/-- The first `w` bytes of a buffer of `cap` bytes are as much of `text` as fits
before the terminator. -/
structure Filled (cap : Nat) (w : Int) (dst text : Bytes) : Prop where
  length : dst.length = cap
  pos : 0 < cap
  count : w = (min text.length (cap - 1) : Nat)
  written : dst.take (min text.length (cap - 1)) = text.take (cap - 1)

/-- The buffer holds as much of `text` as fits, NUL-terminated. -/
structure Holds (cap : Nat) (w : Int) (dst text : Bytes) : Prop extends
    Filled cap w dst text where
  nul : dst[min text.length (cap - 1)]? = some 0

/-- A full buffer takes nothing more. -/
theorem Filled.full {cap : Nat} {w : Int} {dst text : Bytes} (h : Filled cap w dst text)
    (hw : ¬w < (cap : Int) - 1) (x : Bytes) : Filled cap w dst (text ++ x) := by
  have hcount := h.count
  have hpos := h.pos
  have hlen : cap - 1 ≤ text.length := by omega
  have hmin : min text.length (cap - 1) = cap - 1 := by omega
  have hmin' : min (text ++ x).length (cap - 1) = cap - 1 := by
    rw [List.length_append]
    omega
  refine ⟨h.length, hpos, by rw [hmin', hcount, hmin], ?_⟩
  rw [hmin', List.take_append_of_le_length hlen, ← h.written, hmin]

/-- A byte goes after the text while there is room. -/
theorem Filled.push {cap : Nat} {w : Int} {dst text : Bytes} (h : Filled cap w dst text)
    (hw : w < (cap : Int) - 1) (c : UInt8) :
    ∃ dst', store dst w c = pure dst' ∧ Filled cap (w + 1) dst' (text ++ [c]) := by
  have hcount := h.count
  have hlen := h.length
  have hmin : min text.length (cap - 1) = text.length := by omega
  rw [hmin] at hcount
  refine ⟨dst.set text.length c, store_eq text.length hcount (by omega), ?_, h.pos, ?_, ?_⟩
  · rw [List.length_set, hlen]
  · rw [List.length_append, List.length_singleton, hcount]
    omega
  · have htext : text.take (cap - 1) = text := List.take_of_length_le (by omega)
    have hwritten := h.written
    rw [hmin, htext] at hwritten
    have hlast : (text ++ [c]).length = text.length + 1 := by simp
    rw [hlast, Nat.min_eq_left (by omega), List.take_of_length_le (l := text ++ [c]) (by omega),
      List.take_succ_eq_append_getElem (by rw [List.length_set]; omega),
      List.take_set_of_le (Nat.le_refl _), List.getElem_set_self, hwritten]

/-- The buffer of a held text starts with that text and a NUL. -/
theorem Holds.eq_append {cap : Nat} {w : Int} {dst text : Bytes} (h : Holds cap w dst text) :
    ∃ rest, dst = text.take (cap - 1) ++ 0 :: rest := by
  obtain ⟨hlt, hnul⟩ := List.getElem?_eq_some_iff.mp h.nul
  refine ⟨dst.drop (min text.length (cap - 1) + 1), ?_⟩
  rw [← h.written, ← hnul, ← List.drop_eq_getElem_cons hlt, List.take_append_drop]

/-- Reading the buffer as a string gives the text up to its first NUL, as far as
it fits. -/
theorem Holds.readStr_eq {cap : Nat} {w : Int} {dst text : Bytes} (h : Holds cap w dst text) :
    readStr dst = pure (cstr (text.take (cap - 1))) := by
  obtain ⟨rest, rfl⟩ := h.eq_append
  rw [readStr, if_pos (by simp), cstr_append_nul]

theorem copyBytes_spec {d : Bytes} {cap : Nat} :
    ∀ (n src : Nat) (w : Int) (dst text : Bytes), src + n ≤ d.length →
      Filled cap w dst text →
      ∃ w' dst', copyBytes d cap n src w dst = pure (w', dst')
        ∧ Filled cap w' dst' (text ++ (d.drop src).take n)
  | 0, src, w, dst, text, _, h => ⟨w, dst, rfl, by simpa using h⟩
  | n + 1, src, w, dst, text, hle, h => by
      have hsrc : src < d.length := by omega
      have hcons : (d.drop src).take (n + 1) = d[src] :: (d.drop (src + 1)).take n := by
        rw [List.drop_eq_getElem_cons hsrc, List.take_succ_cons]
      rw [copyBytes]
      by_cases hw : w < (cap : Int) - 1
      · obtain ⟨dst₁, hstore, hfill⟩ := h.push hw d[src]
        obtain ⟨w', dst', hrest, hfill'⟩ :=
          copyBytes_spec (d := d) n (src + 1) (w + 1) dst₁ (text ++ [d[src]]) (by omega) hfill
        refine ⟨w', dst', ?_, ?_⟩
        · rw [if_pos hw, index_eq (List.getElem?_eq_getElem hsrc), pure_bind, hstore,
            pure_bind]
          exact_mod_cast hrest
        · rw [hcons]
          simpa using hfill'
      · exact ⟨w, dst, by rw [if_neg hw], h.full hw _⟩

/-- The separator goes after a text that is not empty. -/
theorem appendSep_spec {cap : Nat} {w : Int} {dst text : Bytes} (h : Filled cap w dst text) :
    ∃ w' dst', appendSep cap w dst = pure (w', dst')
      ∧ Filled cap w' dst' (if text = [] then [] else text ++ [46]) := by
  have hcount := h.count
  have hpos := h.pos
  by_cases htext : text = []
  · subst htext
    simp only [List.length_nil, Nat.zero_min, Nat.cast_zero] at hcount
    exact ⟨w, dst, if_neg (by omega), h⟩
  · have hlen := List.length_pos_iff.mpr htext
    rw [if_neg htext]
    by_cases hw : w < (cap : Int) - 1
    · obtain ⟨dst₁, hstore, hfill⟩ := h.push hw 46
      refine ⟨w + 1, dst₁, ?_, hfill⟩
      rw [appendSep, if_pos ⟨by omega, hw⟩, hstore, pure_bind]
    · exact ⟨w, dst, if_neg (by omega), h.full hw [46]⟩

/-- A label goes after the text with a separator between them. -/
theorem appendLabel_spec {d : Bytes} {cap off l : Nat} {w : Int} {dst text : Bytes}
    (hle : off + l ≤ d.length) (h : Holds cap w dst text) :
    ∃ w' dst', appendLabel d cap off l w dst = pure (w', dst')
      ∧ Holds cap w' dst'
          (if text = [] then (d.drop off).take l else text ++ 46 :: (d.drop off).take l) := by
  obtain ⟨w₁, dst₁, hsep, hfill₁⟩ := appendSep_spec h.toFilled
  obtain ⟨w₂, dst₂, hcopy, hfill₂⟩ := copyBytes_spec l off w₁ dst₁ _ hle hfill₁
  have htext : (if text = [] then [] else text ++ [46]) ++ (d.drop off).take l
      = if text = [] then (d.drop off).take l else text ++ 46 :: (d.drop off).take l := by
    split <;> simp
  rw [htext] at hfill₂
  generalize (if text = [] then (d.drop off).take l else text ++ 46 :: (d.drop off).take l)
    = text' at hfill₂ ⊢
  have hpos := hfill₂.pos
  have hlen := hfill₂.length
  refine ⟨w₂, dst₂.set (min text'.length (cap - 1)) 0, ?_,
    ⟨?_, hpos, hfill₂.count, ?_⟩, ?_⟩
  · rw [appendLabel, hsep]
    simp only [pure_bind, hcopy]
    rw [store_eq _ hfill₂.count (by omega), pure_bind]
  · rw [List.length_set, hlen]
  · rw [List.take_set_of_le (Nat.le_refl _)]
    exact hfill₂.written
  · rw [List.getElem?_set_self (by omega)]

/-! ## In step with the Go loop -/

/-- The destination, if there is one, holds `text`. -/
def DstHolds (cap : Nat) (w : Int) (text : Bytes) : Option Bytes → Prop
  | none => True
  | some dst => Holds cap w dst text

theorem be16At_eq {d : Bytes} {p : Nat} (h : p + 2 ≤ d.length) :
    be16At d p = pure (word d p) := by
  have h0 := List.getElem?_eq_getElem (show p < d.length by omega)
  have h1 := List.getElem?_eq_getElem (show p + 1 < d.length by omega)
  have e1 := index_eq h1
  simp only [Nat.cast_add, Nat.cast_one] at e1
  rw [be16At, index_eq h0, e1]
  simp [word, List.getD_eq_getElem?_getD, h0, h1]

/-- What one iteration makes of the item it finds. -/
def afterItem (d : Bytes) (dstcap : Int) (s : NameState) :
    Item → Exec (NameState ⊕ Int × Option Bytes)
  | .root => return .inr (if s.orig ≠ -1 then s.orig else s.off + 1, s.dst)
  | .pointer t =>
      return .inl { s with orig := if s.orig = -1 then s.off + 2 else s.orig, off := t }
  | .label t =>
      match s.dst with
      | some dst => do
          let (w, dst) ← appendLabel d dstcap (s.off + 1) t.length s.w dst
          return .inl { s with w := w, dst := some dst, off := s.off + 1 + t.length }
      | none => return .inl { s with off := s.off + 1 + t.length }
  | .bad => return .inr (-1, s.dst)

theorem readNameStep_eq (d : Bytes) (dstcap : Int) (s : NameState) {p : Nat}
    (hp : s.off = p) :
    readNameStep d dstcap s = afterItem d dstcap s (itemAt d p) := by
  obtain ⟨off, orig, w, dst⟩ := s
  obtain rfl := hp
  rw [readNameStep, itemAt]
  cases hl : d[p]? with
  | none =>
      have := List.getElem?_eq_none_iff.mp hl
      rw [if_pos (by simp only; omega)]
      rfl
  | some l =>
      have hlt := (List.getElem?_eq_some_iff.mp hl).1
      rw [if_neg (by simp only; omega), index_eq hl]
      simp only [pure_bind]
      by_cases h0 : l.toNat = 0
      · rw [if_pos h0, if_pos h0]
        rfl
      rw [if_neg h0, if_neg h0]
      by_cases hC : l.toNat &&& 0xC0 = 0xC0
      · rw [if_pos hC, if_pos hC]
        cases hlo : d[p + 1]? with
        | none =>
            have := List.getElem?_eq_none_iff.mp hlo
            rw [if_pos (by omega)]
            rfl
        | some lo =>
            have h1 := (List.getElem?_eq_some_iff.mp hlo).1
            have hw : word d p = be16 l lo := by
              simp [word, List.getD_eq_getElem?_getD, hl, hlo]
            rw [if_neg (by omega), be16At_eq (by omega), hw]
            rfl
      · rw [if_neg hC, if_neg hC]
        by_cases hz : l.toNat &&& 0xC0 = 0
        · rw [if_pos hz, if_pos hz]
          by_cases hle : p + 1 + l.toNat ≤ d.length
          · have hlen : ((d.drop (p + 1)).take l.toNat).length = l.toNat :=
              length_take_drop (by omega)
            rw [if_pos hle, if_neg (by omega)]
            cases dst <;> simp only [afterItem, hlen]
          · rw [if_neg hle, if_pos (by omega)]
            rfl
        · rw [if_neg hz, if_neg hz]
          rfl

/-- A C loop state and the Go loop state it goes with. -/
structure Tied (cap : Nat) (written : Bool) (s : NameState) (g : Go.NameState) : Prop where
  off : ∃ p : Nat, s.off = p ∧ g.off = p
  orig : g.origOff = s.orig
  labels : ∀ t ∈ g.labels, t ≠ []
  written_eq : s.dst.isSome = written
  dst : DstHolds cap s.w (dotted g.labels) s.dst

/-- A C result and the Go result it goes with. -/
structure TiedResult (cap : Nat) (written : Bool) (r : Int × Option Bytes)
    (g : Option (Bytes × Int)) : Prop where
  ret : r.1 = match g with
    | some (_, n) => n
    | none => -1
  written_eq : r.2.isSome = written
  dst : ∃ w text, DstHolds cap w text r.2 ∧ ∀ name n, g = some (name, n) → text = name

theorem readName_inStep (d : Bytes) (cap : Nat) (written : Bool) :
    InStep (readNameStep d cap) (Go.readNameStep d) (Tied cap written)
      (TiedResult cap written) := by
  intro s g h
  obtain ⟨off, orig, w, dst⟩ := s
  obtain ⟨labels, origOff, goff⟩ := g
  obtain ⟨p, hs, hg⟩ := h.off
  obtain rfl := h.orig
  simp only at hs hg
  subst hs hg
  rw [readNameStep_eq d cap _ rfl, Go.readNameStep_eq d _ rfl]
  cases hi : itemAt d p with
  | root =>
      refine ⟨_, _, returns_pure.mpr rfl, returns_pure.mpr rfl, .inr ⟨rfl, h.written_eq, ?_⟩⟩
      exact ⟨w, dotted labels, h.dst, by simp⟩
  | bad =>
      refine ⟨_, _, returns_pure.mpr rfl, returns_pure.mpr rfl, .inr ⟨rfl, h.written_eq, ?_⟩⟩
      exact ⟨w, dotted labels, h.dst, by simp⟩
  | pointer t =>
      refine ⟨_, _, returns_pure.mpr rfl, returns_pure.mpr rfl, .inl ?_⟩
      exact ⟨⟨t, rfl, rfl⟩, rfl, h.labels, h.written_eq, h.dst⟩
  | label t =>
      obtain ⟨hpos, -, hle, htake⟩ := label_bounds hi
      have hlabels : ∀ u ∈ labels ++ [t], u ≠ [] := by
        intro u hu
        rcases List.mem_append.mp hu with hu | hu
        · exact h.labels u hu
        · rw [List.mem_singleton.mp hu]
          exact List.ne_nil_of_length_pos hpos
      have hoff : ∃ q : Nat, (p : Int) + 1 + t.length = q := ⟨p + 1 + t.length, by simp⟩
      obtain ⟨q, hq⟩ := hoff
      cases dst with
      | none =>
          refine ⟨_, _, returns_pure.mpr rfl, returns_pure.mpr rfl, .inl ?_⟩
          exact ⟨⟨q, hq, hq⟩, rfl, hlabels, h.written_eq, trivial⟩
      | some dst =>
          obtain ⟨w', dst', happ, hholds⟩ := appendLabel_spec hle h.dst
          rw [htake] at hholds
          have htext : (if dotted labels = [] then t else dotted labels ++ 46 :: t)
              = dotted (labels ++ [t]) := by
            by_cases hnil : labels = []
            · subst hnil
              rfl
            · rw [if_neg fun hd => hnil ((dotted_eq_nil h.labels).mp hd),
                dotted_append_single hnil]
          rw [htext] at hholds
          refine ⟨.inl ⟨(p : Int) + 1 + t.length, origOff, w', some dst'⟩, _, ?_,
            returns_pure.mpr rfl, .inl ?_⟩
          · simp only [Nat.cast_add, Nat.cast_one] at happ
            simp only [afterItem, happ, pure_bind]
            exact returns_pure.mpr rfl
          · exact ⟨⟨q, hq, hq⟩, rfl, hlabels, h.written_eq, hholds⟩

/-- A call with a buffer starts its loop with the empty text in it. -/
theorem readName_buffer (d : Bytes) (p : Nat) {cap : Nat} {b : Bytes} (hlen : b.length = cap)
    (hpos : 0 < cap) :
    readName d p (some b) cap = loop (readNameStep d cap) ⟨p, -1, 0, some (b.set 0 0)⟩ := by
  have hstore := store_eq (d := b) (b := 0) 0 (i := 0) rfl (by omega)
  rw [readName]
  simp only [ne_eq, Nat.cast_eq_zero, Nat.ne_of_gt hpos, not_false_eq_true, ↓reduceIte,
    hstore, pure_bind]

theorem tied_buffer (p : Nat) {cap : Nat} {b : Bytes} (hlen : b.length = cap)
    (hpos : 0 < cap) : Tied cap true ⟨p, -1, 0, some (b.set 0 0)⟩ ⟨[], -1, p⟩ := by
  refine ⟨⟨p, rfl, rfl⟩, rfl, by simp, rfl, ⟨⟨?_, hpos, ?_, ?_⟩, ?_⟩⟩
  · rw [List.length_set, hlen]
  · simp [dotted, join]
  · simp [dotted, join]
  · simp [dotted, join, hlen, hpos]

/-- A call with a buffer of `cap` bytes, or with none, starts in step with the Go loop. -/
theorem readName_tied (d : Bytes) (p cap : Nat) (dst : Option Bytes)
    (hdst : ∀ b, dst = some b → b.length = cap ∧ 0 < cap) :
    ∃ s, readName d p dst cap = loop (readNameStep d cap) s
      ∧ Tied cap dst.isSome s ⟨[], -1, p⟩ := by
  cases dst with
  | none => exact ⟨⟨p, -1, 0, none⟩, rfl, ⟨p, rfl, rfl⟩, rfl, by simp, rfl, trivial⟩
  | some b =>
      obtain ⟨hlen, hpos⟩ := hdst b rfl
      exact ⟨_, readName_buffer d p hlen hpos, tied_buffer p hlen hpos⟩

section

variable {d : Bytes} {p cap : Nat} {dst : Option Bytes}

theorem readName_not_faults (hdst : ∀ b, dst = some b → b.length = cap ∧ 0 < cap) :
    ¬(readName d p dst cap).Faults := by
  obtain ⟨s, heq, htied⟩ := readName_tied d p cap dst hdst
  rw [heq]
  exact (readName_inStep d cap _).not_faults htied

theorem readName_hangs_iff (hdst : ∀ b, dst = some b → b.length = cap ∧ 0 < cap) :
    (readName d p dst cap).Hangs ↔ Looping d p := by
  obtain ⟨s, heq, htied⟩ := readName_tied d p cap dst hdst
  rw [heq, ← Go.readName_hangs_iff]
  exact ⟨(readName_inStep d cap _).symm.loop_hangs htied,
    (readName_inStep d cap _).loop_hangs htied⟩

/-- A name that resolves is read, with the end of its field. -/
theorem readName_of_nameAt (hdst : ∀ b, dst = some b → b.length = cap ∧ 0 < cap)
    {L : List Bytes} {n : Nat} (hL : NameAt d p L) (hn : FieldEnd d p n) :
    ∃ buf w, (readName d p dst cap).Returns ((n : Int), buf) ∧ buf.isSome = dst.isSome
      ∧ DstHolds cap w (dotted L) buf := by
  obtain ⟨s, heq, htied⟩ := readName_tied d p cap dst hdst
  obtain ⟨⟨ret, buf⟩, hr, htr⟩ := (readName_inStep d cap _).symm.loop_returns htied
    (Go.readName_returns_some.mpr ⟨L, n, hL, hn, rfl⟩)
  obtain ⟨w, text, hholds, htext⟩ := htr.dst
  obtain rfl := htext _ _ rfl
  obtain rfl := htr.ret
  exact ⟨buf, w, heq ▸ hr, htr.written_eq, hholds⟩

/-- A walk that breaks off makes the call return -1. -/
theorem readName_fails (hdst : ∀ b, dst = some b → b.length = cap ∧ 0 < cap)
    (hres : ¬Resolves d p) (hloop : ¬Looping d p) :
    ∃ buf, (readName d p dst cap).Returns (-1, buf) := by
  obtain ⟨s, heq, htied⟩ := readName_tied d p cap dst hdst
  obtain ⟨⟨ret, buf⟩, hr, htr⟩ := (readName_inStep d cap _).symm.loop_returns htied
    (Go.readName_returns_none.mpr ⟨hres, hloop⟩)
  obtain rfl := htr.ret
  exact ⟨buf, heq ▸ hr⟩

end

theorem nameBuf_dst (buf : NameBuf) :
    ∀ b, some buf.1 = some b → b.length = 256 ∧ 0 < 256 := by
  rintro _ ⟨⟩
  exact ⟨buf.2, by decide⟩

theorem null_dst : ∀ b : Bytes, none = some b → b.length = 0 ∧ 0 < 0 := by
  rintro _ ⟨⟩

/-- The text of a name read into a buffer of 256 bytes. -/
theorem readName_buf {d : Bytes} {p n : Nat} {L : List Bytes} (buf : NameBuf)
    (hL : NameAt d p L) (hn : FieldEnd d p n) :
    ∃ b, (readName d p (some buf.1) 256).Returns ((n : Int), some b)
      ∧ readStr b = pure (cstr ((dotted L).take 255)) := by
  obtain ⟨b, w, hr, hsome, hholds⟩ := readName_of_nameAt (nameBuf_dst buf) hL hn
  cases b with
  | none => cases hsome
  | some b => exact ⟨b, hr, hholds.readStr_eq⟩

end C

end Tracep.Dns
