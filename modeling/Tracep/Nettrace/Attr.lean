import Tracep.Lib.Framing
import Tracep.Lib.Bytes
import Tracep.Netlink.Message
import Mathlib.Data.Int.Bitwise

/-!
# Netlink attributes

The payload of a conntrack message is a list of attributes, each a 16-bit
length, a 16-bit type and a value, padded to a multiple of four; a value may
be such a list again. The list ends at the first attribute that is not all
there, and so it is a `Framing` of the bytes (`attrs`).

The Go port collects a list in a map, where the last attribute of a type
stays (`Go.parseNLAttrs_returns`). The C port keeps a table of pointers for
the types below 64, where the first stays (`C.parseNla_returns`). Both look
up the same value where no type is repeated (`lookup_reverse`).
-/

namespace Tracep.Nettrace

open Exec Relation Netlink

/-! ## Constants -/

def nlaFNested : UInt16 := 0x8000
def nlaFNetByteorder : UInt16 := 0x4000

/-- The type without its two flag bits. -/
def maskType (nlaType : UInt16) : UInt16 := nlaType &&& ~~~nlaFNested &&& ~~~nlaFNetByteorder

/-- `(end + 3) & ~3`. -/
def nlaAlign (x : Int) : Int := (x + 3).ldiff 3

/-! ## The Go code -/

namespace Go

/-- The `map[uint16][]byte` of attribute values. -/
abbrev Attrs := UInt16 → Option Bytes

/-- One iteration of `parseNLAttrs`, over the bytes left and the map. -/
def parseNLAttrsStep (s : Bytes × Attrs) : Exec (Bytes × Attrs ⊕ Attrs) :=
  let (data, attrs) := s
  if data.length < 4 then return .inr attrs
  else do
    let nlaLen ← readLe16 data 0
    let nlaType := maskType (← readLe16 data 2)
    let stop : Int := nlaLen.toNat
    if nlaLen < 4 then return .inr attrs
    else if stop > data.length then return .inr attrs
    else do
      let attrs := Function.update attrs nlaType (some (← slice data 4 stop))
      let aligned := nlaAlign stop
      if aligned > data.length then return .inr attrs
      else return .inl (← slice data aligned data.length, attrs)

def parseNLAttrs (data : Bytes) : Exec Attrs := loop parseNLAttrsStep (data, fun _ => none)

end Go

/-! ## The C code -/

namespace C

/-- `nla_set`: pointer and length of the value kept for each type below `NLA_MAX_TYPE`. -/
abbrev NlaSet := Fin 64 → Option (Int × Int)

/-- The entry of a type. -/
def NlaSet.get (set : NlaSet) (t : UInt16) : Option (Int × Int) :=
  if h : t.toNat < 64 then set ⟨t.toNat, h⟩ else none

/-- Keep a value unless its type is out of the table or has one. -/
def NlaSet.keep (set : NlaSet) (t : UInt16) (val len : Int) : NlaSet :=
  if h : t.toNat < 64 then
    if (set ⟨t.toNat, h⟩).isSome then set else Function.update set ⟨t.toNat, h⟩ (some (val, len))
  else set

/-- The loop variables of `parse_nla`. -/
structure NlaCursor where
  data : Int
  n : Int
  set : NlaSet

/-- One iteration of `parse_nla`. -/
def parseNlaStep (mem : Bytes) (s : NlaCursor) : Exec (NlaCursor ⊕ NlaSet) :=
  if s.n ≥ 4 then do
    let nlaLen ← readLe16 mem s.data
    let nlaType := maskType (← readLe16 mem (s.data + 2))
    let stop : Int := nlaLen.toNat
    if nlaLen < 4 then return .inr s.set
    else if stop > s.n then return .inr s.set
    else do
      let set := s.set.keep nlaType (s.data + 4) (stop - 4)
      let aligned := nlaAlign stop
      if aligned > s.n then return .inr set
      else return .inl ⟨s.data + aligned, s.n - aligned, set⟩
  else return .inr s.set

/-- The attributes in the `n` bytes at `data`. -/
def parseNla (mem : Bytes) (data n : Int) : Exec NlaSet :=
  loop (parseNlaStep mem) ⟨data, n, fun _ => none⟩

end C

/-! ## Attribute lists -/

/-- `nla_len`. -/
def nlaLenOf (d : Bytes) : Nat := (leWord16 d 0).toNat

/-- The attribute is all there. -/
def Whole (d : Bytes) : Prop := 4 ≤ nlaLenOf d ∧ nlaLenOf d ≤ d.length

instance (d : Bytes) : Decidable (Whole d) := inferInstanceAs (Decidable (_ ∧ _))

/-- Type and value of the first attribute. -/
def attrAt (d : Bytes) : UInt16 × Bytes :=
  (maskType (leWord16 d 2), (d.drop 4).take (nlaLenOf d - 4))

/-- What follows the first attribute and its padding. -/
def afterAttr (d : Bytes) : Bytes := d.drop (align4 (nlaLenOf d))

theorem afterAttr_shrink (d : Bytes) (h : Whole d) : (afterAttr d).length < d.length := by
  obtain ⟨hmin, hfits⟩ := h
  have := le_align4 (nlaLenOf d)
  rw [afterAttr, List.length_drop]
  omega

/-- The attributes of a list, as far as they are all there. -/
def attrs : Framing UInt8 (UInt16 × Bytes) := .headed Whole attrAt afterAttr afterAttr_shrink

theorem nlaAlign_eq (n : Nat) : nlaAlign n = align4 n := by
  rw [align4, ← ldiff_three]
  rfl

/-! ## Lookups -/

section Lookup

variable {α β : Type} [BEq α] [LawfulBEq α] {l : List (α × β)} {k : α} {v : β}

theorem lookup_iff_mem (h : (l.map Prod.fst).Nodup) : l.lookup k = some v ↔ (k, v) ∈ l := by
  induction l with
  | nil => simp
  | cons e l ih =>
      obtain ⟨k', v'⟩ := e
      obtain ⟨hnew, hrest⟩ := List.nodup_cons.mp h
      rw [List.lookup_cons, List.mem_cons, Prod.mk.injEq]
      by_cases hk : k = k'
      · subst hk
        have hnone : (k, v) ∉ l := fun hm => hnew (List.mem_map.mpr ⟨_, hm, rfl⟩)
        simp only [BEq.rfl, Option.some.injEq, hnone, or_false, true_and]
        exact eq_comm
      · have hbeq : (k == k') = false := beq_eq_false_iff_ne.mpr hk
        simp only [hbeq, ih hrest, hk, false_and, false_or]

/-- Where no key is repeated the last value of a key is its first. -/
theorem lookup_reverse (h : (l.map Prod.fst).Nodup) : l.reverse.lookup k = l.lookup k := by
  have hrev : (l.reverse.map Prod.fst).Nodup := by
    rw [List.map_reverse]
    exact List.nodup_reverse.mpr h
  apply Option.ext
  intro v
  rw [lookup_iff_mem hrev, lookup_iff_mem h, List.mem_reverse]

end Lookup

/-- The first value of a type in a list. -/
def firstLook (d : Bytes) (t : UInt16) : Option Bytes := (attrs.frames d).lookup t

/-- The last value of a type in a list. -/
def lastLook (d : Bytes) (t : UInt16) : Option Bytes := (attrs.frames d).reverse.lookup t

/-! ## Collecting a list -/

/-- The list ends before an attribute that is not all there, and after one whose padding is
not; anything else in between. -/
theorem Go.parseNLAttrsStep_spec (d : Bytes) (m : Attrs) :
    let m' := Function.update m (attrAt d).1 (some (attrAt d).2)
    (¬Whole d ∧ parseNLAttrsStep (d, m) = pure (.inr m))
      ∨ (Whole d ∧ align4 (nlaLenOf d) ≤ d.length
        ∧ parseNLAttrsStep (d, m) = pure (.inl (afterAttr d, m')))
      ∨ (Whole d ∧ d.length < align4 (nlaLenOf d)
        ∧ parseNLAttrsStep (d, m) = pure (.inr m')) := by
  intro m'
  unfold parseNLAttrsStep
  simp only []
  by_cases h4 : d.length < 4
  · exact Or.inl ⟨fun ⟨hmin, hfits⟩ => by omega, if_pos h4⟩
  have hlen := readLe16_eq (d := d) (i := 0) 0 rfl (by omega)
  have htype := readLe16_eq (d := d) (i := 2) 2 rfl (by omega)
  rw [if_neg h4, hlen, htype]
  simp only [pure_bind]
  change _ ∨ _ ∨ _
  have hlow : leWord16 d 0 < 4 ↔ nlaLenOf d < 4 := UInt16.lt_iff_toNat_lt
  rw [show (leWord16 d 0).toNat = nlaLenOf d from rfl]
  by_cases hmin : nlaLenOf d < 4
  · exact Or.inl ⟨fun hw => by have := hw.1; omega, if_pos (hlow.mpr hmin)⟩
  rw [if_neg (mt hlow.mp hmin)]
  by_cases hfits : d.length < nlaLenOf d
  · exact Or.inl ⟨fun hw => by have := hw.2; omega, if_pos (by omega)⟩
  have hw : Whole d := ⟨Nat.le_of_not_lt hmin, Nat.le_of_not_lt hfits⟩
  have hval : slice d 4 (nlaLenOf d) = pure (attrAt d).2 :=
    slice_eq 4 (nlaLenOf d - 4) rfl (by omega) (by omega)
  rw [if_neg (by omega), hval, pure_bind, nlaAlign_eq]
  by_cases hlast : d.length < align4 (nlaLenOf d)
  · exact Or.inr (Or.inr ⟨hw, hlast, if_pos (by omega)⟩)
  · refine Or.inr (Or.inl ⟨hw, Nat.le_of_not_lt hlast, ?_⟩)
    rw [if_neg (by omega), slice_drop (Nat.le_of_not_lt hlast)]
    rfl

theorem update_lookup {l : List (UInt16 × Bytes)} {t : UInt16} {v : Bytes} :
    Function.update (fun t => l.reverse.lookup t) t (some v)
      = fun t' => (l ++ [(t, v)]).reverse.lookup t' := by
  funext t'
  rw [List.reverse_append, List.reverse_singleton, List.singleton_append, List.lookup_cons]
  by_cases h : t' = t
  · subst h
    rw [Function.update_self, BEq.rfl]
  · rw [Function.update_of_ne h, beq_eq_false_iff_ne.mpr h]

/-- The map holds the last value of each type. -/
theorem Go.parseNLAttrs_returns (data : Bytes) :
    (Go.parseNLAttrs data).Returns (lastLook data) := by
  have hrel : ∃ m, (Go.parseNLAttrs data).Returns m
      ∧ m = fun t => ([] ++ attrs.frames data).reverse.lookup t := by
    refine attrs.loop_frames_rel
      (fun s rest l => s = (rest, fun t => l.reverse.lookup t))
      (fun m l => m = fun t => l.reverse.lookup t) ?_ ?_ rfl
    · rintro _ d l rfl hnext
      have hw : ¬Whole d := fun hw => by
        rw [attrs, Framing.headed_next_of hw] at hnext
        cases hnext
      rcases Go.parseNLAttrsStep_spec d (fun t => l.reverse.lookup t)
        with ⟨-, hstep⟩ | ⟨hw', -⟩ | ⟨hw', -⟩
      · exact ⟨_, by rw [hstep]; exact returns_pure.mpr rfl, rfl⟩
      · exact absurd hw' hw
      · exact absurd hw' hw
    · rintro _ d l b r rfl hnext
      obtain ⟨hw, rfl, rfl⟩ := Framing.headed_next_iff.mp hnext
      rcases Go.parseNLAttrsStep_spec d (fun t => l.reverse.lookup t)
        with ⟨hw', -⟩ | ⟨-, -, hstep⟩ | ⟨-, hlast, hstep⟩
      · exact absurd hw hw'
      · refine Or.inl ⟨_, by rw [Next, hstep]; exact returns_pure.mpr rfl, ?_⟩
        rw [update_lookup]
      · refine Or.inr ⟨?_, _, by rw [hstep]; exact returns_pure.mpr rfl, update_lookup⟩
        rw [afterAttr, List.drop_of_length_le (Nat.le_of_lt hlast)]
        exact Framing.headed_next_none (by decide)
  obtain ⟨_, hret, rfl⟩ := hrel
  exact hret

/-! ### The table of the C port -/

/-- A table entry stands for the bytes it points at. -/
inductive Points (mem : Bytes) : Option (Int × Int) → Option Bytes → Prop where
  | none : Points mem none none
  | some (q k : Nat) : q + k ≤ mem.length → Points mem (some (q, k)) (some ((mem.drop q).take k))

theorem place_of_points {mem b : Bytes} {p : Option (Int × Int)} (h : Points mem p (some b)) :
    ∃ q k : Nat, p = some ((q : Int), (k : Int)) ∧ q + k ≤ mem.length ∧ (mem.drop q).take k = b := by
  generalize hv : some b = v at h
  cases h with
  | none => cases hv
  | some q k hqk => exact ⟨q, k, rfl, hqk, (Option.some.inj hv).symm⟩

/-- The table points at what `look` gives for each type it has room for. -/
def Holds (mem : Bytes) (set : C.NlaSet) (look : UInt16 → Option Bytes) : Prop :=
  ∀ t : UInt16, t.toNat < 64 → Points mem (set.get t) (look t)

theorem C.NlaSet.get_keep_self {set : NlaSet} {t : UInt16} (ht : t.toNat < 64) (val len : Int) :
    (set.keep t val len).get t = (set.get t).or (some (val, len)) := by
  unfold keep get
  rw [dif_pos ht, dif_pos ht, dif_pos ht]
  cases hset : set ⟨t.toNat, ht⟩ with
  | some p => exact hset
  | none => exact Function.update_self ..

theorem C.NlaSet.get_keep_ne {set : NlaSet} {t t' : UInt16} (hne : t' ≠ t) (val len : Int) :
    (set.keep t val len).get t' = set.get t' := by
  unfold keep get
  by_cases ht : t.toNat < 64
  case neg => rw [dif_neg ht]
  by_cases ht' : t'.toNat < 64
  case neg => rw [dif_neg ht', dif_neg ht']
  have hfin : (⟨t'.toNat, ht'⟩ : Fin 64) ≠ ⟨t.toNat, ht⟩ := fun he =>
    hne (UInt16.toNat_inj.mp (Fin.mk.inj he))
  rw [dif_pos ht', dif_pos ht', dif_pos ht]
  split
  · rfl
  · exact Function.update_of_ne hfin ..

theorem Holds.keep {mem : Bytes} {set : C.NlaSet} {l : List (UInt16 × Bytes)}
    (h : Holds mem set (l.lookup ·)) (t : UInt16) {q k : Nat} (hqk : q + k ≤ mem.length) :
    Holds mem (set.keep t q k) ((l ++ [(t, (mem.drop q).take k)]).lookup ·) := by
  intro t' ht'
  have hold : Points mem (set.get t') (l.lookup t') := h t' ht'
  simp only [List.lookup_append, List.lookup_cons]
  by_cases heq : t' = t
  · subst heq
    rw [C.NlaSet.get_keep_self ht', BEq.rfl]
    generalize set.get t' = entry at hold
    generalize l.lookup t' = value at hold
    cases hold with
    | none => exact .some q k hqk
    | some q' k' hqk' => exact .some q' k' hqk'
  · rw [C.NlaSet.get_keep_ne heq, beq_eq_false_iff_ne.mpr heq, List.lookup_nil, Option.or_none]
    exact hold

/-- One attribute further in the table, at the cursor `p`, `n`. -/
theorem C.parseNlaStep_spec {mem : Bytes} {p n : Nat} (hpn : p + n ≤ mem.length)
    (set : NlaSet) :
    let d := (mem.drop p).take n
    let set' := set.keep (attrAt d).1 (p + 4 : Nat) (nlaLenOf d - 4 : Nat)
    (¬Whole d ∧ parseNlaStep mem ⟨p, n, set⟩ = pure (.inr set))
      ∨ (Whole d ∧ align4 (nlaLenOf d) ≤ n
        ∧ parseNlaStep mem ⟨p, n, set⟩
          = pure (.inl ⟨(p + align4 (nlaLenOf d) : Nat), (n - align4 (nlaLenOf d) : Nat), set'⟩))
      ∨ (Whole d ∧ n < align4 (nlaLenOf d)
        ∧ parseNlaStep mem ⟨p, n, set⟩ = pure (.inr set')) := by
  intro d set'
  have hd : d.length = n := length_take_drop hpn
  unfold parseNlaStep
  simp only []
  by_cases h4 : n < 4
  · exact Or.inl ⟨fun ⟨hmin, hfits⟩ => by omega, if_neg (by omega)⟩
  have hlen := readLe16_take_drop (d := mem) (i := p) p n 0 (by omega) (by omega) hpn
  have htype := readLe16_take_drop (d := mem) (i := p + 2) p n 2 (by omega) (by omega) hpn
  rw [if_pos (by omega), hlen, htype]
  simp only [pure_bind]
  have hlow : leWord16 d 0 < 4 ↔ nlaLenOf d < 4 := UInt16.lt_iff_toNat_lt
  rw [show (leWord16 ((mem.drop p).take n) 0).toNat = nlaLenOf d from rfl]
  by_cases hmin : nlaLenOf d < 4
  · exact Or.inl ⟨fun hw => by have := hw.1; omega, if_pos (hlow.mpr hmin)⟩
  rw [if_neg (mt hlow.mp hmin)]
  by_cases hfits : d.length < nlaLenOf d
  · exact Or.inl ⟨fun hw => by have := hw.2; omega, if_pos (by omega)⟩
  have hw : Whole d := ⟨Nat.le_of_not_lt hmin, Nat.le_of_not_lt hfits⟩
  have hset : set.keep (maskType (leWord16 ((mem.drop p).take n) 2)) (p + 4)
      ((nlaLenOf d : Int) - 4) = set' := by
    have hcast : ((nlaLenOf d : Int) - 4) = (nlaLenOf d - 4 : Nat) := by omega
    rw [hcast]
    rfl
  rw [if_neg (by omega), hset, nlaAlign_eq]
  by_cases hlast : n < align4 (nlaLenOf d)
  · exact Or.inr (Or.inr ⟨hw, hlast, if_pos (by omega)⟩)
  · refine Or.inr (Or.inl ⟨hw, Nat.le_of_not_lt hlast, ?_⟩)
    have hcast : ((n : Int) - align4 (nlaLenOf d)) = (n - align4 (nlaLenOf d) : Nat) := by omega
    rw [if_neg (by omega), hcast]
    rfl

/-- What an iteration keeps stays pointed at. -/
theorem C.holds_step {mem : Bytes} {p n : Nat} (hpn : p + n ≤ mem.length) {set : NlaSet}
    {l : List (UInt16 × Bytes)} (hw : Whole ((mem.drop p).take n)) 
    (hset : Holds mem set (l.lookup ·)) :
    let d := (mem.drop p).take n
    Holds mem (set.keep (attrAt d).1 (p + 4 : Nat) (nlaLenOf d - 4 : Nat))
      ((l ++ [attrAt d]).lookup ·) := by
  intro d
  have hlen : d.length = n := length_take_drop hpn
  obtain ⟨hmin, hfits⟩ : Whole d := hw
  have hval : (attrAt d).2 = (mem.drop (p + 4)).take (nlaLenOf d - 4) :=
    take_drop_take_drop mem (by omega)
  have hkeep := hset.keep (attrAt d).1 (q := p + 4) (k := nlaLenOf d - 4) (by omega)
  rwa [← hval] at hkeep

/-- The table points at the first value of each type. Nothing outside the list is read. -/
theorem C.parseNla_returns {mem : Bytes} {p n : Nat} (hpn : p + n ≤ mem.length) :
    ∃ set, (C.parseNla mem p n).Returns set
      ∧ Holds mem set (firstLook ((mem.drop p).take n)) := by
  change ∃ set, (loop (C.parseNlaStep mem) ⟨p, n, fun _ => none⟩).Returns set
    ∧ Holds mem set (([] ++ attrs.frames ((mem.drop p).take n)).lookup ·)
  refine attrs.loop_frames_rel
    (fun (s : C.NlaCursor) rest l => ∃ p n : Nat, p + n ≤ mem.length ∧ s = ⟨p, n, s.set⟩
      ∧ rest = (mem.drop p).take n ∧ Holds mem s.set (l.lookup ·))
    (fun set l => Holds mem set (l.lookup ·)) ?_ ?_ ⟨p, n, hpn, rfl, rfl, fun t _ => ?_⟩
  · rintro ⟨_, _, set⟩ _ l ⟨p, n, hpn, hs, rfl, hset⟩ hnext
    have hw : ¬Whole ((mem.drop p).take n) := fun hw => by
      rw [attrs, Framing.headed_next_of hw] at hnext
      cases hnext
    rw [hs]
    rcases C.parseNlaStep_spec hpn set with ⟨-, hstep⟩ | ⟨hw', -⟩ | ⟨hw', -⟩
    · exact ⟨set, by rw [hstep]; exact returns_pure.mpr rfl, hset⟩
    · exact absurd hw' hw
    · exact absurd hw' hw
  · rintro ⟨_, _, set⟩ _ l b r ⟨p, n, hpn, hs, rfl, hset⟩ hnext
    obtain ⟨hw, rfl, rfl⟩ := Framing.headed_next_iff.mp hnext
    rw [hs]
    have hset' := C.holds_step hpn hw hset
    rcases C.parseNlaStep_spec hpn set with ⟨hw', -⟩ | ⟨-, halign, hstep⟩ | ⟨-, hlast, hstep⟩
    · exact absurd hw hw'
    · refine Or.inl ⟨_, by rw [Next, hstep]; exact returns_pure.mpr rfl, _, _, ?_, rfl, ?_, hset'⟩
      · omega
      · rw [afterAttr, drop_take_drop]
    · refine Or.inr ⟨?_, _, by rw [hstep]; exact returns_pure.mpr rfl, hset'⟩
      rw [afterAttr, drop_take_drop, Nat.sub_eq_zero_of_le (Nat.le_of_lt hlast), List.take_zero]
      exact Framing.headed_next_none (by decide)
  · unfold C.NlaSet.get
    split <;> exact .none

/-! ## What a sender writes -/

/-- An attribute with its flag bits and its padding. -/
structure Attr where
  rawType : UInt16
  value : Bytes
  pad : Bytes
  aligned : 4 + value.length + pad.length = align4 (4 + value.length)
  fits : 4 + value.length < 2 ^ 16

namespace Attr

def pair (a : Attr) : UInt16 × Bytes := (maskType a.rawType, a.value)

def bytes (a : Attr) : Bytes :=
  le16Bytes (.ofNat (4 + a.value.length)) ++ (le16Bytes a.rawType ++ (a.value ++ a.pad))

theorem bytes_length (a : Attr) : a.bytes.length = align4 (4 + a.value.length) := by
  rw [← a.aligned, bytes]
  simp only [List.length_append, le16Bytes_length]
  omega

/-- An attribute is read back whatever follows it. -/
theorem next_bytes (a : Attr) (x : Bytes) : attrs.next (a.bytes ++ x) = some (a.pair, x) := by
  have h : At (a.bytes ++ x) 0 (a.bytes ++ x) := ⟨by simp, by simp⟩
  obtain ⟨hbytes, -⟩ := At.append_iff.mp h
  obtain ⟨hlen, hrest⟩ := At.append_iff.mp hbytes
  obtain ⟨htype, hrest⟩ := At.append_iff.mp hrest
  obtain ⟨hvalue, -⟩ := At.append_iff.mp hrest
  have hlenOf : nlaLenOf (a.bytes ++ x) = 4 + a.value.length := by
    rw [nlaLenOf, hlen.leWord16]
    exact Nat.mod_eq_of_lt a.fits
  have hw : Whole (a.bytes ++ x) := by
    have := le_align4 (4 + a.value.length)
    rw [Whole, hlenOf, List.length_append, bytes_length]
    omega
  have hattr : attrAt (a.bytes ++ x) = a.pair := by
    have heq := hvalue.eq
    rw [attrAt, hlenOf, Nat.add_sub_cancel_left]
    exact congrArg₂ Prod.mk (congrArg maskType htype.leWord16) heq
  rw [attrs, Framing.headed_next_of hw, hattr, afterAttr, hlenOf, ← bytes_length, List.drop_left]

end Attr

/-- The bytes of a list. -/
def attrBytes (as : List Attr) : Bytes := (as.map Attr.bytes).flatten

theorem frames_attrBytes (as : List Attr) : attrs.frames (attrBytes as) = as.map Attr.pair := by
  have hnil : attrs.frames [] = [] := Framing.headed_frames_none (by decide)
  have h := attrs.frames_encode Attr.next_bytes [] as
  rwa [List.append_nil, hnil, List.append_nil] at h

end Tracep.Nettrace
