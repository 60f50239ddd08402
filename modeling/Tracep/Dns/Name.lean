import Tracep.Lib.Bytes
import Tracep.Lib.Loop

/-!
# Compressed names on the wire

What a DNS name is, independently of any parser: a sequence of items, each
a label, a compression pointer or the root byte, read from a byte string
at an offset (`itemAt`). `Hop` is the walk from one item to the next, with
pointers followed; `NameAt d p L` says the walk from `p` reaches the root
and spells the labels `L`; `FieldEnd d p n` says the name field written at
`p` ends at `n`, pointer destinations not counted. A walk may also run
into a malformed item, or go round forever (`Looping`).

The walk is deterministic and visits finitely many offsets, so a name
either loops, or ends, or breaks off (`looping_iff`, `resolves_iff`). All
judgements but looping only look at bytes that are there, so they survive
appending bytes (`NameAt.append`, `FieldEnd.append`).
-/

namespace Tracep.Dns

open Relation

/-! ## Items -/

inductive Item where
  | root
  | pointer (target : Nat)
  | label (text : Bytes)
  | bad
deriving Repr, DecidableEq

/-- The offset a compression pointer with these two bytes leads to. -/
def target (hi lo : UInt8) : Nat := (be16 hi lo &&& 0x3FFF).toNat

/-- The item at offset `p`. -/
def itemAt (d : Bytes) (p : Nat) : Item :=
  match d[p]? with
  | none => .bad
  | some l =>
      if l.toNat = 0 then .root
      else if l.toNat &&& 0xC0 = 0xC0 then
        match d[p + 1]? with
        | none => .bad
        | some lo => .pointer (target l lo)
      else if l.toNat &&& 0xC0 = 0 then
        if p + 1 + l.toNat ≤ d.length then .label ((d.drop (p + 1)).take l.toNat) else .bad
      else .bad

theorem target_lt (hi lo : UInt8) : target hi lo < 16384 := by
  rw [target, UInt16.toNat_and]
  exact Nat.lt_of_le_of_lt Nat.and_le_right (by decide)

theorem top_bits_clear : ∀ l : Fin 256, l.1 &&& 0xC0 = 0 ↔ l.1 < 64 := by
  decide +kernel

theorem top_bits_set : ∀ l : Fin 256, l.1 &&& 0xC0 = 0xC0 ↔ 192 ≤ l.1 := by
  decide +kernel

theorem lt_length_of_itemAt {d : Bytes} {p : Nat} (h : itemAt d p ≠ .bad) :
    p < d.length := by
  by_contra hlt
  exact h (by simp [itemAt, List.getElem?_eq_none (Nat.not_lt.mp hlt)])

/-- A label is neither empty nor longer than 63 bytes, and lies inside the data. -/
theorem label_bounds {d : Bytes} {p : Nat} {t : Bytes} (h : itemAt d p = .label t) :
    0 < t.length ∧ t.length < 64 ∧ p + 1 + t.length ≤ d.length
      ∧ (d.drop (p + 1)).take t.length = t := by
  unfold itemAt at h
  split at h
  · cases h
  · rename_i l hl
    split at h
    · cases h
    · rename_i h0
      split at h
      · split at h <;> cases h
      · split at h
        · rename_i h64
          have hlt := (top_bits_clear ⟨l.toNat, l.toNat_lt⟩).mp h64
          simp only at hlt
          split at h
          · rename_i hle
            obtain rfl := Item.label.inj h
            have hlen : ((d.drop (p + 1)).take l.toNat).length = l.toNat :=
              length_take_drop (by omega)
            rw [hlen]
            exact ⟨by omega, by omega, hle, rfl⟩
          · cases h
        · cases h

theorem itemAt_append {d : Bytes} {p : Nat} (h : itemAt d p ≠ .bad) (x : Bytes) :
    itemAt (d ++ x) p = itemAt d p := by
  have hp := lt_length_of_itemAt h
  have h0 : (d ++ x)[p]? = d[p]? := List.getElem?_append_left hp
  unfold itemAt at h ⊢
  rw [h0]
  split
  · rfl
  · rename_i l hl
    rw [hl] at h
    simp only at h
    split
    · rfl
    · rename_i hl0
      rw [if_neg hl0] at h
      split
      · rename_i hC
        rw [if_pos hC] at h
        have h1 : p + 1 < d.length := by
          by_contra hlt
          exact h (by simp [List.getElem?_eq_none (Nat.not_lt.mp hlt)])
        rw [List.getElem?_append_left h1]
      · rename_i hC
        rw [if_neg hC] at h
        split
        · rename_i hz
          rw [if_pos hz] at h
          have hle : p + 1 + l.toNat ≤ d.length := by
            by_contra hlt
            exact h (if_neg hlt)
          rw [if_pos hle, if_pos (by rw [List.length_append]; omega),
            List.drop_append_of_le_length (by omega),
            List.take_append_of_le_length (by rw [List.length_drop]; omega)]
        · rfl

/-! ## The walk -/

/-- One hop of the walk: over a label, or along a pointer. -/
inductive Hop (d : Bytes) : Nat → Nat → Prop where
  | label {p : Nat} {t : Bytes} : itemAt d p = .label t → Hop d p (p + 1 + t.length)
  | pointer {p t : Nat} : itemAt d p = .pointer t → Hop d p t

/-- The walk from `p` reaches the root, spelling `L`. -/
inductive NameAt (d : Bytes) : Nat → List Bytes → Prop where
  | root {p : Nat} : itemAt d p = .root → NameAt d p []
  | label {p : Nat} {t : Bytes} {L : List Bytes} :
      itemAt d p = .label t → NameAt d (p + 1 + t.length) L → NameAt d p (t :: L)
  | pointer {p t : Nat} {L : List Bytes} :
      itemAt d p = .pointer t → NameAt d t L → NameAt d p L

/-- The name field written at `p` ends before `n`. -/
inductive FieldEnd (d : Bytes) : Nat → Nat → Prop where
  | root {p : Nat} : itemAt d p = .root → FieldEnd d p (p + 1)
  | label {p n : Nat} {t : Bytes} :
      itemAt d p = .label t → FieldEnd d (p + 1 + t.length) n → FieldEnd d p n
  | pointer {p t : Nat} : itemAt d p = .pointer t → FieldEnd d p (p + 2)

/-- The walk from `p` comes back to an offset it has already left. -/
def Looping (d : Bytes) (p : Nat) : Prop :=
  ∃ q, ReflTransGen (Hop d) p q ∧ TransGen (Hop d) q q

/-- The walk from `p` reaches the root. -/
def Resolves (d : Bytes) (p : Nat) : Prop := ∃ L, NameAt d p L

theorem hop_rightUnique (d : Bytes) : Relator.RightUnique (Hop d) := by
  intro p q q' h h'
  cases h with
  | label h1 =>
      cases h' with
      | label h2 => rw [Item.label.inj (h1.symm.trans h2)]
      | pointer h2 => cases h1.symm.trans h2
  | pointer h1 =>
      cases h' with
      | label h2 => cases h1.symm.trans h2
      | pointer h2 => exact Item.pointer.inj (h1.symm.trans h2)

theorem pointer_lt {d : Bytes} {p t : Nat} (h : itemAt d p = .pointer t) :
    t < 16384 ∧ p + 2 ≤ d.length := by
  unfold itemAt at h
  split at h
  · cases h
  · split at h
    · cases h
    · split at h
      · split at h
        · cases h
        · rename_i lo hlo
          obtain rfl := Item.pointer.inj h
          have := (List.getElem?_eq_some_iff.mp hlo).1
          exact ⟨target_lt _ _, by omega⟩
      · split at h
        · split at h <;> cases h
        · cases h

theorem Hop.bound {d : Bytes} {p q : Nat} (h : Hop d p q) : q ≤ max 16384 d.length := by
  cases h with
  | label h =>
      have := label_bounds h
      omega
  | pointer h =>
      have := pointer_lt h
      omega

/-- The walk visits finitely many offsets. -/
theorem finite_walk (d : Bytes) (p : Nat) : {q | ReflTransGen (Hop d) p q}.Finite := by
  refine (Set.finite_Iic (max p (max 16384 d.length))).subset fun q hq => ?_
  rcases ReflTransGen.cases_tail hq with rfl | ⟨_, -, hlast⟩
  · simp
  · have := hlast.bound
    simp only [Set.mem_Iic]
    omega

/-- The walk loops exactly when it never stops. -/
theorem looping_iff {d : Bytes} {p : Nat} :
    Looping d p ↔ ∀ q, ReflTransGen (Hop d) p q → ∃ q', Hop d q q' :=
  (never_stuck_iff_cycle (hop_rightUnique d) (finite_walk d p)).symm

theorem resolves_iff {d : Bytes} {p : Nat} :
    Resolves d p ↔ ∃ q, ReflTransGen (Hop d) p q ∧ itemAt d q = .root := by
  constructor
  · rintro ⟨L, h⟩
    induction h with
    | root h => exact ⟨_, ReflTransGen.refl, h⟩
    | label h _ ih =>
        obtain ⟨q, hq, hr⟩ := ih
        exact ⟨q, ReflTransGen.head (.label h) hq, hr⟩
    | pointer h _ ih =>
        obtain ⟨q, hq, hr⟩ := ih
        exact ⟨q, ReflTransGen.head (.pointer h) hq, hr⟩
  · rintro ⟨q, hq, hr⟩
    induction hq using ReflTransGen.head_induction_on with
    | refl => exact ⟨[], .root hr⟩
    | head hstep _ ih =>
        obtain ⟨L, hL⟩ := ih
        cases hstep with
        | label h => exact ⟨_, .label h hL⟩
        | pointer h => exact ⟨_, .pointer h hL⟩

/-! ## Determinism -/

theorem NameAt.unique {d : Bytes} {p : Nat} {L : List Bytes} (h : NameAt d p L) :
    ∀ {L' : List Bytes}, NameAt d p L' → L = L' := by
  induction h with
  | root h =>
      intro L' h'
      cases h' with
      | root _ => rfl
      | label h2 _ => cases h.symm.trans h2
      | pointer h2 _ => cases h.symm.trans h2
  | label h _ ih =>
      intro L' h'
      cases h' with
      | root h2 => cases h.symm.trans h2
      | label h2 hrest =>
          obtain rfl := Item.label.inj (h.symm.trans h2)
          rw [ih hrest]
      | pointer h2 _ => cases h.symm.trans h2
  | pointer h _ ih =>
      intro L' h'
      cases h' with
      | root h2 => cases h.symm.trans h2
      | label h2 _ => cases h.symm.trans h2
      | pointer h2 hrest =>
          obtain rfl := Item.pointer.inj (h.symm.trans h2)
          exact ih hrest

theorem FieldEnd.unique {d : Bytes} {p n : Nat} (h : FieldEnd d p n) :
    ∀ {n' : Nat}, FieldEnd d p n' → n = n' := by
  induction h with
  | root h =>
      intro n' h'
      cases h' with
      | root _ => rfl
      | label h2 _ => cases h.symm.trans h2
      | pointer h2 => cases h.symm.trans h2
  | label h _ ih =>
      intro n' h'
      cases h' with
      | root h2 => cases h.symm.trans h2
      | label h2 hrest =>
          obtain rfl := Item.label.inj (h.symm.trans h2)
          exact ih hrest
      | pointer h2 => cases h.symm.trans h2
  | pointer h =>
      intro n' h'
      cases h' with
      | root h2 => cases h.symm.trans h2
      | label h2 _ => cases h.symm.trans h2
      | pointer _ => rfl

/-- A name that resolves has a field end. -/
theorem NameAt.fieldEnd {d : Bytes} {p : Nat} {L : List Bytes} (h : NameAt d p L) :
    ∃ n, FieldEnd d p n := by
  induction h with
  | root h => exact ⟨_, .root h⟩
  | label h _ ih =>
      obtain ⟨n, hn⟩ := ih
      exact ⟨n, .label h hn⟩
  | pointer h _ _ => exact ⟨_, .pointer h⟩

theorem FieldEnd.bounds {d : Bytes} {p n : Nat} (h : FieldEnd d p n) :
    p < n ∧ n ≤ d.length := by
  induction h with
  | root h =>
      have := lt_length_of_itemAt (d := d) (by rw [h]; simp)
      omega
  | label h _ ih => omega
  | pointer h =>
      have := pointer_lt h
      omega

/-! ## Appended bytes change nothing -/

theorem NameAt.append {d : Bytes} {p : Nat} {L : List Bytes} (h : NameAt d p L) (x : Bytes) :
    NameAt (d ++ x) p L := by
  induction h with
  | root h => exact .root (by rw [itemAt_append (by simp [h]), h])
  | label h _ ih => exact .label (by rw [itemAt_append (by simp [h]), h]) ih
  | pointer h _ ih => exact .pointer (by rw [itemAt_append (by simp [h]), h]) ih

theorem FieldEnd.append {d : Bytes} {p n : Nat} (h : FieldEnd d p n) (x : Bytes) :
    FieldEnd (d ++ x) p n := by
  induction h with
  | root h => exact .root (by rw [itemAt_append (by simp [h]), h])
  | label h _ ih => exact .label (by rw [itemAt_append (by simp [h]), h]) ih
  | pointer h => exact .pointer (by rw [itemAt_append (by simp [h]), h])

end Tracep.Dns
