import Tracep.Lib.Loop
import Mathlib.Data.Fintype.Card
import Mathlib.Data.Set.Card
import Mathlib.Algebra.BigOperators.Fin
import Mathlib.Algebra.Order.BigOperators.Group.Finset

/-!
# Hash tables with linear probing

A `Table` has a fixed number of slots. A key is put into the first unused
slot on its path, which starts at the slot that the key hashes to and goes
round the whole table (`Scheme.stop`). A key is found again as long as no
slot before it on its path is unused; with that no two slots hold one key,
and the counter is right, the table is `Sound`.

Deletion frees a slot and puts the entries of the cluster behind it in
again, one by one (`Scheme.reinsert`). In between the table is sound but for
one slot: the hole may lie on the path of an entry, though only of one that
is still to come (`Holed`). Each entry put in again either stays or moves
into the hole, which brings it closer to the start of its path, so this
ends, also in a table that was full (`Scheme.Sound.delete_returns`).
-/

namespace Tracep.Probing

open Exec

/-! ## Tables -/

/-- The contents of an unused slot mean nothing. -/
structure Slot (κ ν : Type) where
  used : Bool
  key : κ
  val : ν

/-- The slots and the counter of those in use. -/
@[ext] structure Table (κ ν : Type) (cap : Nat) where
  slots : Fin cap → Slot κ ν
  len : Int

/-- How a table hashes a key, what a new entry holds, and what is cleared in a freed slot. -/
structure Scheme (κ ν : Type) (cap : Nat) where
  hash : κ → Fin cap
  fresh : ν
  clear : ν → ν

variable {κ ν : Type} {cap : Nat}

def Table.set (t : Table κ ν cap) (i : Fin cap) (s : Slot κ ν) (len : Int) : Table κ ν cap :=
  ⟨Function.update t.slots i s, len⟩

/-- The slot at step `probe` of the path from `i`. -/
def probeAt (i : Fin cap) (probe : Nat) : Fin cap :=
  ⟨(i.val + probe) % cap, Nat.mod_lt _ (Nat.zero_lt_of_lt i.isLt)⟩

/-- The first slot with `p` among the next `n` on the path from `i`. -/
def firstFrom (p : Fin cap → Bool) (i : Fin cap) : Nat → Nat → Option (Fin cap)
  | 0, _ => none
  | n + 1, probe => if p (probeAt i probe) then some (probeAt i probe) else firstFrom p i n (probe + 1)

namespace Scheme

variable [DecidableEq κ] (S : Scheme κ ν cap)

/-- Where the probes for a key stop: at the first slot on its path that is unused or holds it. -/
def stop (t : Table κ ν cap) (k : κ) : Option (Fin cap) :=
  firstFrom (fun j => !(t.slots j).used || (t.slots j).key = k) (S.hash k) cap 0

def find (t : Table κ ν cap) (k : κ) : Option (Fin cap) :=
  (S.stop t k).bind fun j => if (t.slots j).used then some j else none

/-- The slot of a key and whether it was created. -/
def get (t : Table κ ν cap) (k : κ) : Option (Table κ ν cap × Fin cap × Bool) :=
  (S.stop t k).map fun j =>
    if (t.slots j).used then (t, j, false)
    else (t.set j ⟨true, k, S.fresh⟩ (t.len + 1), j, true)

/-- Free a slot. -/
def free (t : Table κ ν cap) (i : Fin cap) : Table κ ν cap :=
  t.set i ⟨false, (t.slots i).key, S.clear (t.slots i).val⟩ (t.len - 1)

/-- Take the entry after `j` out and put it in again, or end before an unused slot. To store
through the slot that is not there is a fault. -/
def reinsert (s : Table κ ν cap × Fin cap) :
    Exec (Table κ ν cap × Fin cap ⊕ Table κ ν cap) :=
  let (t, j) := s
  let j := probeAt j 1
  let tmp := t.slots j
  if !tmp.used then return .inr t
  else
    match S.get (S.free t j) tmp.key with
    | none => fault
    | some (t, n, _) => return .inl (t.set n { t.slots n with val := tmp.val } t.len, j)

def delete (t : Table κ ν cap) (k : κ) : Exec (Table κ ν cap) :=
  match S.find t k with
  | none => return t
  | some slot => loop S.reinsert (S.free t slot, slot)

end Scheme

/-! ## The path of a key -/

/-- The number of steps from `i` to `j`. -/
def dist (i j : Fin cap) : Nat :=
  if i.val ≤ j.val then j.val - i.val else j.val + cap - i.val

theorem dist_lt (i j : Fin cap) : dist i j < cap := by
  have := i.isLt
  have := j.isLt
  unfold dist
  split <;> omega

@[simp] theorem dist_self (i : Fin cap) : dist i i = 0 := by
  simp [dist]

theorem dist_eq_zero {i j : Fin cap} : dist i j = 0 ↔ i = j := by
  have := i.isLt
  have := j.isLt
  rw [Fin.ext_iff]
  unfold dist
  split <;> omega

theorem dist_inj {i j j' : Fin cap} (h : dist i j = dist i j') : j = j' := by
  have := i.isLt
  have := j.isLt
  have := j'.isLt
  rw [Fin.ext_iff]
  unfold dist at h
  split at h <;> split at h <;> omega

theorem probeAt_val {i : Fin cap} {n : Nat} (h : n < cap) :
    (probeAt i n).val = if i.val + n < cap then i.val + n else i.val + n - cap := by
  have := i.isLt
  change (i.val + n) % cap = _
  split
  · exact Nat.mod_eq_of_lt ‹_›
  · rw [Nat.mod_eq_sub_mod (by omega), Nat.mod_eq_of_lt (by omega)]

theorem dist_probeAt {i : Fin cap} {n : Nat} (h : n < cap) : dist i (probeAt i n) = n := by
  have := i.isLt
  unfold dist
  rw [probeAt_val h]
  split <;> split <;> omega

theorem probeAt_dist (i j : Fin cap) : probeAt i (dist i j) = j :=
  dist_inj (dist_probeAt (dist_lt i j))

/-- Steps add up until they come round. -/
theorem dist_add {i j l : Fin cap} (h : dist i j ≤ dist i l) : dist i j + dist j l = dist i l := by
  have := i.isLt
  have := j.isLt
  have := l.isLt
  unfold dist at *
  split_ifs at * <;> omega

/-- What lies between `j` and `l` lies between `i` and `l`. -/
theorem dist_between {i j l m : Fin cap} (h : dist i j ≤ dist i l) (h' : dist j m ≤ dist j l) :
    dist i m = dist i j + dist j m := by
  have := i.isLt
  have := j.isLt
  have := l.isLt
  have := m.isLt
  unfold dist at *
  split_ifs at * <;> omega

/-- The last step round. -/
theorem dist_last {i j : Fin cap} (h : probeAt j 1 = i) : dist i j + 1 = cap := by
  have := j.isLt
  subst h
  by_cases hcap : 1 < cap
  · have hval := probeAt_val (i := j) hcap
    unfold dist
    rw [hval]
    split_ifs <;> omega
  · have := dist_lt (probeAt j 1) j
    omega

theorem dist_next {i j : Fin cap} (h : probeAt j 1 ≠ i) : dist i (probeAt j 1) = dist i j + 1 := by
  have := i.isLt
  have := j.isLt
  by_cases hcap : 1 < cap
  · have hval := probeAt_val (i := j) hcap
    rw [ne_eq, Fin.ext_iff, hval] at h
    unfold dist
    rw [hval]
    split_ifs at * <;> omega
  · exact absurd (Fin.ext (by have := (probeAt j 1).isLt; omega)) h

/-- The search stops at the first slot with `p`. -/
theorem firstFrom_eq_some_aux {p : Fin cap → Bool} {i j : Fin cap} :
    ∀ {n m : Nat}, n + m = cap → (firstFrom p i n m = some j ↔
      m ≤ dist i j ∧ p j ∧ ∀ q, m ≤ dist i q → dist i q < dist i j → ¬p q)
  | 0, m, hm => by
      have := dist_lt i j
      refine iff_of_false (by simp [firstFrom]) fun h => ?_
      omega
  | n + 1, m, hm => by
      have hlt : m < cap := by omega
      have ih := firstFrom_eq_some_aux (p := p) (i := i) (j := j) (n := n) (m := m + 1) (by omega)
      rw [firstFrom]
      by_cases hp : p (probeAt i m)
      · rw [if_pos hp, Option.some.injEq]
        constructor
        · rintro rfl
          rw [dist_probeAt hlt]
          exact ⟨Nat.le_refl _, hp, fun q h h' => absurd h' (Nat.not_lt.mpr h)⟩
        · rintro ⟨hm, hj, hfirst⟩
          by_contra hne
          refine hfirst _ (dist_probeAt hlt).ge ?_ hp
          rw [dist_probeAt hlt]
          refine lt_of_le_of_ne hm fun h => hne ?_
          rw [h, probeAt_dist]
      · rw [if_neg hp, ih]
        have hstep : ∀ q, m ≤ dist i q → p q → m + 1 ≤ dist i q := by
          intro q hq hpq
          refine lt_of_le_of_ne hq fun h => hp ?_
          rw [h, probeAt_dist]
          exact hpq
        constructor
        · rintro ⟨hm, hj, hfirst⟩
          exact ⟨by omega, hj, fun q h h' hpq => hfirst q (hstep q h hpq) h' hpq⟩
        · rintro ⟨hm, hj, hfirst⟩
          exact ⟨hstep j hm hj, hj, fun q h => hfirst q (by omega)⟩

theorem firstFrom_eq_none_aux {p : Fin cap → Bool} {i : Fin cap} :
    ∀ {n m : Nat}, n + m = cap → (firstFrom p i n m = none ↔ ∀ j, m ≤ dist i j → ¬p j)
  | 0, m, hm => by
      refine iff_of_true rfl fun j h => ?_
      have := dist_lt i j
      omega
  | n + 1, m, hm => by
      have hlt : m < cap := by omega
      have ih := firstFrom_eq_none_aux (p := p) (i := i) (n := n) (m := m + 1) (by omega)
      rw [firstFrom]
      by_cases hp : p (probeAt i m)
      · rw [if_pos hp]
        exact iff_of_false (Option.some_ne_none _) fun h => h _ (dist_probeAt hlt).ge hp
      · rw [if_neg hp, ih]
        refine ⟨fun h j hj hpj => ?_, fun h j hj => h j (by omega)⟩
        refine h j (lt_of_le_of_ne hj fun heq => hp ?_) hpj
        rw [heq, probeAt_dist]
        exact hpj

theorem firstFrom_eq_some {p : Fin cap → Bool} {i j : Fin cap} :
    firstFrom p i cap 0 = some j ↔ p j ∧ ∀ q, dist i q < dist i j → ¬p q := by
  simp [firstFrom_eq_some_aux (Nat.add_zero cap)]

theorem firstFrom_eq_none {p : Fin cap → Bool} {i : Fin cap} :
    firstFrom p i cap 0 = none ↔ ∀ j, ¬p j := by
  simp [firstFrom_eq_none_aux (Nat.add_zero cap)]

/-! ## Sound tables -/

namespace Table

@[simp] theorem set_slots_self (t : Table κ ν cap) (i : Fin cap) (s : Slot κ ν) (len : Int) :
    (t.set i s len).slots i = s := Function.update_self ..

@[simp] theorem set_slots_ne (t : Table κ ν cap) {i j : Fin cap} (h : j ≠ i) (s : Slot κ ν)
    (len : Int) : (t.set i s len).slots j = t.slots j := Function.update_of_ne h ..

@[simp] theorem set_len (t : Table κ ν cap) (i : Fin cap) (s : Slot κ ν) (len : Int) :
    (t.set i s len).len = len := rfl

theorem set_set (t : Table κ ν cap) (i : Fin cap) (s s' : Slot κ ν) (len len' : Int) :
    (t.set i s len).set i s' len' = t.set i s' len' := by
  simp [set]

theorem set_slots_eq (t : Table κ ν cap) (i : Fin cap) : t.set i (t.slots i) t.len = t := by
  simp [set]

theorem slot_eq {t : Table κ ν cap} {i : Fin cap} (hi : (t.slots i).used) :
    (⟨true, (t.slots i).key, (t.slots i).val⟩ : Slot κ ν) = t.slots i := by
  rw [← hi]

theorem ne_of_used {t : Table κ ν cap} {i j : Fin cap} (hi : ¬(t.slots i).used)
    (hj : (t.slots j).used) : i ≠ j := by
  rintro rfl
  exact hi hj

/-- A slot in use after slot `i` was freed is another. -/
theorem ne_of_used_free {t : Table κ ν cap} {i j : Fin cap} {s : Slot κ ν} (hs : ¬s.used)
    {len : Int} (hj : ((t.set i s len).slots j).used) : j ≠ i := by
  rintro rfl
  rw [set_slots_self] at hj
  exact hs hj

def usedSlots (t : Table κ ν cap) : Finset (Fin cap) := {j | (t.slots j).used}

@[simp] theorem mem_usedSlots {t : Table κ ν cap} {j : Fin cap} :
    j ∈ t.usedSlots ↔ (t.slots j).used := by
  simp [usedSlots]

theorem usedSlots_fill (t : Table κ ν cap) (i : Fin cap) {s : Slot κ ν} (hs : s.used)
    (len : Int) : (t.set i s len).usedSlots = insert i t.usedSlots := by
  ext j
  by_cases h : j = i
  · subst h
    simp [hs]
  · simp [h]

theorem usedSlots_free (t : Table κ ν cap) (i : Fin cap) {s : Slot κ ν} (hs : ¬s.used)
    (len : Int) : (t.set i s len).usedSlots = t.usedSlots.erase i := by
  ext j
  by_cases h : j = i
  · subst h
    simp [hs]
  · simp [h]

/-- No two slots hold one key, and the counter counts the slots in use. -/
structure Tidy (t : Table κ ν cap) : Prop where
  unique : ∀ i j, (t.slots i).used → (t.slots j).used → (t.slots i).key = (t.slots j).key → i = j
  counted : t.len = t.usedSlots.card

/-- The key is held with the value. -/
def Stores (t : Table κ ν cap) (k : κ) (v : ν) : Prop :=
  ∃ j, (t.slots j).used ∧ (t.slots j).key = k ∧ (t.slots j).val = v

/-- The key is held. -/
def Live (t : Table κ ν cap) (k : κ) : Prop := ∃ j, (t.slots j).used ∧ (t.slots j).key = k

theorem Tidy.stores_unique {t : Table κ ν cap} (h : t.Tidy) {k : κ} {v w : ν}
    (hv : t.Stores k v) (hw : t.Stores k w) : v = w := by
  obtain ⟨i, hi, rfl, rfl⟩ := hv
  obtain ⟨j, hj, hkey, rfl⟩ := hw
  rw [h.unique i j hi hj hkey.symm]

/-- Filling an unused slot with a new key. -/
theorem Tidy.fill {t : Table κ ν cap} (h : t.Tidy) {i : Fin cap} {k : κ} (hi : ¬(t.slots i).used)
    (hk : ¬t.Live k) (v : ν) : (t.set i ⟨true, k, v⟩ (t.len + 1)).Tidy := by
  refine ⟨fun a b ha hb hkey => ?_, ?_⟩
  · by_cases hai : a = i <;> by_cases hbi : b = i
    · rw [hai, hbi]
    · rw [set_slots_ne _ hbi] at hb hkey
      rw [hai, set_slots_self] at hkey
      exact absurd ⟨b, hb, hkey.symm⟩ hk
    · rw [set_slots_ne _ hai] at ha hkey
      rw [hbi, set_slots_self] at hkey
      exact absurd ⟨a, ha, hkey⟩ hk
    · rw [set_slots_ne _ hai] at ha hkey
      rw [set_slots_ne _ hbi] at hb hkey
      exact h.unique a b ha hb hkey
  · have hnew : i ∉ t.usedSlots := by rwa [mem_usedSlots]
    rw [set_len, usedSlots_fill _ _ rfl, Finset.card_insert_of_notMem hnew, h.counted]
    rfl

/-- Freeing a used slot. -/
theorem Tidy.free {t : Table κ ν cap} (h : t.Tidy) {i : Fin cap} (hi : (t.slots i).used)
    {s : Slot κ ν} (hs : ¬s.used) : (t.set i s (t.len - 1)).Tidy := by
  refine ⟨fun a b ha hb hkey => ?_, ?_⟩
  · have hai := ne_of_used_free hs ha
    have hbi := ne_of_used_free hs hb
    rw [set_slots_ne _ hai] at ha hkey
    rw [set_slots_ne _ hbi] at hb hkey
    exact h.unique a b ha hb hkey
  · have hmem : i ∈ t.usedSlots := mem_usedSlots.mpr hi
    have hpos := Finset.card_pos.mpr ⟨i, hmem⟩
    rw [set_len, usedSlots_free _ _ hs, Finset.card_erase_of_mem hmem, h.counted]
    omega

theorem stores_fill {t : Table κ ν cap} {i : Fin cap} (hi : ¬(t.slots i).used) {k k' : κ}
    {v v' : ν} {len : Int} : (t.set i ⟨true, k, v⟩ len).Stores k' v' ↔
      t.Stores k' v' ∨ k' = k ∧ v' = v := by
  constructor
  · rintro ⟨j, hj, hkey, hval⟩
    by_cases h : j = i
    · rw [h, set_slots_self] at hkey hval
      exact Or.inr ⟨hkey.symm, hval.symm⟩
    · rw [set_slots_ne _ h] at hj hkey hval
      exact Or.inl ⟨j, hj, hkey, hval⟩
  · rintro (⟨j, hj, hkey, hval⟩ | ⟨rfl, rfl⟩)
    · have h : j ≠ i := fun h => hi (h ▸ hj)
      refine ⟨j, ?_⟩
      rw [set_slots_ne _ h]
      exact ⟨hj, hkey, hval⟩
    · refine ⟨i, ?_⟩
      rw [set_slots_self]
      exact ⟨rfl, rfl, rfl⟩

theorem stores_free {t : Table κ ν cap} (ht : t.Tidy) {i : Fin cap} (hi : (t.slots i).used)
    {s : Slot κ ν} (hs : ¬s.used) {k : κ} {v : ν} {len : Int} :
    (t.set i s len).Stores k v ↔ t.Stores k v ∧ k ≠ (t.slots i).key := by
  constructor
  · rintro ⟨j, hj, hkey, hval⟩
    have h : j ≠ i := ne_of_used_free hs hj
    rw [set_slots_ne _ h] at hj hkey hval
    exact ⟨⟨j, hj, hkey, hval⟩, fun hk => h (ht.unique j i hj hi (hkey.trans hk))⟩
  · rintro ⟨⟨j, hj, hkey, hval⟩, hk⟩
    have h : j ≠ i := by
      rintro rfl
      exact hk hkey.symm
    refine ⟨j, ?_⟩
    rw [set_slots_ne _ h]
    exact ⟨hj, hkey, hval⟩

theorem Tidy.not_live_free {t : Table κ ν cap} (ht : t.Tidy) {i : Fin cap}
    (hi : (t.slots i).used) {s : Slot κ ν} (hs : ¬s.used) {len : Int} :
    ¬(t.set i s len).Live (t.slots i).key := by
  rintro ⟨j, hj, hkey⟩
  have h : j ≠ i := ne_of_used_free hs hj
  rw [set_slots_ne _ h] at hj hkey
  exact h (ht.unique j i hj hi hkey)

theorem stores_store {t : Table κ ν cap} (ht : t.Tidy) {i : Fin cap} (hi : (t.slots i).used)
    {k : κ} {v w : ν} {len : Int} : (t.set i { t.slots i with val := w } len).Stores k v ↔
      k = (t.slots i).key ∧ v = w ∨ k ≠ (t.slots i).key ∧ t.Stores k v := by
  constructor
  · rintro ⟨j, hj, hkey, hval⟩
    by_cases h : j = i
    · rw [h, set_slots_self] at hkey hval
      exact Or.inl ⟨hkey.symm, hval.symm⟩
    · rw [set_slots_ne _ h] at hj hkey hval
      exact Or.inr ⟨fun hk => h (ht.unique j i hj hi (hkey.trans hk)), j, hj, hkey, hval⟩
  · rintro (⟨rfl, rfl⟩ | ⟨hk, j, hj, hkey, hval⟩)
    · refine ⟨i, ?_⟩
      rw [set_slots_self]
      exact ⟨hi, rfl, rfl⟩
    · have h : j ≠ i := by
        rintro rfl
        exact hk hkey.symm
      refine ⟨j, ?_⟩
      rw [set_slots_ne _ h]
      exact ⟨hj, hkey, hval⟩

end Table

namespace Scheme

variable {S : Scheme κ ν cap} {t : Table κ ν cap} {k : κ} {i j : Fin cap}

/-- No unused slot lies before a key on its path. -/
structure Sound (S : Scheme κ ν cap) (t : Table κ ν cap) : Prop extends t.Tidy where
  linked : ∀ i, (t.slots i).used → ∀ q,
    dist (S.hash (t.slots i).key) q < dist (S.hash (t.slots i).key) i → (t.slots q).used

theorem Sound.fill (h : S.Sound t) (hk : ¬t.Live k) (hj : ¬(t.slots j).used)
    (hpath : ∀ q, dist (S.hash k) q < dist (S.hash k) j → (t.slots q).used) (v : ν) :
    S.Sound (t.set j ⟨true, k, v⟩ (t.len + 1)) := by
  have hkeep : ∀ q, (t.slots q).used → ((t.set j ⟨true, k, v⟩ (t.len + 1)).slots q).used := by
    intro q hq
    have hqj : q ≠ j := by
      rintro rfl
      exact hj hq
    rwa [Table.set_slots_ne _ hqj]
  refine ⟨h.toTidy.fill hj hk v, fun i hi q hq => hkeep q ?_⟩
  by_cases hij : i = j
  · subst hij
    rw [Table.set_slots_self] at hq
    exact hpath q hq
  · rw [Table.set_slots_ne _ hij] at hi hq
    exact h.linked i hi q hq

/-- Storing through the pointer to an entry. -/
theorem Sound.store (h : S.Sound t) (hj : (t.slots j).used) (v : ν) :
    S.Sound (t.set j { t.slots j with val := v } t.len) := by
  have hslot : ∀ i, ((t.set j { t.slots j with val := v } t.len).slots i).used = (t.slots i).used
      ∧ ((t.set j { t.slots j with val := v } t.len).slots i).key = (t.slots i).key := by
    intro i
    by_cases hij : i = j
    · subst hij
      rw [Table.set_slots_self]
      exact ⟨rfl, rfl⟩
    · rw [Table.set_slots_ne _ hij]
      exact ⟨rfl, rfl⟩
  have hused : (t.set j { t.slots j with val := v } t.len).usedSlots = t.usedSlots := by
    ext i
    simp [hslot]
  refine ⟨⟨fun a b ha hb hkey => ?_, ?_⟩, fun i hi q hq => ?_⟩
  · simp only [hslot] at ha hb hkey
    exact h.unique a b ha hb hkey
  · rw [hused]
    exact h.counted
  · simp only [hslot] at hi hq ⊢
    exact h.linked i hi q hq

section Search

variable [DecidableEq κ]

/-! ### Where the probes stop -/

theorem stop_eq_some : S.stop t k = some j ↔
    ((t.slots j).used → (t.slots j).key = k) ∧
      ∀ q, dist (S.hash k) q < dist (S.hash k) j → (t.slots q).used ∧ (t.slots q).key ≠ k := by
  rw [stop, firstFrom_eq_some]
  simp [imp_iff_not_or]

theorem stop_eq_none : S.stop t k = none ↔
    ∀ j, (t.slots j).used ∧ (t.slots j).key ≠ k := by
  rw [stop, firstFrom_eq_none]
  simp

theorem Sound.stop_of_live (h : S.Sound t) (hj : (t.slots j).used) :
    S.stop t (t.slots j).key = some j := by
  refine stop_eq_some.mpr ⟨fun _ => rfl, fun q hq => ?_⟩
  have hused := h.linked j hj q hq
  refine ⟨hused, fun hkey => ?_⟩
  rw [h.unique q j hused hj hkey] at hq
  exact lt_irrefl _ hq

theorem Sound.find_eq_some (h : S.Sound t) :
    S.find t k = some j ↔ (t.slots j).used ∧ (t.slots j).key = k := by
  unfold find
  constructor
  · intro hfind
    obtain ⟨i, hstop, hi⟩ := Option.bind_eq_some_iff.mp hfind
    by_cases hused : (t.slots i).used
    · rw [if_pos hused] at hi
      obtain rfl := Option.some.inj hi
      exact ⟨hused, (stop_eq_some.mp hstop).1 hused⟩
    · rw [if_neg hused] at hi
      cases hi
  · rintro ⟨hused, rfl⟩
    rw [h.stop_of_live hused, Option.bind_some, if_pos hused]

theorem Sound.find_eq_none (h : S.Sound t) : S.find t k = none ↔ ¬t.Live k := by
  rw [Option.eq_none_iff_forall_ne_some]
  simp only [ne_eq, h.find_eq_some, Table.Live, not_exists]

theorem Sound.get_of_live (h : S.Sound t) (hj : (t.slots j).used) :
    S.get t (t.slots j).key = some (t, j, false) := by
  rw [get, h.stop_of_live hj, Option.map_some, if_pos hj]

/-- A key that is not held goes to the first unused slot on its path. -/
theorem get_of_new (hk : ¬t.Live k) (hj : ¬(t.slots j).used)
    (hpath : ∀ q, dist (S.hash k) q < dist (S.hash k) j → (t.slots q).used) :
    S.get t k = some (t.set j ⟨true, k, S.fresh⟩ (t.len + 1), j, true) := by
  have hstop : S.stop t k = some j :=
    stop_eq_some.mpr ⟨fun hu => absurd hu hj, fun q hq => ⟨hpath q hq, fun hkey =>
      hk ⟨q, hpath q hq, hkey⟩⟩⟩
  rw [get, hstop, Option.map_some, if_neg hj]

/-- While a slot is unused there is a first one on the path. -/
theorem exists_first (hk : ¬t.Live k) (hfree : ∃ i, ¬(t.slots i).used) :
    ∃ j, ¬(t.slots j).used
      ∧ ∀ q, dist (S.hash k) q < dist (S.hash k) j → (t.slots q).used := by
  cases hstop : S.stop t k with
  | none =>
      obtain ⟨i, hi⟩ := hfree
      exact absurd (stop_eq_none.mp hstop i).1 hi
  | some j =>
      obtain ⟨hkey, hpath⟩ := stop_eq_some.mp hstop
      exact ⟨j, fun hu => hk ⟨j, hu, hkey hu⟩, fun q hq => (hpath q hq).1⟩

/-- Only a table without room turns a key away. -/
theorem get_eq_none : S.get t k = none ↔ ¬t.Live k ∧ ∀ j, (t.slots j).used := by
  rw [get, Option.map_eq_none_iff, stop_eq_none]
  exact ⟨fun h => ⟨fun ⟨j, _, hkey⟩ => (h j).2 hkey, fun j => (h j).1⟩,
    fun h j => ⟨h.2 j, fun hkey => h.1 ⟨j, h.2 j, hkey⟩⟩⟩

end Search

/-! ## Deletion -/

/-- Sound but for the hole `p`: it may lie on the path of an entry, but only of one behind
`j`. -/
structure Holed (S : Scheme κ ν cap) (t : Table κ ν cap) (p j : Fin cap) : Prop
    extends t.Tidy where
  hole : ¬(t.slots p).used
  linked : ∀ i, (t.slots i).used → ∀ q,
    dist (S.hash (t.slots i).key) q < dist (S.hash (t.slots i).key) i →
      (t.slots q).used ∨ q = p ∧ dist p j < dist p i

theorem Sound.free_holed (h : S.Sound t) (hi : (t.slots i).used) : Holed S (S.free t i) i i := by
  have hunused : ¬(Slot.mk false (t.slots i).key (S.clear (t.slots i).val)).used := by simp
  refine ⟨h.toTidy.free hi hunused, ?_, fun a ha q hq => ?_⟩
  · rw [free, Table.set_slots_self]
    exact hunused
  · have hai : a ≠ i := by
      rintro rfl
      rw [free, Table.set_slots_self] at ha
      exact hunused ha
    rw [free, Table.set_slots_ne _ hai] at ha hq
    have hused := h.linked a ha q hq
    by_cases hqi : q = i
    · refine Or.inr ⟨hqi, ?_⟩
      rw [dist_self]
      exact Nat.pos_of_ne_zero fun h0 => hai (dist_eq_zero.mp h0).symm
    · rw [free, Table.set_slots_ne _ hqi]
      exact Or.inl hused

/-- At the end of the cluster the table is sound. -/
theorem Holed.sound {p : Fin cap} (h : Holed S t p j) (hend : ¬(t.slots (probeAt j 1)).used) :
    S.Sound t := by
  refine ⟨h.toTidy, fun i hi q hq => ?_⟩
  rcases h.linked i hi q hq with hused | ⟨rfl, hlt⟩
  · exact hused
  by_cases hwrap : probeAt j 1 = q
  · have hround := dist_last hwrap
    have := dist_lt q i
    omega
  -- the end of the cluster lies between the hole and the entry, so on the path of the entry
  have hnext := dist_next hwrap
  have hi' : dist q (probeAt j 1) ≠ dist q i := fun heq => hend (dist_inj heq ▸ hi)
  have hbetween := dist_between (Nat.le_of_lt hq) (show dist q (probeAt j 1) ≤ dist q i by omega)
  have hadd := dist_add (Nat.le_of_lt hq)
  rcases h.linked i hi (probeAt j 1) (by omega) with hused | ⟨heq, -⟩
  · exact absurd hused hend
  · exact absurd heq hwrap

/-- The table with the entry of slot `n` moved to slot `m`. -/
def move (S : Scheme κ ν cap) (t : Table κ ν cap) (n m : Fin cap) : Table κ ν cap :=
  (S.free t n).set m (t.slots n) t.len

/-- An entry that is put back where it was. -/
theorem move_self {n : Fin cap} : S.move t n n = t := by
  rw [move, free, Table.set_set, Table.set_slots_eq]

/-- The steps that the entries are away from the start of their paths. -/
def displacement (S : Scheme κ ν cap) (t : Table κ ν cap) : Nat :=
  ∑ i, if (t.slots i).used then dist (S.hash (t.slots i).key) i else 0

section Move

variable {p n : Fin cap}

theorem len_free : (S.free t n).len + 1 = t.len := by
  rw [free, Table.set_len, sub_add_cancel]

theorem not_used_free (hpn : p ≠ n) (hp : ¬(t.slots p).used) :
    ¬((S.free t n).slots p).used := by
  rwa [free, Table.set_slots_ne _ hpn]

theorem move_slots_ne {q : Fin cap} (hqp : q ≠ p) (hqn : q ≠ n) :
    (S.move t n p).slots q = t.slots q := by
  rw [move, Table.set_slots_ne _ hqp, free, Table.set_slots_ne _ hqn]

theorem move_slots_target : (S.move t n p).slots p = t.slots n := by
  rw [move, Table.set_slots_self]

theorem move_slots_source (hpn : p ≠ n) :
    (S.move t n p).slots n = ⟨false, (t.slots n).key, S.clear (t.slots n).val⟩ := by
  rw [move, Table.set_slots_ne _ hpn.symm, free, Table.set_slots_self]

variable (hp : ¬(t.slots p).used) (hn : (t.slots n).used)
include hp hn

/-- An entry that moves nearer to the start of its path. -/
theorem displacement_move
    (hlt : dist (S.hash (t.slots n).key) p < dist (S.hash (t.slots n).key) n) :
    S.displacement (S.move t n p) < S.displacement t := by
  have hpn : p ≠ n := Table.ne_of_used hp hn
  have hmem : n ∈ Finset.univ.erase p := Finset.mem_erase.mpr ⟨hpn.symm, Finset.mem_univ n⟩
  unfold displacement
  rw [← Finset.add_sum_erase _ _ (Finset.mem_univ p), ← Finset.add_sum_erase _ _ hmem,
    ← Finset.add_sum_erase (Finset.univ (α := Fin cap)) _ (Finset.mem_univ p),
    ← Finset.add_sum_erase (Finset.univ.erase p) _ hmem]
  have hrest : ∀ i ∈ (Finset.univ.erase p).erase n,
      (S.move t n p).slots i = t.slots i := by
    intro i hi
    obtain ⟨hin, hi⟩ := Finset.mem_erase.mp hi
    exact move_slots_ne (Finset.ne_of_mem_erase hi) hin
  rw [Finset.sum_congr rfl fun i hi => by rw [hrest i hi]]
  simp only [move_slots_target, move_slots_source hpn, hn, hp, if_true, if_false,
    Bool.false_eq_true]
  omega

/-- Moving an entry changes nothing of what is stored. -/
theorem stores_move (ht : t.Tidy) {k : κ} {v : ν} :
    (S.move t n p).Stores k v ↔ t.Stores k v := by
  have hpn : p ≠ n := Table.ne_of_used hp hn
  have hfree : ¬((S.free t n).slots p).used := not_used_free hpn hp
  rw [move, ← Table.slot_eq hn, Table.stores_fill hfree, free, Table.stores_free ht hn Bool.false_ne_true]
  constructor
  · rintro (⟨h, -⟩ | ⟨rfl, rfl⟩)
    · exact h
    · exact ⟨n, hn, rfl, rfl⟩
  · intro h
    by_cases hk : k = (t.slots n).key
    · subst hk
      exact Or.inr ⟨rfl, ht.stores_unique h ⟨n, hn, rfl, rfl⟩⟩
    · exact Or.inl ⟨h, hk⟩

theorem tidy_move (ht : t.Tidy) : (S.move t n p).Tidy := by
  have hpn : p ≠ n := Table.ne_of_used hp hn
  have hfree : ¬((S.free t n).slots p).used := not_used_free hpn hp
  have hfreed : (S.free t n).Tidy := ht.free hn Bool.false_ne_true
  have hfill := hfreed.fill hfree (ht.not_live_free hn Bool.false_ne_true) (t.slots n).val
  rwa [Table.slot_eq hn, len_free] at hfill

end Move

/-- An entry whose path the hole is on moves into it, and leaves one behind. -/
theorem Holed.move {p n : Fin cap} (h : Holed S t p j) (hn : (t.slots n).used)
    (hlt : dist (S.hash (t.slots n).key) p < dist (S.hash (t.slots n).key) n) :
    Holed S (S.move t n p) n n := by
  have hpn : p ≠ n := Table.ne_of_used h.hole hn
  refine ⟨tidy_move h.hole hn h.toTidy, ?_, fun i hi q hq => ?_⟩
  · rw [move_slots_source hpn]
    exact Bool.false_ne_true
  have hin : i ≠ n := by
    rintro rfl
    rw [move_slots_source hpn] at hi
    exact Bool.false_ne_true hi
  have hdist : dist n n < dist n i := by
    rw [dist_self]
    exact Nat.pos_of_ne_zero fun h0 => hin (dist_eq_zero.mp h0).symm
  by_cases hqn : q = n
  · exact Or.inr ⟨hqn, hdist⟩
  left
  by_cases hqp : q = p
  · rw [hqp, move_slots_target]
    exact hn
  rw [move_slots_ne hqp hqn]
  by_cases hip : i = p
  · rw [hip, move_slots_target] at hq
    exact (h.linked n hn q (hq.trans hlt)).resolve_right fun h' => hqp h'.1
  · rw [move_slots_ne hip hin] at hi hq
    exact (h.linked i hi q hq).resolve_right fun h' => hqp h'.1

section Reinsert

variable [DecidableEq κ]

/-- The entry behind `j` is put in again at the first unused slot on its path, with what it
held. -/
theorem reinsert_eq {n m : Fin cap} (hjn : probeAt j 1 = n) (ht : t.Tidy)
    (hn : (t.slots n).used) (hm : ¬((S.free t n).slots m).used)
    (hpath : ∀ q, dist (S.hash (t.slots n).key) q < dist (S.hash (t.slots n).key) m →
      ((S.free t n).slots q).used) :
    S.reinsert (t, j) = pure (.inl (S.move t n m, n)) := by
  have hnew : ¬(S.free t n).Live (t.slots n).key := ht.not_live_free hn Bool.false_ne_true
  have hget := get_of_new (S := S) hnew hm hpath
  rw [reinsert, hjn]
  simp only [hn, Bool.not_true, Bool.false_eq_true, if_false, hget]
  rw [Table.set_slots_self, Table.set_set, Table.set_len, len_free, Table.slot_eq hn]
  rfl

/-- The entry behind `j`, put in again: the cluster ends there, or it stays, or it moves into
the hole. -/
theorem reinsert_spec {p n : Fin cap} (hjn : probeAt j 1 = n) (h : Holed S t p j) :
    (¬(t.slots n).used ∧ S.reinsert (t, j) = pure (.inr t))
      ∨ (dist p n = dist p j + 1 ∧ S.reinsert (t, j) = pure (.inl (t, n)) ∧ Holed S t p n)
      ∨ (S.displacement (S.move t n p) < S.displacement t
        ∧ S.reinsert (t, j) = pure (.inl (S.move t n p, n))
        ∧ Holed S (S.move t n p) n n
        ∧ ∀ k v, (S.move t n p).Stores k v ↔ t.Stores k v) := by
  by_cases hn : (t.slots n).used
  case neg =>
    refine Or.inl ⟨hn, ?_⟩
    simp [reinsert, hjn, hn]
  right
  have hpn : p ≠ n := Table.ne_of_used h.hole hn
  have hother : ∀ {q}, q ≠ n → (S.free t n).slots q = t.slots q := fun hq => by
    rw [free, Table.set_slots_ne _ hq]
  -- the slots before `n` on the path of its entry are in use, but for the hole
  have hbefore : ∀ q, dist (S.hash (t.slots n).key) q < dist (S.hash (t.slots n).key) n →
      q ≠ p → ((S.free t n).slots q).used := by
    intro q hq hqp
    have hqn : q ≠ n := by
      rintro rfl
      exact lt_irrefl _ hq
    rw [hother hqn]
    exact (h.linked n hn q hq).resolve_right fun h' => hqp h'.1
  by_cases hp : dist (S.hash (t.slots n).key) p < dist (S.hash (t.slots n).key) n
  · right
    have hhole : ¬((S.free t n).slots p).used := by
      rw [hother hpn]
      exact h.hole
    refine ⟨displacement_move h.hole hn hp, reinsert_eq hjn h.toTidy hn hhole fun q hq => ?_,
      h.move hn hp, fun k v => stores_move h.hole hn h.toTidy⟩
    refine hbefore q (hq.trans hp) ?_
    rintro rfl
    exact lt_irrefl _ hq
  · left
    have hfreed : ¬((S.free t n).slots n).used := by
      rw [free, Table.set_slots_self]
      exact Bool.false_ne_true
    have hstays := reinsert_eq hjn h.toTidy hn hfreed fun q hq => hbefore q hq <| by
      rintro rfl
      exact hp hq
    rw [move_self] at hstays
    refine ⟨hjn ▸ dist_next (hjn ▸ hpn.symm), hstays, h.toTidy, h.hole, fun i hi q hq => ?_⟩
    rcases h.linked i hi q hq with hused | ⟨rfl, hlt⟩
    · exact Or.inl hused
    · have hin : dist q i ≠ dist q n := fun heq => by
        obtain rfl := dist_inj heq
        exact hp hq
      have hnext := dist_next (i := q) (j := j) (hjn ▸ hpn.symm)
      rw [hjn] at hnext
      exact Or.inr ⟨rfl, by omega⟩

/-- The cluster is put in again entry by entry, and nothing of what is stored changes. -/
theorem Holed.reinsert_returns {p : Fin cap} (h : Holed S t p j) :
    ∃ t', (loop S.reinsert (t, j)).Returns t' ∧ S.Sound t'
      ∧ ∀ k v, t'.Stores k v ↔ t.Stores k v := by
  -- an entry that moves lowers the displacement; one that stays takes the loop further from
  -- the hole
  generalize hd : S.displacement t = d
  induction d using Nat.strongRecOn generalizing t p j with
  | _ d ihMove =>
      generalize hc : cap - dist p j = c
      induction c using Nat.strongRecOn generalizing j with
      | _ c ihStay =>
          have hlt := dist_lt p j
          rcases reinsert_spec rfl h with ⟨hend, hstep⟩ | ⟨hnext, hstep, hholed⟩
            | ⟨hless, hstep, hholed, hstores⟩
          · refine ⟨t, loop_returns_now ?_, h.sound hend, fun _ _ => Iff.rfl⟩
            rw [hstep]
            exact returns_pure.mpr rfl
          · obtain ⟨t', hret, hsound, hsame⟩ := ihStay _ (by omega) hholed rfl
            refine ⟨t', Next.loop_returns ?_ hret, hsound, hsame⟩
            rw [Next, hstep]
            exact returns_pure.mpr rfl
          · obtain ⟨t', hret, hsound, hsame⟩ := ihMove _ (hd ▸ hless) hholed rfl
            refine ⟨t', Next.loop_returns ?_ hret, hsound, fun k v => ?_⟩
            · rw [Next, hstep]
              exact returns_pure.mpr rfl
            · rw [hsame, hstores]

/-- Deletion ends, without a fault, and takes out the key and nothing else. -/
theorem Sound.delete_returns (h : S.Sound t) (k : κ) :
    ∃ t', (S.delete t k).Returns t' ∧ S.Sound t'
      ∧ ∀ k' v, t'.Stores k' v ↔ t.Stores k' v ∧ k' ≠ k := by
  unfold delete
  cases hfind : S.find t k with
  | none =>
      have hk := h.find_eq_none.mp hfind
      refine ⟨t, returns_pure.mpr rfl, h, fun k' v => ⟨fun hs => ⟨hs, ?_⟩, And.left⟩⟩
      rintro rfl
      obtain ⟨i, hi, hkey, -⟩ := hs
      exact hk ⟨i, hi, hkey⟩
  | some i =>
      obtain ⟨hi, rfl⟩ := h.find_eq_some.mp hfind
      obtain ⟨t', hret, hsound, hsame⟩ := (h.free_holed hi).reinsert_returns
      refine ⟨t', hret, hsound, fun k' v => ?_⟩
      rw [hsame, free, Table.stores_free h.toTidy hi Bool.false_ne_true]

end Reinsert

end Scheme

end Tracep.Probing
