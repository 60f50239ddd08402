import Tracep.Lib.Probing

/-!
# Hash tables as finite maps

What a sound table holds is a finite map (`Holds`), and each operation on
the table is the operation on the map. A key is turned away only when it is
new and the map has as many keys as the table has slots
(`Holds.get_eq_none`). So a run of operations that leaves the table room
after every step gives the answers that the map gives, and holds at its end
what the map holds (`run_refines`).
-/

namespace Tracep.Probing

open Exec

variable {κ ν : Type} {cap : Nat}

/-! ## What a table holds -/

/-- The keys of a map. -/
def keys (m : κ → Option ν) : Set κ := {k | (m k).isSome}

/-- The keys with `q` that a table holds, in the order of the slots. -/
def Table.keysWhere (t : Table κ ν cap) (q : κ → Bool) : List κ :=
  ((List.finRange cap).filter fun j => (t.slots j).used && q (t.slots j).key).map fun j =>
    (t.slots j).key

/-- All slots unused. -/
def Table.empty (k : κ) (v : ν) : Table κ ν cap := ⟨fun _ => ⟨false, k, v⟩, 0⟩

namespace Scheme

/-- The table is sound and holds the map `m`. -/
structure Holds (S : Scheme κ ν cap) (t : Table κ ν cap) (m : κ → Option ν) : Prop
    extends S.Sound t where
  stores : ∀ k v, t.Stores k v ↔ m k = some v

variable {S : Scheme κ ν cap} {t : Table κ ν cap} {m : κ → Option ν} {k : κ} {v : ν}
  {j : Fin cap}

theorem holds_empty (k : κ) (v : ν) : S.Holds (.empty k v) (fun _ => none) := by
  refine ⟨⟨⟨fun i _ hi => absurd hi Bool.false_ne_true, ?_⟩,
    fun i hi => absurd hi Bool.false_ne_true⟩, fun k v => ?_⟩
  · simp [Table.empty, Table.usedSlots]
  · refine iff_of_false ?_ (Option.some_ne_none _).symm
    rintro ⟨_, hi, _⟩
    exact absurd hi Bool.false_ne_true

namespace Holds

theorem live_iff (h : S.Holds t m) : t.Live k ↔ (m k).isSome := by
  rw [Option.isSome_iff_exists]
  constructor
  · rintro ⟨j, hj, hkey⟩
    exact ⟨_, (h.stores k _).mp ⟨j, hj, hkey, rfl⟩⟩
  · rintro ⟨v, hv⟩
    obtain ⟨j, hj, hkey, -⟩ := (h.stores k v).mpr hv
    exact ⟨j, hj, hkey⟩

theorem not_live (h : S.Holds t m) (hk : m k = none) : ¬t.Live k := by
  rw [h.live_iff, hk]
  exact Bool.false_ne_true

theorem slot_of_some (h : S.Holds t m) (hk : m k = some v) :
    ∃ j, t.slots j = ⟨true, k, v⟩ := by
  obtain ⟨j, hj, rfl, rfl⟩ := (h.stores k v).mpr hk
  exact ⟨j, by rw [← hj]⟩

theorem keys_eq (h : S.Holds t m) : keys m = (fun j => (t.slots j).key) '' t.usedSlots := by
  ext k
  change (m k).isSome ↔ _
  rw [← h.live_iff]
  simp [Table.Live]

theorem keys_finite (h : S.Holds t m) : (keys m).Finite := by
  rw [h.keys_eq]
  exact t.usedSlots.finite_toSet.image _

/-- As many slots are in use as the map has keys. -/
theorem card_usedSlots (h : S.Holds t m) : t.usedSlots.card = (keys m).ncard := by
  have hinj : Set.InjOn (fun j => (t.slots j).key) t.usedSlots := fun i hi j hj hkey =>
    h.unique i j (Table.mem_usedSlots.mp hi) (Table.mem_usedSlots.mp hj) hkey
  rw [h.keys_eq, hinj.ncard_image, Set.ncard_coe_finset]

theorem len_eq (h : S.Holds t m) : t.len = (keys m).ncard := by
  rw [h.counted, h.card_usedSlots]

theorem all_used_iff (h : S.Holds t m) :
    (∀ j, (t.slots j).used) ↔ (keys m).ncard = cap := by
  rw [← h.card_usedSlots]
  constructor
  · intro hall
    have huniv : t.usedSlots = Finset.univ :=
      Finset.eq_univ_of_forall fun j => Table.mem_usedSlots.mpr (hall j)
    rw [huniv, Finset.card_univ, Fintype.card_fin]
  · intro hcard j
    have huniv : t.usedSlots = Finset.univ := by
      rw [← Finset.card_eq_iff_eq_univ, hcard, Fintype.card_fin]
    exact Table.mem_usedSlots.mp (huniv ▸ Finset.mem_univ j)

theorem keys_ncard_le (h : S.Holds t m) : (keys m).ncard ≤ cap := by
  rw [← h.card_usedSlots]
  exact (Finset.card_le_univ _).trans_eq (Fintype.card_fin cap)

theorem mem_keysWhere {q : κ → Bool} (h : S.Holds t m) :
    k ∈ t.keysWhere q ↔ (m k).isSome ∧ q k := by
  simp only [Table.keysWhere, List.mem_map, List.mem_filter, List.mem_finRange, true_and,
    Bool.and_eq_true, ← h.live_iff]
  constructor
  · rintro ⟨j, ⟨hj, hq⟩, rfl⟩
    exact ⟨⟨j, hj, rfl⟩, hq⟩
  · rintro ⟨⟨j, hj, rfl⟩, hq⟩
    exact ⟨j, ⟨hj, hq⟩, rfl⟩

theorem nodup_keysWhere {q : κ → Bool} (h : S.Holds t m) : (t.keysWhere q).Nodup := by
  refine List.Nodup.map_on ?_ ((List.nodup_finRange cap).filter _)
  intro i hi j hj hkey
  have hused : ∀ {l}, l ∈ (List.finRange cap).filter
      (fun j => (t.slots j).used && q (t.slots j).key) → (t.slots l).used := by
    intro l hl
    exact (Bool.and_eq_true _ _ |>.mp (List.mem_filter.mp hl).2).1
  exact h.unique i j (hused hi) (hused hj) hkey

/-- There are as many as the map has. -/
theorem length_keysWhere {q : κ → Bool} (h : S.Holds t m) :
    (t.keysWhere q).length = {k | (m k).isSome ∧ q k}.ncard := by
  classical
  have hset : {k | (m k).isSome ∧ q k} = ((t.keysWhere q).toFinset : Set κ) := by
    ext k
    rw [Finset.mem_coe, List.mem_toFinset, h.mem_keysWhere]
    rfl
  rw [hset, Set.ncard_coe_finset, List.toFinset_card_of_nodup h.nodup_keysWhere]

/-! ## Operations -/

/-- Storing through the pointer to an entry. -/
theorem store [DecidableEq κ] (h : S.Holds t m) (hj : (t.slots j).used) (w : ν) :
    S.Holds (t.set j { t.slots j with val := w } t.len)
      (Function.update m (t.slots j).key (some w)) := by
  refine ⟨h.toSound.store hj w, fun k v => ?_⟩
  rw [Table.stores_store h.toTidy hj, h.stores]
  by_cases hk : k = (t.slots j).key
  · rw [hk, Function.update_self]
    simp [eq_comm]
  · rw [Function.update_of_ne hk]
    simp [hk]

variable [DecidableEq κ]

theorem find_val (h : S.Holds t m) : (S.find t k).map (fun j => (t.slots j).val) = m k := by
  apply Option.ext
  intro v
  rw [Option.map_eq_some_iff, ← h.stores]
  constructor
  · rintro ⟨j, hj, rfl⟩
    obtain ⟨hused, hkey⟩ := h.find_eq_some.mp hj
    exact ⟨j, hused, hkey, rfl⟩
  · rintro ⟨j, hused, hkey, hval⟩
    exact ⟨j, h.find_eq_some.mpr ⟨hused, hkey⟩, hval⟩

theorem get_of_some (h : S.Holds t m) (hk : m k = some v) :
    ∃ j, S.get t k = some (t, j, false) ∧ t.slots j = ⟨true, k, v⟩ := by
  obtain ⟨j, hj⟩ := h.slot_of_some hk
  refine ⟨j, ?_, hj⟩
  have hget := h.get_of_live (j := j) (by rw [hj])
  rwa [hj] at hget

/-- A new key gets a fresh entry while there is room. -/
theorem get_of_none (h : S.Holds t m) (hk : m k = none) (hroom : (keys m).ncard ≠ cap) :
    ∃ t' j, S.get t k = some (t', j, true) ∧ t'.slots j = ⟨true, k, S.fresh⟩
      ∧ S.Holds t' (Function.update m k (some S.fresh)) := by
  have hnew := h.not_live hk
  have hfree : ∃ i, ¬(t.slots i).used := not_forall.mp (mt h.all_used_iff.mp hroom)
  obtain ⟨j, hj, hpath⟩ := exists_first (S := S) hnew hfree
  refine ⟨_, j, get_of_new hnew hj hpath, Table.set_slots_self .., h.fill hnew hj hpath _, ?_⟩
  intro k' v'
  rw [Table.stores_fill hj, h.stores]
  by_cases hk' : k' = k
  · rw [hk', Function.update_self, hk]
    simp [eq_comm]
  · rw [Function.update_of_ne hk']
    simp [hk']

/-- A key is turned away when it is new and every slot is in use. -/
theorem get_eq_none (h : S.Holds t m) :
    S.get t k = none ↔ m k = none ∧ (keys m).ncard = cap := by
  rw [Scheme.get_eq_none, h.live_iff, h.all_used_iff, Option.not_isSome_iff_eq_none]

/-- The entry that a lookup gives: the one of the key, or else a fresh one. -/
theorem get_cases (h : S.Holds t m) {t' : Table κ ν cap} {created : Bool}
    (hget : S.get t k = some (t', j, created)) :
    t'.slots j = ⟨true, k, (m k).getD S.fresh⟩ ∧ created = (m k).isNone
      ∧ S.Holds t' (Function.update m k (some ((m k).getD S.fresh))) := by
  cases hk : m k with
  | some v =>
      obtain ⟨i, hi, hslot⟩ := h.get_of_some hk
      obtain ⟨rfl, rfl, rfl⟩ : t = t' ∧ i = j ∧ false = created := by
        simpa using hi.symm.trans hget
      refine ⟨hslot, rfl, ?_⟩
      rw [Option.getD_some, ← hk, Function.update_eq_self]
      exact h
  | none =>
      have hroom : (keys m).ncard ≠ cap := fun hfull => by
        rw [h.get_eq_none.mpr ⟨hk, hfull⟩] at hget
        cases hget
      obtain ⟨u, i, hi, hslot, hu⟩ := h.get_of_none hk hroom
      obtain ⟨rfl, rfl, rfl⟩ : u = t' ∧ i = j ∧ true = created := by
        simpa using hi.symm.trans hget
      exact ⟨hslot, rfl, hu⟩

theorem delete (h : S.Holds t m) (k : κ) :
    ∃ t', (S.delete t k).Returns t' ∧ S.Holds t' (Function.update m k none) := by
  obtain ⟨t', hret, hsound, hstores⟩ := h.delete_returns k
  refine ⟨t', hret, hsound, fun k' v => ?_⟩
  rw [hstores, h.stores]
  by_cases hk : k' = k
  · rw [hk, Function.update_self]
    simp
  · rw [Function.update_of_ne hk]
    simp [hk]

end Holds

end Scheme

/-! ## Runs of operations -/

/-- Look a key up or create it, change the entry of a key that is held, look a key up, or
delete it. -/
inductive Op (κ ν : Type) where
  | get (k : κ)
  | update (k : κ) (f : ν → ν)
  | find (k : κ)
  | delete (k : κ)

/-- What an operation answers: an entry and whether it is new, what was found, or nothing. -/
inductive Answer (ν : Type) where
  | entry (created : Bool) (v : ν)
  | found (v : Option ν)
  | null
  | done
deriving Repr, DecidableEq

variable [DecidableEq κ]

namespace Scheme

variable (S : Scheme κ ν cap)

def apply (t : Table κ ν cap) : Op κ ν → Exec (Table κ ν cap × Answer ν)
  | .get k =>
      match S.get t k with
      | none => return (t, .null)
      | some (t', j, created) => return (t', .entry created (t'.slots j).val)
  | .update k f =>
      match S.find t k with
      | none => return (t, .done)
      | some j => return (t.set j { t.slots j with val := f (t.slots j).val } t.len, .done)
  | .find k => return (t, .found ((S.find t k).map fun j => (t.slots j).val))
  | .delete k => return (← S.delete t k, .done)

def run (t : Table κ ν cap) : List (Op κ ν) → Exec (Table κ ν cap × List (Answer ν))
  | [] => return (t, [])
  | op :: ops => do
      let (t, answer) ← S.apply t op
      let (t, answers) ← run t ops
      return (t, answer :: answers)

/-- The operation on a map. -/
def applyMap (m : κ → Option ν) : Op κ ν → (κ → Option ν) × Answer ν
  | .get k =>
      match m k with
      | some v => (m, .entry false v)
      | none => (Function.update m k (some S.fresh), .entry true S.fresh)
  | .update k f => (Function.update m k ((m k).map f), .done)
  | .find k => (m, .found (m k))
  | .delete k => (Function.update m k none, .done)

def runMap (m : κ → Option ν) : List (Op κ ν) → (κ → Option ν) × List (Answer ν)
  | [] => (m, [])
  | op :: ops =>
      let (m, answer) := S.applyMap m op
      let (m, answers) := runMap m ops
      (m, answer :: answers)

variable {S} {t : Table κ ν cap} {m : κ → Option ν}

theorem applyMap_get_of_some {k : κ} {v : ν} (hk : m k = some v) :
    S.applyMap m (.get k) = (m, .entry false v) := by
  simp [applyMap, hk]

theorem applyMap_get_of_none {k : κ} (hk : m k = none) :
    S.applyMap m (.get k) = (Function.update m k (some S.fresh), .entry true S.fresh) := by
  simp [applyMap, hk]

theorem keys_update_some {k : κ} {v : ν} :
    keys (Function.update m k (some v)) = insert k (keys m) := by
  ext k'
  by_cases hk : k' = k
  · simp [keys, hk]
  · simp [keys, hk]

/-- An operation after which there is room answers as it does on the map. -/
theorem Holds.apply (h : S.Holds t m) (op : Op κ ν)
    (hroom : (keys (S.applyMap m op).1).ncard < cap) :
    ∃ t', (S.apply t op).Returns (t', (S.applyMap m op).2) ∧ S.Holds t' (S.applyMap m op).1 := by
  cases op with
  | get k =>
      cases hk : m k with
      | some v =>
          obtain ⟨j, hget, hslot⟩ := h.get_of_some hk
          simp only [Scheme.apply, applyMap_get_of_some hk, hget, hslot]
          exact ⟨t, returns_pure.mpr rfl, h⟩
      | none =>
          have hfull : (keys m).ncard ≠ cap := by
            rw [applyMap_get_of_none hk, keys_update_some] at hroom
            have := Set.ncard_le_ncard (Set.subset_insert k (keys m)) (h.keys_finite.insert k)
            omega
          obtain ⟨t', j, hget, hslot, h'⟩ := h.get_of_none hk hfull
          simp only [Scheme.apply, applyMap_get_of_none hk, hget, hslot]
          exact ⟨t', returns_pure.mpr rfl, h'⟩
  | update k f =>
      have hval := h.find_val (k := k)
      cases hfind : S.find t k with
      | none =>
          rw [hfind, Option.map_none] at hval
          have hsame : Function.update m k ((m k).map f) = m := by
            rw [← hval, Option.map_none, hval, Function.update_eq_self]
          simp only [Scheme.apply, applyMap, hfind, hsame]
          exact ⟨t, returns_pure.mpr rfl, h⟩
      | some j =>
          obtain ⟨hj, rfl⟩ := h.find_eq_some.mp hfind
          rw [hfind, Option.map_some] at hval
          simp only [Scheme.apply, applyMap, hfind, ← hval, Option.map_some]
          exact ⟨_, returns_pure.mpr rfl, h.store hj _⟩
  | find k => exact ⟨t, by rw [Scheme.apply, h.find_val]; exact returns_pure.mpr rfl, h⟩
  | delete k =>
      obtain ⟨t', hret, h'⟩ := h.delete k
      exact ⟨t', hret.bind_iff.mpr (returns_pure.mpr rfl), h'⟩

/-- Only a lookup that creates adds a key. -/
theorem keys_runMap_subset (m : κ → Option ν) (ops : List (Op κ ν)) :
    keys (S.runMap m ops).1 ⊆ keys m ∪ {k | .get k ∈ ops} := by
  induction ops generalizing m with
  | nil => exact Set.subset_union_left
  | cons op ops ih =>
      have hop : keys (S.applyMap m op).1 ⊆ keys m ∪ {k | .get k = op} := by
        intro k' hk'
        cases op with
        | get k =>
            cases hk : m k with
            | some v =>
                rw [applyMap_get_of_some hk] at hk'
                exact Or.inl hk'
            | none =>
                rw [applyMap_get_of_none hk, keys_update_some] at hk'
                exact hk'.elim (fun h => Or.inr (congrArg Op.get h)) Or.inl
        | update k f =>
            by_cases h : k' = k
            · subst h
              simpa [keys, applyMap] using hk'
            · simpa [keys, applyMap, h] using hk'
        | find k => exact Or.inl hk'
        | delete k =>
            by_cases h : k' = k
            · subst h
              simp [keys, applyMap] at hk'
            · simpa [keys, applyMap, h] using hk'
      intro k hk
      rcases ih _ hk with h | h
      · exact (hop h).imp id fun h => List.mem_cons.mpr (Or.inl h)
      · exact Or.inr (List.mem_cons_of_mem _ h)

/-- A run of operations with room after each of them gives the answers of the map. -/
theorem Holds.run (h : S.Holds t m) (ops : List (Op κ ν))
    (hroom : ∀ pre, pre <+: ops → (keys (S.runMap m pre).1).ncard < cap) :
    ∃ t', (S.run t ops).Returns (t', (S.runMap m ops).2) ∧ S.Holds t' (S.runMap m ops).1 := by
  induction ops generalizing t m with
  | nil => exact ⟨t, returns_pure.mpr rfl, h⟩
  | cons op ops ih =>
      obtain ⟨t₁, hret, h₁⟩ := h.apply op (hroom [op] ⟨ops, rfl⟩)
      obtain ⟨t₂, hret', h₂⟩ := ih h₁ fun pre hpre =>
        hroom (op :: pre) (List.cons_prefix_cons.mpr ⟨rfl, hpre⟩)
      refine ⟨t₂, ?_, h₂⟩
      rw [Scheme.run, hret.bind_iff, hret'.bind_iff]
      exact returns_pure.mpr rfl

end Scheme

end Tracep.Probing
