import Mathlib.Data.Fintype.Card
import Mathlib.Data.Set.Card
import Mathlib.Data.List.FinRange
import Mathlib.Logic.Function.Basic

/-!
# Caches with a fixed number of slots

A key has one slot at most. A new one takes the first free slot, and where
there is none it takes the place of another. So what the cache gives for a key
is the value put last, or nothing (`Caches`), and it is that value while there
has been room for every key (`Holds`).
-/

namespace Tracep.SlotCache

variable {κ ν : Type} {cap : Nat}

/-- A slot has a key and a value, or is free. -/
abbrev Cache (κ ν : Type) (cap : Nat) := Fin cap → Option (κ × ν)

def empty : Cache κ ν cap := fun _ => none

section Code

variable [DecidableEq κ] (place : κ → Fin cap) (c : Cache κ ν cap) (k : κ)

/-- The first slot of a key. -/
def find : Option (Fin cap) := (List.finRange cap).find? fun i => (c i).any fun e => e.1 = k

def firstFree : Option (Fin cap) := (List.finRange cap).find? fun i => (c i).isNone

/-- The slot for a key: its own, or a free one, or the one of its place. -/
def slotFor : Fin cap := (find c k).getD ((firstFree c).getD (place k))

def put (v : ν) : Cache κ ν cap := Function.update c (slotFor place c k) (some (k, v))

def get : Option ν := (find c k).bind fun i => (c i).map Prod.snd

end Code

/-- No key has two slots. -/
def Tidy (c : Cache κ ν cap) : Prop :=
  ∀ i j k v w, c i = some (k, v) → c j = some (k, w) → i = j

/-- What the cache has for a key is what the map has. -/
structure Caches (c : Cache κ ν cap) (m : κ → Option ν) : Prop where
  tidy : Tidy c
  sound : ∀ i k v, c i = some (k, v) → m k = some v

/-- The cache has all that the map has. -/
structure Holds (c : Cache κ ν cap) (m : κ → Option ν) : Prop extends Caches c m where
  complete : ∀ k v, m k = some v → ∃ i, c i = some (k, v)

variable [DecidableEq κ] {place : κ → Fin cap} {c : Cache κ ν cap} {m : κ → Option ν} {k l : κ}
  {v w : ν} {i j : Fin cap}

/-! ## Slots -/

theorem find_some (h : find c k = some i) : ∃ v, c i = some (k, v) := by
  have hkey := List.find?_some h
  cases hslot : c i with
  | none =>
      rw [hslot] at hkey
      cases hkey
  | some e =>
      rw [hslot, Option.any_some, decide_eq_true_eq] at hkey
      exact ⟨e.2, congrArg (fun l => some (l, e.2)) hkey⟩

theorem find_none (h : find c k = none) : c i ≠ some (k, v) := by
  intro hslot
  have hnot := List.find?_eq_none.mp h i (List.mem_finRange i)
  rw [hslot] at hnot
  exact hnot (decide_eq_true rfl)

omit [DecidableEq κ] in
theorem firstFree_some (h : firstFree c = some i) : c i = none := by
  have hfree := List.find?_some h
  exact Option.isNone_iff_eq_none.mp hfree

omit [DecidableEq κ] in
theorem firstFree_none (h : firstFree c = none) : c i ≠ none := by
  intro hfree
  exact List.find?_eq_none.mp h i (List.mem_finRange i) (Option.isNone_iff_eq_none.mpr hfree)

/-- The slot of a key is found. -/
theorem Tidy.find (h : Tidy c) (hslot : c i = some (k, v)) : find c k = some i := by
  cases hfind : SlotCache.find c k with
  | none => exact absurd hslot (find_none hfind)
  | some j =>
      obtain ⟨w, hj⟩ := find_some hfind
      rw [h j i k w v hj hslot]

theorem Tidy.get_eq_some (h : Tidy c) : get c k = some v ↔ ∃ i, c i = some (k, v) := by
  constructor
  · intro hget
    obtain ⟨i, hfind, hval⟩ := Option.bind_eq_some_iff.mp hget
    obtain ⟨w, hslot⟩ := find_some hfind
    rw [hslot] at hval
    exact ⟨i, hslot.trans (congrArg (fun v => some (k, v)) (Option.some.inj hval))⟩
  · rintro ⟨i, hslot⟩
    rw [get, h.find hslot, Option.bind_some, hslot]
    rfl

/-- No slot but the one it is put into has the key. -/
theorem Tidy.slotFor_of_mem (h : Tidy c) (hslot : c i = some (k, v)) : slotFor place c k = i := by
  rw [slotFor, h.find hslot, Option.getD_some]

theorem Tidy.put (h : Tidy c) : Tidy (put place c k v) := by
  have hother : ∀ {i l w}, SlotCache.put place c k v i = some (l, w) → i ≠ slotFor place c k →
      c i = some (l, w) ∧ l ≠ k := by
    intro i l w hslot hi
    rw [SlotCache.put, Function.update_of_ne hi] at hslot
    refine ⟨hslot, ?_⟩
    rintro rfl
    exact hi (h.slotFor_of_mem hslot).symm
  have hself : ∀ {i l w}, SlotCache.put place c k v i = some (l, w) → i = slotFor place c k →
      l = k := by
    rintro i l w hslot rfl
    rw [SlotCache.put, Function.update_self] at hslot
    exact (Prod.mk.inj (Option.some.inj hslot)).1.symm
  intro i j l w w' hi hj
  by_cases hik : i = slotFor place c k
  · by_cases hjk : j = slotFor place c k
    · rw [hik, hjk]
    · exact absurd (hself hi hik) (hother hj hjk).2
  · by_cases hjk : j = slotFor place c k
    · exact absurd (hself hj hjk) (hother hi hik).2
    · exact h i j l w w' (hother hi hik).1 (hother hj hjk).1

/-! ## Caches of maps -/

omit [DecidableEq κ] in
theorem holds_empty : Holds (empty : Cache κ ν cap) fun _ => none :=
  ⟨⟨fun _ _ _ _ _ hi => absurd hi.symm (Option.some_ne_none _),
    fun _ _ _ hi => absurd hi.symm (Option.some_ne_none _)⟩,
    fun _ _ hv => absurd hv.symm (Option.some_ne_none _)⟩

/-- What the cache gives is what the map has, or nothing. -/
theorem Caches.get (h : Caches c m) : get c k = none ∨ get c k = m k := by
  cases hget : SlotCache.get c k with
  | none => exact Or.inl rfl
  | some v =>
      obtain ⟨i, hslot⟩ := h.tidy.get_eq_some.mp hget
      exact Or.inr (h.sound i k v hslot).symm

theorem Caches.put (h : Caches c m) : Caches (put place c k v) (Function.update m k (some v)) := by
  refine ⟨h.tidy.put, fun i l w hslot => ?_⟩
  by_cases hi : i = slotFor place c k
  · rw [hi, SlotCache.put, Function.update_self] at hslot
    obtain ⟨rfl, rfl⟩ := Prod.mk.inj (Option.some.inj hslot)
    exact Function.update_self ..
  · rw [SlotCache.put, Function.update_of_ne hi] at hslot
    have hl : l ≠ k := by
      rintro rfl
      exact hi (h.tidy.slotFor_of_mem hslot).symm
    rw [Function.update_of_ne hl]
    exact h.sound i l w hslot

theorem Holds.get (h : Holds c m) : get c k = m k := by
  refine Option.ext fun v => ?_
  rw [h.tidy.get_eq_some]
  exact ⟨fun ⟨i, hslot⟩ => h.sound i k v hslot, h.complete k v⟩

/-! ## Room -/

/-- Nothing is lost where the key has a slot or there is a free one. -/
theorem Holds.put (h : Holds c m) (hroom : m k = none → ∃ i, c i = none) :
    Holds (put place c k v) (Function.update m k (some v)) := by
  refine ⟨h.toCaches.put, fun l w hl => ?_⟩
  by_cases hlk : l = k
  · rw [hlk, Function.update_self, Option.some_inj] at hl
    rw [hlk, ← hl]
    exact ⟨slotFor place c k, Function.update_self ..⟩
  · rw [Function.update_of_ne hlk] at hl
    obtain ⟨i, hslot⟩ := h.complete l w hl
    refine ⟨i, ?_⟩
    have hi : i ≠ slotFor place c k := by
      rintro rfl
      rw [slotFor] at hslot
      cases hfind : find c k with
      | some j =>
          obtain ⟨w', hj⟩ := find_some hfind
          rw [hfind, Option.getD_some, hj] at hslot
          exact hlk (Prod.mk.inj (Option.some.inj hslot)).1.symm
      | none =>
          have hnew : m k = none := by
            by_contra hsome
            obtain ⟨w', hw'⟩ := Option.ne_none_iff_exists'.mp hsome
            obtain ⟨j, hj⟩ := h.complete k w' hw'
            exact find_none hfind hj
          obtain ⟨j, hj⟩ := hroom hnew
          cases hfree : firstFree c with
          | none => exact absurd hj (firstFree_none hfree)
          | some j' =>
              rw [hfind, hfree, Option.getD_none, Option.getD_some, firstFree_some hfree] at hslot
              cases hslot
    rw [SlotCache.put, Function.update_of_ne hi]
    exact hslot

omit [DecidableEq κ] in
/-- There is a free slot as long as there are fewer keys than slots. -/
theorem Holds.exists_free {s : Finset κ} (h : Holds c m) (hs : ∀ k, m k ≠ none → k ∈ s)
    (hcard : s.card < cap) : ∃ i, c i = none := by
  by_contra hall
  have hsome : ∀ i, ∃ e, c i = some e := by
    intro i
    exact Option.ne_none_iff_exists'.mp fun hi => hall ⟨i, hi⟩
  choose e he using hsome
  have hinj : Function.Injective fun i => (e i).1 := by
    intro i j hij
    have hij : (e i).1 = (e j).1 := hij
    exact h.tidy i j (e i).1 (e i).2 (e j).2 (he i) (hij ▸ he j)
  have hmaps : ∀ i ∈ Finset.univ, (e i).1 ∈ s := by
    intro i _
    refine hs _ ?_
    rw [h.sound i (e i).1 (e i).2 (he i)]
    exact Option.some_ne_none _
  have hle := Finset.card_le_card_of_injOn _ hmaps hinj.injOn
  rw [Finset.card_univ, Fintype.card_fin] at hle
  omega

/-! ## Puts in turn -/

def puts (place : κ → Fin cap) (c : Cache κ ν cap) (es : List (κ × ν)) : Cache κ ν cap :=
  es.foldl (fun c e => put place c e.1 e.2) c

/-- The value put last for each key. -/
def latest (m : κ → Option ν) (es : List (κ × ν)) : κ → Option ν :=
  es.foldl (fun m e => Function.update m e.1 (some e.2)) m

variable {es : List (κ × ν)}

theorem mem_of_latest (h : latest m es k = some v) : m k = some v ∨ (k, v) ∈ es := by
  induction es generalizing m with
  | nil => exact Or.inl h
  | cons e es ih =>
      rcases ih h with hm | hmem
      · have hm : Function.update m e.1 (some e.2) k = some v := hm
        by_cases hk : k = e.1
        · rw [hk, Function.update_self, Option.some_inj] at hm
          refine Or.inr (List.mem_cons.mpr (Or.inl ?_))
          rw [hk, ← hm]
        · rw [Function.update_of_ne hk] at hm
          exact Or.inl hm
      · exact Or.inr (List.mem_cons_of_mem e hmem)

theorem Caches.puts (h : Caches c m) : Caches (puts place c es) (latest m es) := by
  induction es generalizing c m with
  | nil => exact h
  | cons e es ih => exact ih h.put

/-- A cache with a slot for every key loses none. -/
theorem Holds.puts {s : Finset κ} (h : Holds c m) (hm : ∀ k, m k ≠ none → k ∈ s)
    (hes : ∀ e ∈ es, e.1 ∈ s) (hcard : s.card ≤ cap) :
    Holds (puts place c es) (latest m es) := by
  induction es generalizing c m with
  | nil => exact h
  | cons e es ih =>
      obtain ⟨he, hes⟩ := List.forall_mem_cons.mp hes
      refine ih (h.put fun hnew => ?_) (fun k hk => ?_) hes
      · have hfewer : (s.erase e.1).card < cap := by
          rw [Finset.card_erase_of_mem he]
          have := Finset.card_pos.mpr ⟨e.1, he⟩
          omega
        refine h.exists_free (fun k hk => ?_) hfewer
        refine Finset.mem_erase.mpr ⟨?_, hm k hk⟩
        rintro rfl
        exact hk hnew
      · by_cases hke : k = e.1
        · rw [hke]
          exact he
        · have hold : Function.update m e.1 (some e.2) k = m k := Function.update_of_ne hke ..
          exact hm k fun hnone => hk (hold.trans hnone)

end Tracep.SlotCache
