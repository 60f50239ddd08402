import Mathlib.Data.List.AList

/-!
# Stores

What a program needs of a table of values by key: to look one up, to put one
in and to take one out, each with its effect on every later look-up
(`Store`). A program that is written for any store has its properties from
these laws, whatever the table is made of: a map (`Store.map`), or an array
of chains that a hash selects from (`Store.chained`).
-/

namespace Tracep

/-- A kind of table `δ` of values by key. -/
structure Store (κ ν δ : Type) [DecidableEq κ] where
  empty : δ
  get : δ → κ → Option ν
  put : δ → κ → ν → δ
  delete : δ → κ → δ
  get_empty : ∀ k, get empty k = none
  get_put : ∀ d k v k', get (put d k v) k' = if k' = k then some v else get d k'
  get_delete : ∀ d k k', get (delete d k) k' = if k' = k then none else get d k'

namespace Store

variable {κ ν : Type} [DecidableEq κ]

/-! ## Maps -/

theorem update_apply (d : κ → Option ν) (k : κ) (v : Option ν) (k' : κ) :
    Function.update d k v k' = if k' = k then v else d k' := Function.update_apply d k v k'

/-- A map is a store. -/
def map : Store κ ν (κ → Option ν) where
  empty := fun _ => none
  get d k := d k
  put d k v := Function.update d k (some v)
  delete d k := Function.update d k none
  get_empty _ := rfl
  get_put d k v k' := update_apply d k (some v) k'
  get_delete d k k' := update_apply d k none k'

/-! ## Deleting from a map -/

section Erases

variable {m : AList fun _ : κ => ν} {k : κ}

theorem lookup_erases {es : List (Sigma fun _ : κ => ν)} :
    (es.foldl (fun m e => m.erase e.1) m).lookup k =
      if k ∈ es.map Sigma.fst then none else m.lookup k := by
  induction es generalizing m with
  | nil => rfl
  | cons e es ih =>
      rw [List.foldl_cons, ih, List.map_cons]
      by_cases hrest : k ∈ es.map Sigma.fst
      · rw [if_pos hrest, if_pos (List.mem_cons_of_mem _ hrest)]
      · rw [if_neg hrest]
        by_cases hk : k = e.1
        · rw [hk, AList.lookup_erase, if_pos List.mem_cons_self]
        · rw [AList.lookup_erase_ne hk, if_neg]
          intro hmem
          exact (List.mem_cons.mp hmem).elim hk hrest

/-- Every entry of some kind is deleted; the others stay. -/
theorem lookup_erases_filter (kind : (Sigma fun _ : κ => ν) → Bool) :
    ((m.entries.filter kind).foldl (fun m e => m.erase e.1) m).lookup k =
      (m.lookup k).filter fun v => !kind ⟨k, v⟩ := by
  have hkeys : k ∈ (m.entries.filter kind).map Sigma.fst ↔
      ∃ v, m.lookup k = some v ∧ kind ⟨k, v⟩ = true := by
    rw [List.mem_map]
    constructor
    · rintro ⟨⟨k, v⟩, he, rfl⟩
      obtain ⟨hin, hkind⟩ := List.mem_filter.mp he
      exact ⟨v, AList.mem_lookup_iff.mpr hin, hkind⟩
    · rintro ⟨v, hv, hkind⟩
      exact ⟨⟨k, v⟩, List.mem_filter.mpr ⟨AList.mem_lookup_iff.mp hv, hkind⟩, rfl⟩
  rw [lookup_erases]
  cases hv : m.lookup k with
  | none => exact ite_self none
  | some v =>
      rw [Option.filter_some]
      by_cases hkind : kind ⟨k, v⟩ = true
      · rw [if_pos (hkeys.mpr ⟨v, hv, hkind⟩), hkind]
        rfl
      · rw [if_neg, if_pos ((Bool.not_eq_true' _).mpr (Bool.eq_false_iff.mpr hkind))]
        intro hmem
        obtain ⟨w, hw, hkind'⟩ := hkeys.mp hmem
        cases hv.symm.trans hw
        exact hkind hkind'

end Erases

/-! ## Chains -/

/-- An array of chains. No chain repeats a key. -/
abbrev Chains (κ ν : Type) := Nat → AList fun _ : κ => ν

/-- Store at the end of the chain walk: in place if the key was found, else in front. -/
def putChain (chain : AList fun _ : κ => ν) (k : κ) (v : ν) : AList fun _ : κ => ν :=
  if k ∈ chain then chain.replace k v else chain.insert k v

theorem dlookup_cons_of_ne {k a : κ} {b : ν} {l : List (Sigma fun _ : κ => ν)} (hk : k ≠ a) :
    List.dlookup k (⟨a, b⟩ :: l) = l.dlookup k :=
  List.dlookup_cons_ne (β := fun _ => ν) l ⟨a, b⟩ hk

theorem dlookup_kreplace (k k' : κ) (v : ν) (l : List (Sigma fun _ : κ => ν)) :
    (List.kreplace k v l).dlookup k'
      = if k' = k then (l.dlookup k).map fun _ => v else l.dlookup k' := by
  induction l with
  | nil => exact (ite_self none).symm
  | cons e l ih =>
      obtain ⟨a, b⟩ := e
      by_cases ha : k = a
      · subst ha
        have hcons : List.kreplace k v (⟨k, b⟩ :: l) = ⟨k, v⟩ :: l :=
          List.lookmap_cons_some _ l (if_pos rfl)
        rw [hcons, List.dlookup_cons_eq]
        by_cases hk : k' = k
        · subst hk
          rw [if_pos rfl, List.dlookup_cons_eq, Option.map_some]
        · rw [if_neg hk, dlookup_cons_of_ne hk, dlookup_cons_of_ne hk]
      · have hcons : List.kreplace k v (⟨a, b⟩ :: l) = ⟨a, b⟩ :: List.kreplace k v l :=
          List.lookmap_cons_none _ l (if_neg ha)
        rw [hcons, dlookup_cons_of_ne ha]
        by_cases hk : k' = a
        · subst hk
          rw [if_neg (Ne.symm ha), List.dlookup_cons_eq, List.dlookup_cons_eq]
        · rw [dlookup_cons_of_ne hk, ih, dlookup_cons_of_ne hk]

theorem lookup_putChain (chain : AList fun _ : κ => ν) (k : κ) (v : ν) (k' : κ) :
    (putChain chain k v).lookup k' = if k' = k then some v else chain.lookup k' := by
  unfold putChain
  by_cases hmem : k ∈ chain
  · obtain ⟨w, hw⟩ := Option.isSome_iff_exists.mp (AList.lookup_isSome.mpr hmem)
    rw [if_pos hmem]
    refine (dlookup_kreplace k k' v chain.entries).trans ?_
    rw [show chain.entries.dlookup k = some w from hw]
    rfl
  · rw [if_neg hmem]
    by_cases hk : k' = k
    · rw [hk, if_pos rfl, AList.lookup_insert]
    · rw [if_neg hk, AList.lookup_insert_ne hk]

theorem lookup_erase_chain (chain : AList fun _ : κ => ν) (k k' : κ) :
    (chain.erase k).lookup k' = if k' = k then none else chain.lookup k' := by
  by_cases hk : k' = k
  · rw [hk, if_pos rfl, AList.lookup_erase]
  · rw [if_neg hk, AList.lookup_erase_ne hk]

variable (bucket : κ → Nat)

theorem get_update_chain (d : Chains κ ν) (k k' : κ) (chain : AList fun _ : κ => ν)
    (v : Option ν) (hchain : ∀ a, chain.lookup a = if a = k then v else (d (bucket k)).lookup a) :
    (Function.update d (bucket k) chain (bucket k')).lookup k'
      = if k' = k then v else (d (bucket k')).lookup k' := by
  by_cases hb : bucket k' = bucket k
  · rw [hb, Function.update_self, hchain]
  · rw [Function.update_of_ne hb, if_neg fun hk => hb (congrArg bucket hk)]

theorem get_put_chain (d : Chains κ ν) (k : κ) (v : ν) (k' : κ) :
    (Function.update d (bucket k) (putChain (d (bucket k)) k v) (bucket k')).lookup k'
      = if k' = k then some v else (d (bucket k')).lookup k' :=
  get_update_chain bucket d k k' _ (some v) (lookup_putChain (d (bucket k)) k v)

theorem get_delete_chain (d : Chains κ ν) (k k' : κ) :
    (Function.update d (bucket k) ((d (bucket k)).erase k) (bucket k')).lookup k'
      = if k' = k then none else (d (bucket k')).lookup k' :=
  get_update_chain bucket d k k' _ none (lookup_erase_chain (d (bucket k)) k)

/-- Chains are a store, whatever the hash. -/
def chained : Store κ ν (Chains κ ν) where
  empty := fun _ => ∅
  get d k := (d (bucket k)).lookup k
  put d k v := Function.update d (bucket k) (putChain (d (bucket k)) k v)
  delete d k := Function.update d (bucket k) ((d (bucket k)).erase k)
  get_empty _ := rfl
  get_put := get_put_chain bucket
  get_delete := get_delete_chain bucket

end Store

end Tracep
