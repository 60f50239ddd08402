import Tracep.Lib.ProbingMap
import Tracep.Lib.Fresh

/-!
# Hash tables as bounded sets

A table whose entries hold nothing but their keys is a set that keys are only
put into. While there is room it is the set of all keys it was given. A key
that finds no room is answered as one of those held, or as a new one
(`HoldsSet.mark_held`, `HoldsSet.mark`).
-/

namespace Tracep.Probing.Scheme

variable {κ : Type} [DecidableEq κ] {cap : Nat}

/-- Whether the key is in the table, which it is put into otherwise. Where there is no room for it
it is new again. -/
def mark (S : Scheme κ Unit cap) (again : Bool) (t : Table κ Unit cap) (k : κ) :
    Table κ Unit cap × Bool :=
  match S.get t k with
  | none => (t, !again)
  | some (t, _, created) => (t, !created)

/-- The table holds the keys of the set. -/
def HoldsSet (S : Scheme κ Unit cap) (t : Table κ Unit cap) (held : Finset κ) : Prop :=
  S.Holds t fun k => if k ∈ held then some () else none

variable {S : Scheme κ Unit cap} {t : Table κ Unit cap} {held : Finset κ} {k : κ} {again : Bool}

theorem holdsSet_empty (k : κ) : S.HoldsSet (.empty k ()) ∅ := holds_empty k ()

theorem keys_ite : keys (fun k => if k ∈ held then some () else none) = (held : Set κ) := by
  ext k
  change Option.isSome (if k ∈ held then some () else none) = true ↔ k ∈ held
  split
  · next hk => exact iff_of_true rfl hk
  · next hk => exact iff_of_false Bool.false_ne_true hk

theorem update_ite : Function.update (fun k => if k ∈ held then some () else none) k (some ()) =
    fun l => if l ∈ insert k held then some () else none := by
  funext l
  by_cases hl : l = k
  · rw [hl, Function.update_self, if_pos (Finset.mem_insert_self k held)]
  · rw [Function.update_of_ne hl]
    simp only [Finset.mem_insert, hl, false_or]

namespace HoldsSet

theorem card_le (h : S.HoldsSet t held) : held.card ≤ cap := by
  have hle := Holds.keys_ncard_le h
  rwa [keys_ite, Set.ncard_coe_finset] at hle

theorem get_of_mem (h : S.HoldsSet t held) (hk : k ∈ held) :
    ∃ j, S.get t k = some (t, j, false) := by
  obtain ⟨j, hget, -⟩ := Holds.get_of_some h (if_pos hk)
  exact ⟨j, hget⟩

theorem get_of_room (h : S.HoldsSet t held) (hk : k ∉ held) (hroom : held.card < cap) :
    ∃ t' j, S.get t k = some (t', j, true) ∧ S.HoldsSet t' (insert k held) := by
  have hcard : (keys fun k => if k ∈ held then some () else none).ncard ≠ cap := by
    rw [keys_ite, Set.ncard_coe_finset]
    exact hroom.ne
  obtain ⟨t', j, hget, -, hholds⟩ := Holds.get_of_none h (if_neg hk) hcard
  refine ⟨t', j, hget, ?_⟩
  rwa [update_ite] at hholds

theorem get_of_full (h : S.HoldsSet t held) (hk : k ∉ held) (hfull : ¬held.card < cap) :
    S.get t k = none := by
  refine (Holds.get_eq_none h).mpr ⟨if_neg hk, ?_⟩
  rw [keys_ite, Set.ncard_coe_finset]
  exact h.card_le.antisymm (Nat.not_lt.mp hfull)

/-- What the table holds after a key. -/
theorem mark_held (h : S.HoldsSet t held) : S.HoldsSet (S.mark again t k).1 (hold cap held k) := by
  unfold mark
  by_cases hk : k ∈ held
  · obtain ⟨j, hget⟩ := h.get_of_mem hk
    rw [hget, hold_of_mem hk]
    exact h
  · by_cases hroom : held.card < cap
    · obtain ⟨t', j, hget, hholds⟩ := h.get_of_room hk hroom
      rw [hget, hold, if_pos hroom]
      exact hholds
    · rw [h.get_of_full hk hroom, hold, if_neg hroom]
      exact h

/-- Which keys are new. -/
theorem mark (h : S.HoldsSet t held) :
    (S.mark again t k).2 = false ↔ k ∉ held ∧ (held.card < cap ∨ again) := by
  unfold Scheme.mark
  by_cases hk : k ∈ held
  · obtain ⟨j, hget⟩ := h.get_of_mem hk
    rw [hget]
    exact iff_of_false Bool.noConfusion fun hnew => hnew.1 hk
  · by_cases hroom : held.card < cap
    · obtain ⟨t', j, hget, -⟩ := h.get_of_room hk hroom
      rw [hget]
      exact iff_of_true rfl ⟨hk, Or.inl hroom⟩
    · rw [h.get_of_full hk hroom]
      cases again with
      | false =>
          refine iff_of_false Bool.noConfusion ?_
          rintro ⟨-, hnew⟩
          exact hnew.elim hroom Bool.false_ne_true
      | true => exact iff_of_true rfl ⟨hk, Or.inr rfl⟩

end HoldsSet

end Tracep.Probing.Scheme
