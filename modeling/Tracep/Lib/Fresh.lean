import Mathlib.Data.Finset.Card
import Mathlib.Data.Finset.Dedup
import Mathlib.Data.List.Nodup

/-!
# Items seen for the first time

Of a list of items that have keys, `fresh` takes the first of each key that
is not known, and what is known afterwards is `noted`. Over several lists in
turn that is to report every key once, where it first appears (`ReportsNew`,
`reportsNew_rounds`).

A set with room for so many keys does as well until it is full. Then it
passes over what it does not hold, or takes it for new each time
(`freshWithin`). If it passes over, what is new is reported exactly where
nothing is new or all keys fit (`reportsNew_within_iff`).
-/

namespace Tracep

variable {α κ : Type} [DecidableEq κ] (key : α → κ) {seen held : Finset κ} {a : α}
  {as bs : List α} {k : κ}

/-! ## A set without a bound -/

/-- What is known after the items. -/
def noted (seen : Finset κ) (as : List α) : Finset κ := seen ∪ (as.map key).toFinset

/-- The first item of each key that is not known. -/
def fresh : Finset κ → List α → List α
  | _, [] => []
  | seen, a :: as =>
      if key a ∈ seen then fresh seen as else a :: fresh (insert (key a) seen) as

variable {key}

theorem mem_noted : k ∈ noted key seen as ↔ k ∈ seen ∨ k ∈ as.map key := by
  rw [noted, Finset.mem_union, List.mem_toFinset]

theorem noted_nil : noted key seen [] = seen := Finset.union_empty seen

theorem noted_cons : noted key seen (a :: as) = noted key (insert (key a) seen) as := by
  ext k
  rw [mem_noted, mem_noted, Finset.mem_insert, List.map_cons, List.mem_cons, or_assoc, or_left_comm]

theorem noted_append : noted key seen (as ++ bs) = noted key (noted key seen as) bs := by
  ext k
  rw [mem_noted, mem_noted, mem_noted, List.map_append, List.mem_append, or_assoc]

theorem fresh_known (h : key a ∈ seen) : fresh key seen (a :: as) = fresh key seen as := if_pos h

theorem fresh_new (h : key a ∉ seen) :
    fresh key seen (a :: as) = a :: fresh key (insert (key a) seen) as := if_neg h

theorem mem_keys_fresh : k ∈ (fresh key seen as).map key ↔ k ∈ as.map key ∧ k ∉ seen := by
  induction as generalizing seen with
  | nil => exact iff_of_false List.not_mem_nil fun h => List.not_mem_nil h.1
  | cons a as ih =>
      rw [List.map_cons, List.mem_cons]
      by_cases h : key a ∈ seen
      · rw [fresh_known h, ih]
        refine and_congr_left fun hk => (or_iff_right ?_).symm
        exact fun heq => hk (heq ▸ h)
      · rw [fresh_new h, List.map_cons, List.mem_cons, ih, Finset.mem_insert, not_or, or_and_right]
        by_cases hk : k = key a
        · rw [hk]
          exact iff_of_true (Or.inl rfl) (Or.inl ⟨rfl, h⟩)
        · simp only [hk, false_or, not_false_iff, true_and, false_and]

theorem nodup_keys_fresh : ((fresh key seen as).map key).Nodup := by
  induction as generalizing seen with
  | nil => exact List.nodup_nil
  | cons a as ih =>
      by_cases h : key a ∈ seen
      · rw [fresh_known h]
        exact ih
      · rw [fresh_new h, List.map_cons]
        refine List.nodup_cons.mpr ⟨?_, ih⟩
        rw [mem_keys_fresh]
        exact fun hmem => hmem.2 (Finset.mem_insert_self _ _)

/-! ## Rounds -/

/-- Every round reports the keys that are new in it, each once. -/
def ReportsNew (key : α → κ) (seen : Finset κ) (rounds : List (List α × List α)) : Prop :=
  ∀ h x rest, rounds = h ++ x :: rest → (x.2.map key).Nodup
    ∧ ∀ k, k ∈ x.2.map key ↔ k ∈ x.1.map key ∧ k ∉ seen ∧ ∀ y ∈ h, k ∉ y.1.map key

omit [DecidableEq κ] in
theorem reportsNew_nil : ReportsNew key seen [] := by
  intro h x rest heq
  exact absurd heq.symm (List.append_ne_nil_of_right_ne_nil h (List.cons_ne_nil x rest))

theorem reportsNew_cons {out : List α} {rounds : List (List α × List α)} :
    ReportsNew key seen ((as, out) :: rounds) ↔
      (out.map key).Nodup ∧ (∀ k, k ∈ out.map key ↔ k ∈ as.map key ∧ k ∉ seen)
        ∧ ReportsNew key (noted key seen as) rounds := by
  constructor
  · intro hall
    obtain ⟨honce, hnew⟩ := hall [] _ _ rfl
    refine ⟨honce, fun k => ?_, ?_⟩
    · rw [hnew]
      exact and_congr_right fun _ => and_iff_left fun y hy => absurd hy List.not_mem_nil
    · rintro h x rest rfl
      obtain ⟨honce, hnew⟩ := hall ((as, out) :: h) x rest rfl
      refine ⟨honce, fun k => ?_⟩
      rw [hnew, mem_noted, List.forall_mem_cons, not_or, and_assoc]
  · rintro ⟨honce, hnew, hrest⟩ h x rest heq
    cases h with
    | nil =>
        obtain ⟨rfl, rfl⟩ := List.cons.inj heq
        refine ⟨honce, fun k => ?_⟩
        rw [hnew]
        exact and_congr_right fun _ => (and_iff_left fun y hy => absurd hy List.not_mem_nil).symm
    | cons y h =>
        obtain ⟨rfl, rfl⟩ := List.cons.inj heq
        obtain ⟨honce, hnew⟩ := hrest h x rest rfl
        refine ⟨honce, fun k => ?_⟩
        rw [hnew, mem_noted, List.forall_mem_cons, not_or, and_assoc]

/-- Over all rounds no key is reported twice. -/
theorem ReportsNew.once {rounds : List (List α × List α)} (h : ReportsNew key seen rounds) :
    (rounds.flatMap fun x => x.2.map key).Nodup
      ∧ ∀ k ∈ rounds.flatMap fun x => x.2.map key, k ∉ seen := by
  induction rounds generalizing seen with
  | nil => exact ⟨List.nodup_nil, fun k hk => absurd hk List.not_mem_nil⟩
  | cons x rounds ih =>
      obtain ⟨as, out⟩ := x
      obtain ⟨honce, hnew, hrest⟩ := reportsNew_cons.mp h
      obtain ⟨hrounds, hlater⟩ := ih hrest
      rw [List.flatMap_cons]
      constructor
      · refine List.nodup_append.mpr ⟨honce, hrounds, ?_⟩
        rintro k hk _ hk' rfl
        exact hlater k hk' (mem_noted.mpr (Or.inr ((hnew k).mp hk).1))
      · intro k hk
        rcases List.mem_append.mp hk with hk | hk
        · exact ((hnew k).mp hk).2
        · exact fun hseen => hlater k hk (mem_noted.mpr (Or.inl hseen))

/-- What is new in a round is reported in it. -/
theorem ReportsNew.complete {rounds : List (List α × List α)} (h : ReportsNew key seen rounds)
    (hk : k ∈ rounds.flatMap fun x => x.1.map key) (hseen : k ∉ seen) :
    k ∈ rounds.flatMap fun x => x.2.map key := by
  induction rounds generalizing seen with
  | nil => exact absurd hk List.not_mem_nil
  | cons x rounds ih =>
      obtain ⟨as, out⟩ := x
      obtain ⟨-, hnew, hrest⟩ := reportsNew_cons.mp h
      rw [List.flatMap_cons, List.mem_append] at hk ⊢
      by_cases has : k ∈ as.map key
      · exact Or.inl ((hnew k).mpr ⟨has, hseen⟩)
      · refine Or.inr (ih hrest (hk.resolve_left has) ?_)
        rw [mem_noted]
        exact not_or_intro hseen has

/-- The rounds over some lists, reported with an unbounded set. -/
def rounds (key : α → κ) : Finset κ → List (List α) → List (List α × List α)
  | _, [] => []
  | seen, as :: ass => (as, fresh key seen as) :: rounds key (noted key seen as) ass

theorem reportsNew_rounds {ass : List (List α)} : ReportsNew key seen (rounds key seen ass) := by
  induction ass generalizing seen with
  | nil => exact reportsNew_nil
  | cons as ass ih => exact reportsNew_cons.mpr ⟨nodup_keys_fresh, fun _ => mem_keys_fresh, ih⟩

/-! ## A set with a bound -/

variable (key)

/-- Put a key into a set that holds at most `cap`. -/
def hold (cap : Nat) (held : Finset κ) (k : κ) : Finset κ :=
  if held.card < cap then insert k held else held

def heldWithin (cap : Nat) (held : Finset κ) (as : List α) : Finset κ :=
  as.foldl (fun held a => hold cap held (key a)) held

/-- The items that such a set takes for new: those it does not hold, except that it may pass
over them when it is full. -/
def freshWithin (cap : Nat) (again : Bool) : Finset κ → List α → List α
  | _, [] => []
  | held, a :: as =>
      if key a ∉ held ∧ (held.card < cap ∨ again) then
        a :: freshWithin cap again (hold cap held (key a)) as
      else freshWithin cap again (hold cap held (key a)) as

variable {key} {cap : Nat} {again : Bool}

theorem subset_hold : held ⊆ hold cap held k := by
  unfold hold
  split
  · exact Finset.subset_insert k held
  · exact Finset.Subset.refl held

theorem card_hold_le (h : held.card ≤ cap) : (hold cap held k).card ≤ cap := by
  unfold hold
  split
  · next hroom => exact (Finset.card_insert_le k held).trans hroom
  · exact h

theorem hold_of_mem (h : k ∈ held) : hold cap held k = held := by
  rw [hold, Finset.insert_eq_of_mem h, ite_self]

theorem heldWithin_cons :
    heldWithin key cap held (a :: as) = heldWithin key cap (hold cap held (key a)) as := rfl

theorem heldWithin_append : heldWithin key cap held (as ++ bs) =
    heldWithin key cap (heldWithin key cap held as) bs := List.foldl_append

theorem subset_heldWithin : held ⊆ heldWithin key cap held as := by
  induction as generalizing held with
  | nil => exact Finset.Subset.refl held
  | cons a as ih => exact subset_hold.trans ih

theorem card_heldWithin_le (h : held.card ≤ cap) : (heldWithin key cap held as).card ≤ cap := by
  induction as generalizing held with
  | nil => exact h
  | cons a as ih => exact ih (card_hold_le h)

theorem heldWithin_subset : heldWithin key cap held as ⊆ noted key held as := by
  induction as generalizing held with
  | nil =>
      rw [noted_nil]
      exact Finset.Subset.refl held
  | cons a as ih =>
      rw [noted_cons]
      refine ih.trans ?_
      have hsub : hold cap held (key a) ⊆ insert (key a) held := by
        unfold hold
        split
        · exact Finset.Subset.refl _
        · exact Finset.subset_insert _ _
      exact Finset.union_subset_union_left hsub

/-- A set that does not hold all it was given is full. -/
theorem heldWithin_full (h : held.card ≤ cap) (hne : heldWithin key cap held as ≠ noted key held as) :
    (heldWithin key cap held as).card = cap := by
  induction as generalizing held with
  | nil => exact absurd noted_nil.symm hne
  | cons a as ih =>
      rw [heldWithin_cons] at hne ⊢
      by_cases hroom : held.card < cap
      · refine ih (card_hold_le h) ?_
        rw [noted_cons] at hne
        rwa [hold, if_pos hroom] at hne ⊢
      · have hfull : held.card = cap := by omega
        refine le_antisymm (card_heldWithin_le (card_hold_le h)) ?_
        rw [← hfull]
        exact Finset.card_le_card (subset_hold.trans subset_heldWithin)

/-- A key that was given before is held, or there is no room for it now. -/
theorem hold_of_noted (hcard : held.card ≤ cap) (hk : k ∈ noted key held as) :
    hold cap (heldWithin key cap held as) k = heldWithin key cap held as := by
  by_cases hmem : k ∈ heldWithin key cap held as
  · exact hold_of_mem hmem
  · have hne : heldWithin key cap held as ≠ noted key held as := fun heq => hmem (heq ▸ hk)
    rw [hold, if_neg (heldWithin_full hcard hne).not_lt]

theorem hold_image {κ' : Type} [DecidableEq κ'] {f : κ → κ'} (hf : Function.Injective f) :
    hold cap (held.image f) (f k) = (hold cap held k).image f := by
  rw [hold, hold, Finset.card_image_of_injective held hf]
  split
  · exact (Finset.image_insert f k held).symm
  · rfl

/-- While there is room the bound makes no difference. -/
theorem within_of_room (h : (noted key held as).card ≤ cap) :
    freshWithin key cap again held as = fresh key held as
      ∧ heldWithin key cap held as = noted key held as := by
  induction as generalizing held with
  | nil => exact ⟨rfl, noted_nil.symm⟩
  | cons a as ih =>
      rw [noted_cons] at h ⊢
      rw [heldWithin_cons, freshWithin]
      by_cases ha : key a ∈ held
      · rw [Finset.insert_eq_of_mem ha] at h ⊢
        rw [hold_of_mem ha, if_neg fun hnew => hnew.1 ha, fresh_known ha]
        exact ih h
      · have hcard := (Finset.card_le_card Finset.subset_union_left).trans h
        rw [Finset.card_insert_of_notMem ha] at hcard
        have hroom : held.card < cap := hcard
        rw [hold, if_pos hroom, if_pos ⟨ha, Or.inl hroom⟩, fresh_new ha]
        obtain ⟨hfresh, hheld⟩ := ih h
        exact ⟨congrArg (a :: ·) hfresh, hheld⟩

theorem mem_heldWithin (h : k ∈ (freshWithin key cap false held as).map key) :
    k ∈ heldWithin key cap held as := by
  induction as generalizing held with
  | nil => exact absurd h List.not_mem_nil
  | cons a as ih =>
      rw [heldWithin_cons]
      rw [freshWithin] at h
      split at h
      · next hnew =>
          rcases List.mem_cons.mp h with rfl | h
          · refine subset_heldWithin ?_
            rw [hold, if_pos (hnew.2.resolve_right Bool.false_ne_true)]
            exact Finset.mem_insert_self _ _
          · exact ih h
      · exact ih h

theorem heldWithin_of_full (h : cap ≤ held.card) : heldWithin key cap held as = held := by
  induction as with
  | nil => rfl
  | cons a as ih => rw [heldWithin_cons, hold, if_neg (Nat.not_lt.mpr h), ih]

/-- A full set passes over everything. -/
theorem freshWithin_full (h : cap ≤ held.card) : freshWithin key cap false held as = [] := by
  induction as with
  | nil => rfl
  | cons a as ih =>
      have hfull : ¬held.card < cap := Nat.not_lt.mpr h
      rw [freshWithin, if_neg fun hnew => hnew.2.elim hfull Bool.false_ne_true, hold, if_neg hfull]
      exact ih

/-- The rounds over some lists, reported with a set of at most `cap` keys. -/
def roundsWithin (key : α → κ) (cap : Nat) (again : Bool) :
    Finset κ → List (List α) → List (List α × List α)
  | _, [] => []
  | held, as :: ass => (as, freshWithin key cap again held as)
      :: roundsWithin key cap again (heldWithin key cap held as) ass

theorem roundsWithin_items {ass : List (List α)} :
    (roundsWithin key cap again held ass).flatMap (fun x => x.1.map key) = ass.flatten.map key := by
  induction ass generalizing held with
  | nil => rfl
  | cons as ass ih => rw [roundsWithin, List.flatMap_cons, ih, List.flatten_cons, List.map_append]

theorem roundsWithin_of_room {ass : List (List α)}
    (h : (noted key held ass.flatten).card ≤ cap) :
    roundsWithin key cap again held ass = rounds key held ass := by
  induction ass generalizing held with
  | nil => rfl
  | cons as ass ih =>
      rw [List.flatten_cons, noted_append] at h
      have hroom := (Finset.card_le_card Finset.subset_union_left).trans h
      have hwithin : freshWithin key cap again held as = fresh key held as ∧ _ :=
        within_of_room hroom
      rw [roundsWithin, rounds, hwithin.1, hwithin.2, ih h]

theorem mem_heldWithin_rounds {ass : List (List α)}
    (h : k ∈ (roundsWithin key cap false held ass).flatMap fun x => x.2.map key) :
    k ∈ heldWithin key cap held ass.flatten := by
  induction ass generalizing held with
  | nil => exact absurd h List.not_mem_nil
  | cons as ass ih =>
      rw [List.flatten_cons, heldWithin_append]
      rw [roundsWithin, List.flatMap_cons] at h
      rcases List.mem_append.mp h with h | h
      · exact subset_heldWithin (mem_heldWithin h)
      · exact ih h

/-- Where nothing is new, nothing is to be reported, and nothing is if the set is full. -/
theorem reportsNew_of_known {ass : List (List α)} (hfull : cap ≤ held.card)
    (hknown : ∀ k ∈ ass.flatten.map key, k ∈ seen) :
    ReportsNew key seen (roundsWithin key cap false held ass) := by
  induction ass with
  | nil => exact reportsNew_nil
  | cons as ass ih =>
      rw [List.flatten_cons, List.map_append] at hknown
      have hsame : noted key seen as = seen := by
        refine Finset.union_eq_left.mpr fun k hk => ?_
        exact hknown k (List.mem_append_left _ (List.mem_toFinset.mp hk))
      rw [roundsWithin, freshWithin_full hfull, heldWithin_of_full hfull, reportsNew_cons, hsame]
      refine ⟨List.nodup_nil, fun k => ?_, ih fun k hk => hknown k (List.mem_append_right _ hk)⟩
      refine iff_of_false List.not_mem_nil ?_
      rintro ⟨hk, hnew⟩
      exact hnew (hknown k (List.mem_append_left _ hk))

/-- With a set that passes over what it has no room for, and that holds all that is known
unless it is full, what is new is reported exactly where nothing is new or all keys fit. -/
theorem reportsNew_within_iff {ass : List (List α)} (hsub : held ⊆ seen) (hcard : held.card ≤ cap)
    (hall : held ≠ seen → held.card = cap) :
    ReportsNew key seen (roundsWithin key cap false held ass) ↔
      (∀ k ∈ ass.flatten.map key, k ∈ seen) ∨ (noted key seen ass.flatten).card ≤ cap := by
  constructor
  · intro hnew
    have hheld : ∀ k ∈ ass.flatten.map key, k ∉ seen → k ∈ heldWithin key cap held ass.flatten := by
      intro k hk hseen
      have hitems : (roundsWithin key cap false held ass).flatMap (fun x => x.1.map key) =
        ass.flatten.map key := roundsWithin_items
      rw [← hitems] at hk
      exact mem_heldWithin_rounds (hnew.complete hk hseen)
    by_cases hknown : ∀ k ∈ ass.flatten.map key, k ∈ seen
    · exact Or.inl hknown
    · refine Or.inr ?_
      have hsame : held = seen := by
        by_contra hne
        have hfull : heldWithin key cap held ass.flatten = held := heldWithin_of_full (hall hne).ge
        refine hknown fun k hk => ?_
        by_contra hseen
        have hmem := hheld k hk hseen
        rw [hfull] at hmem
        exact hseen (hsub hmem)
      have hle : noted key seen ass.flatten ⊆ heldWithin key cap held ass.flatten := by
        intro k hk
        by_cases hseen : k ∈ seen
        · exact subset_heldWithin (hsame ▸ hseen)
        · exact hheld k ((mem_noted.mp hk).resolve_left hseen) hseen
      exact (Finset.card_le_card hle).trans (card_heldWithin_le hcard)
  · intro hcond
    by_cases hsame : held = seen
    · have hroom : (noted key held ass.flatten).card ≤ cap := by
        rcases hcond with hknown | hroom
        · have hnoted : noted key held ass.flatten = held := by
            refine Finset.union_eq_left.mpr fun k hk => ?_
            rw [hsame]
            exact hknown k (List.mem_toFinset.mp hk)
          rw [hnoted]
          exact hcard
        · rw [hsame]
          exact hroom
      rw [roundsWithin_of_room hroom, hsame]
      exact reportsNew_rounds
    · have hfull := hall hsame
      rcases hcond with hknown | hroom
      · exact reportsNew_of_known hfull.ge hknown
      · have hnoted : seen ⊆ noted key seen ass.flatten := Finset.subset_union_left
        have hle := (Finset.card_le_card hnoted).trans hroom
        rw [← hfull] at hle
        exact absurd (Finset.eq_of_subset_of_card_le hsub hle) hsame

end Tracep
