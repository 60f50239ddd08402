import Mathlib.Data.List.Basic

/-!
# First finds

`findSome?` goes through a list in order and stops at the first element that
gives something (`findSome?_eq_find?`). Who looks at some of the elements
only, the first few or those of a kind, stops at another one, and it depends
on the two elements whether that makes a difference (`findSome?_seen_eq_iff`).
-/

namespace Tracep.Searching

variable {α β : Type} {f : α → Option β} {seen : α → Prop} [DecidablePred seen]

/-- The search gives what its first find gives. -/
theorem findSome?_eq_find? (f : α → Option β) (l : List α) :
    l.findSome? f = (l.find? fun x => (f x).isSome).bind f := by
  induction l with
  | nil => rfl
  | cons x l ih =>
      rw [List.findSome?_cons, List.find?_cons]
      cases hx : f x with
      | none => exact ih
      | some b => exact hx.symm

theorem findSome?_eq_none {l : List α} (h : l.find? (fun x => (f x).isSome) = none) :
    l.findSome? f = none := by
  rw [findSome?_eq_find?, h]
  rfl

theorem findSome?_of_find? {l : List α} {x : α} (h : l.find? (fun x => (f x).isSome) = some x) :
    l.findSome? f = f x := by
  rw [findSome?_eq_find?, h]
  rfl

/-- The first element that passes one test is the first that passes both, if it does. -/
theorem find?_and {p q : α → Bool} {l : List α} {x : α} (h : l.find? p = some x)
    (hq : q x = true) : l.find? (fun y => q y && p y) = some x := by
  obtain ⟨hp, before, after, rfl, hbefore⟩ := List.find?_eq_some_iff_append.mp h
  refine List.find?_eq_some_iff_append.mpr ⟨?_, before, after, rfl, fun y hy => ?_⟩
  · rw [hq, hp]
    rfl
  · rw [Bool.not_and, hbefore y hy, Bool.or_true]

/-- A find that is not seen is missed, unless the first one that is seen gives the same. -/
theorem findSome?_seen_eq_iff {l : List α} :
    l.findSome? (fun x => if seen x then f x else none) = l.findSome? f
      ↔ ∀ x, l.find? (fun x => (f x).isSome) = some x → ¬seen x →
        ∃ y, l.find? (fun y => decide (seen y) && (f y).isSome) = some y ∧ f y = f x := by
  have hseen : (fun x => (if seen x then f x else none).isSome)
      = fun y => decide (seen y) && (f y).isSome := by
    funext x
    by_cases hx : seen x
    · rw [if_pos hx, decide_eq_true hx, Bool.true_and]
    · rw [if_neg hx, decide_eq_false hx]
      rfl
  have hboth : ∀ {y}, l.find? (fun y => decide (seen y) && (f y).isSome) = some y →
      l.findSome? (fun x => if seen x then f x else none) = f y := by
    intro y hy
    have hsome := List.find?_some hy
    rw [Bool.and_eq_true, decide_eq_true_eq] at hsome
    rw [findSome?_of_find? (hseen ▸ hy), if_pos hsome.1]
  cases hfirst : l.find? fun x => (f x).isSome with
  | none =>
      refine iff_of_true ?_ nofun
      have hall := findSome?_eq_none hfirst
      rw [List.findSome?_eq_none_iff] at hall
      rw [findSome?_eq_none hfirst, List.findSome?_eq_none_iff]
      intro x hx
      rw [hall x hx, ite_self]
  | some x =>
      rw [findSome?_of_find? hfirst]
      constructor
      · rintro heq _ ⟨⟩ -
        cases hfind : l.find? fun y => decide (seen y) && (f y).isSome with
        | none =>
            have hx : (f x).isSome = true := @List.find?_some _ (fun x => (f x).isSome) _ _ hfirst
            rw [findSome?_eq_none (hseen ▸ hfind)] at heq
            rw [← heq] at hx
            cases hx
        | some y => exact ⟨y, rfl, (hboth hfind).symm.trans heq⟩
      · intro hmissed
        by_cases hsx : seen x
        · exact hboth (find?_and hfirst (decide_eq_true hsx))
        · obtain ⟨y, hy, heq⟩ := hmissed x rfl hsx
          exact (hboth hy).trans heq

theorem findSome?_flatMap {γ : Type} (g : γ → List α) (l : List γ) :
    (l.flatMap g).findSome? f = l.findSome? fun c => (g c).findSome? f := by
  induction l with
  | nil => rfl
  | cons c l ih =>
      rw [List.flatMap_cons, List.findSome?_append, List.findSome?_cons, ih]
      cases (g c).findSome? f <;> rfl

/-- To look at the first few is to look at those with a small index. -/
theorem findSome?_take (n : Nat) (l : List α) :
    (l.take n).findSome? f = l.zipIdx.findSome? fun x => if x.2 < n then f x.1 else none := by
  have hfrom : ∀ k, (l.take n).findSome? f
      = (l.zipIdx k).findSome? fun x => if x.2 < k + n then f x.1 else none := by
    induction l generalizing n with
    | nil => intro k; rw [List.take_nil]; rfl
    | cons x l ih =>
        intro k
        cases n with
        | zero =>
            symm
            refine List.findSome?_eq_none_iff.mpr fun y hy => if_neg ?_
            exact Nat.not_lt.mpr (List.le_snd_of_mem_zipIdx hy)
        | succ n =>
            rw [List.take_succ_cons, List.findSome?_cons, List.zipIdx_cons, List.findSome?_cons,
              if_pos (Nat.lt_add_of_pos_right n.succ_pos), ih n (k + 1)]
            simp only [Nat.add_assoc, Nat.add_comm 1 n]
  simpa only [Nat.zero_add] using hfrom 0

theorem findSome?_zipIdx (l : List α) : l.zipIdx.findSome? (fun x => f x.1) = l.findSome? f := by
  rw [← Function.comp_def f Prod.fst, ← List.findSome?_map, List.zipIdx_map_fst]

/-- A default that is never found tells that nothing was. -/
theorem getD_eq_getD_iff {d : β} {o o' : Option β} (ho : o ≠ some d) (ho' : o' ≠ some d) :
    o.getD d = o'.getD d ↔ o = o' := by
  cases o with
  | none =>
      cases o' with
      | none => exact iff_of_true rfl rfl
      | some b => exact iff_of_false (fun h : d = b => ho' (h ▸ rfl)) nofun
  | some a =>
      cases o' with
      | none => exact iff_of_false (fun h : a = d => ho (h ▸ rfl)) nofun
      | some b => exact ⟨congrArg some, Option.some.inj⟩

end Tracep.Searching
