import Mathlib.Data.Set.Card
import Mathlib.Logic.Relation
import Mathlib.Order.WellFounded

/-!
# Walks that keep what they have passed

A walk from a position leads to a goal if it is at one after one step or
more. A program that follows it and gives up at a position it has passed
misses nothing: what it has passed is then closed under steps, and holds no
goal that is stepped to (`Passed.not_leads`). It comes to an end when there
are finitely many positions, since it passes a new one at each step
(`visiting`).

A program that follows a walk and keeps nothing needs one without cycles,
which comes to an end everywhere (`wellFounded_of_acyclic`). What lies between
a position and the first goal after it is given step by step (`Through`).
-/

namespace Tracep

open Relation

instance finite_int32 : Finite Int32 :=
  Finite.of_injective (fun p : Int32 => p.toBitVec.toFin) fun _ _ h =>
    Int32.toBitVec_inj.mp (BitVec.toFin_inj.mp h)

variable {κ : Type}

/-- The walk is at a goal after one step or more. -/
def Leads (R : κ → κ → Prop) (goal : κ → Prop) (p : κ) : Prop := ∃ q, TransGen R p q ∧ goal q

/-- Every step from a position passed was to no goal, and to one passed or the present one. -/
def Passed (R : κ → κ → Prop) (goal : κ → Prop) (seen : List κ) (p : κ) : Prop :=
  ∀ s ∈ seen, ∀ q, R s q → ¬goal q ∧ q ∈ p :: seen

variable {R : κ → κ → Prop} {goal : κ → Prop} {p q : κ} {seen : List κ}

theorem not_leads_of_stuck (h : ∀ q, ¬R p q) : ¬Leads R goal p := by
  rintro ⟨q, hpq, -⟩
  obtain ⟨r, hpr, -⟩ := TransGen.head'_iff.mp hpq
  exact h r hpr

theorem leads_of_goal (h : R p q) (hq : goal q) : Leads R goal p := ⟨q, TransGen.single h, hq⟩

/-- A walk that goes on leads where the rest of it leads. -/
theorem leads_iff_of_step (hR : Relator.RightUnique R) (h : R p q) (hq : ¬goal q) :
    Leads R goal p ↔ Leads R goal q := by
  constructor
  · rintro ⟨r, hpr, hr⟩
    obtain ⟨q', hpq', hrest⟩ := TransGen.head'_iff.mp hpr
    obtain rfl := hR h hpq'
    rcases reflTransGen_iff_eq_or_transGen.mp hrest with rfl | hgen
    · exact absurd hr hq
    · exact ⟨r, hgen, hr⟩
  · rintro ⟨r, hqr, hr⟩
    exact ⟨r, TransGen.head h hqr, hr⟩

theorem passed_nil : Passed R goal [] p := fun _ h => absurd h List.not_mem_nil

theorem Passed.cons (h : Passed R goal seen p) (hR : Relator.RightUnique R) (hpq : R p q)
    (hq : ¬goal q) : Passed R goal (p :: seen) q := by
  intro s hs r hsr
  rcases List.mem_cons.mp hs with rfl | hs
  · obtain rfl := hR hpq hsr
    exact ⟨hq, List.mem_cons_self⟩
  · obtain ⟨hr, hmem⟩ := h s hs r hsr
    exact ⟨hr, List.mem_cons_of_mem q hmem⟩

/-- A walk that comes back leads to no goal. -/
theorem Passed.not_leads (h : Passed R goal seen p) (hp : p ∈ seen) : ¬Leads R goal p := by
  have hstep {s q : κ} (hs : s ∈ seen) (hsq : R s q) : q ∈ seen ∧ ¬goal q := by
    obtain ⟨hgoal, hmem⟩ := h s hs q hsq
    exact ⟨(List.mem_cons.mp hmem).elim (fun heq => heq ▸ hp) id, hgoal⟩
  rintro ⟨q, hpq, hq⟩
  have hclosed : q ∈ seen ∧ ¬goal q := by
    clear hq
    induction hpq with
    | single hpr => exact hstep hp hpr
    | tail _ hrq ih => exact hstep ih.1 hrq
  exact hclosed.2 hq

/-- What holds of what has been passed, if it does with any new position, holds from the start. -/
theorem visiting [Finite κ] {P : List κ → Prop}
    (h : ∀ seen, (∀ p ∉ seen, P (p :: seen)) → P seen) (seen : List κ) : P seen := by
  induction hn : {p | p ∉ seen}.ncard using Nat.strong_induction_on generalizing seen with
  | _ n ih =>
      refine h seen fun p hp => ih _ ?_ (p :: seen) rfl
      rw [← hn]
      refine Set.ncard_lt_ncard ⟨fun q hq hmem => hq (List.mem_cons_of_mem p hmem), fun hsub => ?_⟩
      exact hsub hp List.mem_cons_self

/-! ## Walks without cycles -/

theorem wellFounded_of_acyclic [Finite κ] (h : ∀ p, ¬TransGen R p p) :
    WellFounded fun q p => R p q := by
  let after : κ → κ → Prop := fun q p => TransGen R p q
  have htrans : IsTrans κ after := ⟨fun _ _ _ hqp hrq => hrq.trans hqp⟩
  have hirrefl : Std.Irrefl after := ⟨h⟩
  exact Subrelation.wf TransGen.single (Finite.wellFounded_of_trans_of_irrefl after)

/-- The walk from `p` comes to its first goal `q` after the positions `between`. -/
structure Through (R : κ → κ → Prop) (goal : κ → Prop) (p : κ) (between : List κ) (q : κ) :
    Prop where
  chain : List.IsChain R (p :: (between ++ [q]))
  apart : ∀ x ∈ between, ¬goal x
  goal : goal q

variable {r : κ} {between : List κ}

theorem Through.here (h : R p q) (hq : goal q) : Through R goal p [] q :=
  ⟨List.isChain_pair.mpr h, fun _ hx => absurd hx List.not_mem_nil, hq⟩

theorem Through.next (hpq : R p q) (hq : ¬goal q) (h : Through R goal q between r) :
    Through R goal p (q :: between) r :=
  ⟨h.chain.cons_cons hpq, List.forall_mem_cons.mpr ⟨hq, h.apart⟩, h.goal⟩

theorem not_through_of_stuck (hstuck : ∀ q, ¬R p q) : ¬Through R goal p between r := by
  intro h
  have hchain := h.chain
  cases between with
  | nil => exact hstuck r (List.isChain_pair.mp hchain)
  | cons x between => exact hstuck x (List.isChain_cons_cons.mp hchain).1

theorem Through.first (h : Through R goal p between r) (hR : Relator.RightUnique R) (hpq : R p q) :
    (goal q ∧ between = [] ∧ r = q)
      ∨ ¬goal q ∧ ∃ rest, between = q :: rest ∧ Through R goal q rest r := by
  have hchain := h.chain
  cases between with
  | nil =>
      obtain rfl := hR hpq (List.isChain_pair.mp hchain)
      exact Or.inl ⟨h.goal, rfl, rfl⟩
  | cons x between =>
      obtain ⟨hpx, hrest⟩ := List.isChain_cons_cons.mp hchain
      obtain rfl := hR hpq hpx
      obtain ⟨hx, hbetween⟩ := List.forall_mem_cons.mp h.apart
      exact Or.inr ⟨hx, between, rfl, hrest, hbetween, h.goal⟩

/-- A deterministic walk has one way to its first goal. -/
theorem Through.unique {between' : List κ} {r' : κ} (h : Through R goal p between r)
    (hR : Relator.RightUnique R) (h' : Through R goal p between' r') : between = between' := by
  induction between generalizing p between' with
  | nil =>
      have hpr : R p r := List.isChain_pair.mp h.chain
      rcases h'.first hR hpr with ⟨-, hnil, -⟩ | ⟨hnot, -⟩
      · exact hnil.symm
      · exact absurd h.goal hnot
  | cons q between ih =>
      have hpq : R p q := (List.isChain_cons_cons.mp h.chain).1
      rcases h.first hR hpq with ⟨-, hnil, -⟩ | ⟨hq, rest, heq, hrest⟩
      · cases hnil
      obtain ⟨-, rfl⟩ := List.cons.inj heq
      rcases h'.first hR hpq with ⟨hgoal, -⟩ | ⟨-, rest', rfl, hrest'⟩
      · exact absurd hgoal hq
      · rw [ih hrest hrest']

theorem exists_rel_of_isChain {l : List κ} (h : List.IsChain R (p :: l)) :
    ∀ x ∈ l, ∃ y, R y x := by
  induction l generalizing p with
  | nil => exact fun x hx => absurd hx List.not_mem_nil
  | cons q l ih =>
      obtain ⟨hpq, hrest⟩ := List.isChain_cons_cons.mp h
      exact List.forall_mem_cons.mpr ⟨⟨p, hpq⟩, ih hrest⟩

/-- No position comes twice. -/
theorem Through.nodup (h : Through R goal p between q) (hacyclic : ∀ p, ¬TransGen R p p) :
    (between ++ [q]).Nodup := by
  have hpairs : (between ++ [q]).Pairwise (TransGen R) :=
    List.isChain_iff_pairwise.mp (h.chain.tail.imp fun _ _ => TransGen.single)
  refine hpairs.imp fun {x y} hxy => ?_
  rintro rfl
  exact hacyclic x hxy

end Tracep
