import Tracep.Lib.Exec
import Mathlib.Data.Finite.Defs
import Mathlib.Order.WellFounded
import Mathlib.Data.Fintype.Card
import Mathlib.Data.Fintype.Order
import Mathlib.Order.RelIso.Set
import Mathlib.Data.Set.Finite.Basic

/-!
# Loops of checked computations

`Exec.loop` iterates a body `σ → Exec (σ ⊕ ρ)`: `inl` goes round again,
`inr` leaves the loop. `Next` is the transition relation of the body and
`Relation.ReflTransGen (Next body)` its runs. The rules read the three
judgements of a loop off its runs (`loop_returns_iff`, `loop_faults_iff`)
and carry an invariant along them (`reach_invariant`, `loop_not_faults`).
Two loops that move `InStep` between related states return related
results, and one hangs when the other does.

The last section is about termination of loops whose control is a
deterministic walk over finitely many positions: such a walk goes on
forever exactly when it enters a cycle (`never_stuck_iff_cycle`), and a
loop whose positions follow the walk hangs exactly then
(`loop_hangs_iff_cycle`).
-/

namespace Tracep

open Relation

namespace Exec

variable {σ ρ : Type}

/-- `n` is the number of iterations that may still be started. -/
def loopRun (body : σ → Exec (σ ⊕ ρ)) : Nat → σ → Outcome ρ
  | 0, _ => .hang
  | n + 1, s => ((body s).run n).bind fun
      | .inl s' => loopRun body n s'
      | .inr r => .ok r

theorem loopRun_succ (body : σ → Exec (σ ⊕ ρ)) (n : Nat) (s : σ) :
    loopRun body (n + 1) s
      = ((body s).run n).bind (Sum.elim (loopRun body n) Outcome.ok) := by
  rw [loopRun]
  congr 1
  funext x
  cases x <;> rfl

theorem loopRun_mono (body : σ → Exec (σ ⊕ ρ)) :
    ∀ {n m : Nat} {s : σ}, n ≤ m → loopRun body n s ≠ .hang →
      loopRun body m s = loopRun body n s
  | 0, _, _, _, hne => absurd rfl hne
  | n + 1, m, s, hnm, hne => by
      obtain ⟨m, rfl⟩ : ∃ k, m = k + 1 := ⟨m - 1, by omega⟩
      have hle : n ≤ m := by omega
      rw [loopRun_succ] at hne
      rw [loopRun_succ, loopRun_succ]
      rcases Outcome.bind_ne_hang.mp hne with hx | ⟨x, hx, hrest⟩
      · rw [hx, Faults.run_of_le hx hle]
        rfl
      · rw [hx, Returns.run_of_le hx hle]
        cases x with
        | inl s' => exact loopRun_mono body hle hrest
        | inr r => rfl

/-- Repeat `body` from `s` until it leaves the loop. -/
def loop (body : σ → Exec (σ ⊕ ρ)) (s : σ) : Exec ρ :=
  ⟨fun n => loopRun body n s, loopRun_mono body⟩

/-- One more iteration takes `s` to `s'`. -/
def Next (body : σ → Exec (σ ⊕ ρ)) (s s' : σ) : Prop := (body s).Returns (.inl s')

section Rules

variable {body : σ → Exec (σ ⊕ ρ)} {s s' : σ} {r : ρ}

theorem loop_returns_now (h : (body s).Returns (.inr r)) : (loop body s).Returns r := by
  obtain ⟨n, hn⟩ := h
  refine ⟨n + 1, (loopRun_succ body n s).trans ?_⟩
  rw [hn]
  rfl

theorem loop_faults_now (h : (body s).Faults) : (loop body s).Faults := by
  obtain ⟨n, hn⟩ := h
  refine ⟨n + 1, (loopRun_succ body n s).trans ?_⟩
  rw [hn]
  rfl

theorem Next.loop_returns (h : Next body s s') (hr : (loop body s').Returns r) :
    (loop body s).Returns r := by
  obtain ⟨n, hn⟩ := h
  obtain ⟨m, hm⟩ := hr
  have h1 := Returns.run_of_le hn (Nat.le_max_left n m)
  have h2 := Returns.run_of_le hm (Nat.le_max_right n m)
  refine ⟨max n m + 1, (loopRun_succ body _ s).trans ?_⟩
  rw [h1]
  exact h2

theorem Next.loop_faults (h : Next body s s') (hf : (loop body s').Faults) :
    (loop body s).Faults := by
  obtain ⟨n, hn⟩ := h
  obtain ⟨m, hm⟩ := hf
  have h1 := Returns.run_of_le hn (Nat.le_max_left n m)
  have h2 := Faults.run_of_le hm (Nat.le_max_right n m)
  refine ⟨max n m + 1, (loopRun_succ body _ s).trans ?_⟩
  rw [h1]
  exact h2

/-- A loop does its body, and goes on if the body says so. -/
theorem loop_same (body : σ → Exec (σ ⊕ ρ)) (s : σ) :
    Same (loop body s) (body s >>= Sum.elim (loop body) pure) where
  returns r := by
    rw [returns_bind]
    constructor
    · rintro ⟨n, hn⟩
      cases n with
      | zero => cases hn
      | succ n =>
          obtain ⟨x, hx, hrest⟩ := Outcome.bind_eq_ok.mp hn
          refine ⟨x, ⟨n, hx⟩, ?_⟩
          cases x with
          | inl s' => exact ⟨n, hrest⟩
          | inr r' => exact ⟨n, hrest⟩
    · rintro ⟨x, hx, hrest⟩
      cases x with
      | inl s' => exact Next.loop_returns hx hrest
      | inr r' => exact returns_pure.mp hrest ▸ loop_returns_now hx
  faults := by
    rw [faults_bind]
    constructor
    · rintro ⟨n, hn⟩
      cases n with
      | zero => cases hn
      | succ n =>
          rcases Outcome.bind_eq_fault.mp hn with hx | ⟨x, hx, hrest⟩
          · exact Or.inl ⟨n, hx⟩
          · refine Or.inr ⟨x, ⟨n, hx⟩, ?_⟩
            cases x with
            | inl s' => exact ⟨n, hrest⟩
            | inr r' => cases hrest
    · rintro (hf | ⟨x, hx, hrest⟩)
      · exact loop_faults_now hf
      · cases x with
        | inl s' => exact Next.loop_faults hx hrest
        | inr r' => exact absurd hrest not_faults_pure

/-- A loop returns what the body leaves it with at the end of some run. -/
theorem loop_returns_iff :
    (loop body s).Returns r ↔
      ∃ s', ReflTransGen (Next body) s s' ∧ (body s').Returns (.inr r) := by
  constructor
  · rintro ⟨n, hn⟩
    induction n generalizing s with
    | zero => cases hn
    | succ n ih =>
        obtain ⟨x, hx, hrest⟩ := Outcome.bind_eq_ok.mp hn
        cases x with
        | inl s₁ =>
            obtain ⟨s', hreach, hend⟩ := ih hrest
            exact ⟨s', ReflTransGen.head ⟨n, hx⟩ hreach, hend⟩
        | inr r' =>
            obtain rfl := Outcome.ok.inj hrest
            exact ⟨s, ReflTransGen.refl, n, hx⟩
  · rintro ⟨s', hreach, hend⟩
    induction hreach using ReflTransGen.head_induction_on with
    | refl => exact loop_returns_now hend
    | head hstep _ ih => exact hstep.loop_returns ih

theorem loop_faults_iff :
    (loop body s).Faults ↔
      ∃ s', ReflTransGen (Next body) s s' ∧ (body s').Faults := by
  constructor
  · rintro ⟨n, hn⟩
    induction n generalizing s with
    | zero => cases hn
    | succ n ih =>
        rcases Outcome.bind_eq_fault.mp hn with hx | ⟨x, hx, hrest⟩
        · exact ⟨s, ReflTransGen.refl, n, hx⟩
        · cases x with
          | inl s₁ =>
              obtain ⟨s', hreach, hend⟩ := ih hrest
              exact ⟨s', ReflTransGen.head ⟨n, hx⟩ hreach, hend⟩
          | inr r' => cases hrest
  · rintro ⟨s', hreach, hend⟩
    induction hreach using ReflTransGen.head_induction_on with
    | refl => exact loop_faults_now hend
    | head hstep _ ih => exact hstep.loop_faults ih

/-- What holds at the start and is kept by every iteration holds along the run. -/
theorem reach_invariant (Inv : σ → Prop) (h0 : Inv s)
    (hstep : ∀ a b, Inv a → Next body a b → Inv b)
    (hreach : ReflTransGen (Next body) s s') : Inv s' := by
  induction hreach with
  | refl => exact h0
  | tail _ hnext ih => exact hstep _ _ ih hnext

/-- What a loop returns it returns from every state it comes to. -/
theorem loop_returns_of_reach (hreach : ReflTransGen (Next body) s s')
    (hr : (loop body s).Returns r) : (loop body s').Returns r := by
  induction hreach with
  | refl => exact hr
  | tail _ hnext ih =>
      obtain ⟨t, hrun, hend⟩ := loop_returns_iff.mp ih
      rcases hrun.cases_head with rfl | ⟨c, hc, hrest⟩
      · cases hend.unique hnext
      · obtain rfl := Sum.inl.inj (hnext.unique hc)
        exact loop_returns_iff.mpr ⟨t, hrest, hend⟩

/-- A loop whose every iteration leads on never returns. -/
theorem loop_never_returns (Inv : σ → Prop) (h0 : Inv s)
    (hstep : ∀ a, Inv a → ∃ b, Next body a b ∧ Inv b) : ¬(loop body s).Returns r := by
  intro hr
  obtain ⟨t, hrun, hend⟩ := loop_returns_iff.mp hr
  have ht : Inv t := by
    refine reach_invariant Inv h0 (fun a b ha hnext => ?_) hrun
    obtain ⟨b', hnext', hb'⟩ := hstep a ha
    obtain rfl := Sum.inl.inj (hnext.unique hnext')
    exact hb'
  obtain ⟨b, hnext, -⟩ := hstep t ht
  cases hend.unique hnext

/-- The invariant rule for safety: no iteration faults where the invariant holds. -/
theorem loop_not_faults (Inv : σ → Prop) (h0 : Inv s)
    (hstep : ∀ a b, Inv a → Next body a b → Inv b)
    (hsafe : ∀ a, Inv a → ¬(body a).Faults) : ¬(loop body s).Faults := by
  rw [loop_faults_iff]
  rintro ⟨s', hreach, hf⟩
  exact hsafe s' (reach_invariant Inv h0 hstep hreach) hf

end Rules

/-! ## Two loops in step -/

section Simulation

variable {τ ρ' : Type} {body : σ → Exec (σ ⊕ ρ)} {body' : τ → Exec (τ ⊕ ρ')}
  {Rel : σ → τ → Prop} {Out : ρ → ρ' → Prop}

/-- Every iteration from related states finishes on both sides, with related
states or related results. -/
def InStep (body : σ → Exec (σ ⊕ ρ)) (body' : τ → Exec (τ ⊕ ρ')) (Rel : σ → τ → Prop)
    (Out : ρ → ρ' → Prop) : Prop :=
  ∀ s t, Rel s t → ∃ x y, (body s).Returns x ∧ (body' t).Returns y ∧ Sum.LiftRel Rel Out x y

theorem InStep.symm (h : InStep body body' Rel Out) :
    InStep body' body (fun t s => Rel s t) (fun r' r => Out r r') := by
  intro t s hts
  obtain ⟨x, y, hx, hy, hxy⟩ := h s t hts
  refine ⟨y, x, hy, hx, ?_⟩
  cases hxy with
  | inl hr => exact .inl hr
  | inr ho => exact .inr ho

theorem InStep.reach (h : InStep body body' Rel Out) {s s' : σ} {t : τ} (hst : Rel s t)
    (hreach : ReflTransGen (Next body) s s') :
    ∃ t', ReflTransGen (Next body') t t' ∧ Rel s' t' := by
  induction hreach with
  | refl => exact ⟨t, ReflTransGen.refl, hst⟩
  | tail _ hnext ih =>
      obtain ⟨t₁, hreach', hrel⟩ := ih
      obtain ⟨x, y, hx, hy, hxy⟩ := h _ _ hrel
      obtain rfl := hx.unique hnext
      cases hxy with
      | inl hr => exact ⟨_, hreach'.tail hy, hr⟩

theorem InStep.loop_returns (h : InStep body body' Rel Out) {s : σ} {t : τ} {r : ρ}
    (hst : Rel s t) (hr : (loop body s).Returns r) :
    ∃ r', (loop body' t).Returns r' ∧ Out r r' := by
  obtain ⟨s', hreach, hend⟩ := loop_returns_iff.mp hr
  obtain ⟨t', hreach', hrel⟩ := h.reach hst hreach
  obtain ⟨x, y, hx, hy, hxy⟩ := h _ _ hrel
  obtain rfl := hx.unique hend
  cases hxy with
  | inr ho => exact ⟨_, loop_returns_iff.mpr ⟨t', hreach', hy⟩, ho⟩

theorem InStep.not_faults (h : InStep body body' Rel Out) {s : σ} {t : τ}
    (hst : Rel s t) : ¬(loop body s).Faults := by
  rw [loop_faults_iff]
  rintro ⟨s', hreach, hf⟩
  obtain ⟨t', -, hrel⟩ := h.reach hst hreach
  obtain ⟨x, y, hx, -, -⟩ := h _ _ hrel
  exact hx.not_faults hf

theorem InStep.loop_hangs (h : InStep body body' Rel Out) {s : σ} {t : τ}
    (hst : Rel s t) (hh : (loop body' t).Hangs) : (loop body s).Hangs := by
  rw [hangs_iff]
  refine ⟨h.not_faults hst, fun r hr => ?_⟩
  obtain ⟨r', hr', -⟩ := h.loop_returns hst hr
  exact hr'.not_hangs hh

end Simulation

end Exec

/-! ## Walks over finitely many positions -/

section Walk

variable {κ : Type} {R : κ → κ → Prop} {a : κ}

/-- On a deterministic walk every position after a cycle leads back to it. -/
theorem TransGen.back_of_rightUnique (hR : Relator.RightUnique R) {c q : κ}
    (hc : TransGen R c c) (hq : ReflTransGen R c q) : TransGen R q c := by
  induction hq with
  | refl => exact hc
  | tail _ hstep ih =>
      obtain ⟨x, hx, hxc⟩ := TransGen.head'_iff.mp ih
      obtain rfl := hR hstep hx
      rcases reflTransGen_iff_eq_or_transGen.mp hxc with rfl | hgen
      · exact hc
      · exact hgen

/-- A deterministic walk that stays within finitely many positions never gets
stuck exactly when it enters a cycle. -/
theorem never_stuck_iff_cycle (hR : Relator.RightUnique R)
    (hfin : {q | ReflTransGen R a q}.Finite) :
    (∀ q, ReflTransGen R a q → ∃ q', R q q') ↔
      ∃ q, ReflTransGen R a q ∧ TransGen R q q := by
  constructor
  · intro hnext
    by_contra hcyc
    -- without a cycle the walk order is well founded, so some position is last
    let S := {q // ReflTransGen R a q}
    have : Finite S := hfin
    let after : S → S → Prop := fun x y => TransGen R y.1 x.1
    have htrans : IsTrans S after := ⟨fun _ _ _ hxy hyz => hyz.trans hxy⟩
    have hirrefl : Std.Irrefl after := ⟨fun x hx => hcyc ⟨x.1, x.2, hx⟩⟩
    have hwf : WellFounded after := Finite.wellFounded_of_trans_of_irrefl after
    obtain ⟨m, -, hm⟩ := hwf.has_min Set.univ ⟨⟨a, ReflTransGen.refl⟩, trivial⟩
    obtain ⟨q', hq'⟩ := hnext m.1 m.2
    exact hm ⟨q', m.2.tail hq'⟩ trivial (TransGen.single hq')
  · rintro ⟨c, hac, hcc⟩ q haq
    rcases ReflTransGen.total_of_right_unique hR haq hac with hqc | hcq
    · rcases reflTransGen_iff_eq_or_transGen.mp hqc with rfl | hgen
      · obtain ⟨q', hq', -⟩ := TransGen.head'_iff.mp hcc
        exact ⟨q', hq'⟩
      · obtain ⟨q', hq', -⟩ := TransGen.head'_iff.mp hgen
        exact ⟨q', hq'⟩
    · obtain ⟨q', hq', -⟩ :=
        TransGen.head'_iff.mp (TransGen.back_of_rightUnique hR hcc hcq)
      exact ⟨q', hq'⟩

end Walk

namespace Exec

variable {σ ρ κ : Type} {body : σ → Exec (σ ⊕ ρ)} {R : κ → κ → Prop} {pos : σ → κ}
  {Inv : σ → Prop}

/-- Runs of the body project to walks, wherever the invariant holds. -/
theorem reach_walk (hkeep : ∀ s s', Inv s → Next body s s' → Inv s')
    (hfwd : ∀ s s', Inv s → Next body s s' → R (pos s) (pos s'))
    {s s' : σ} (h0 : Inv s) (h : ReflTransGen (Next body) s s') :
    Inv s' ∧ ReflTransGen R (pos s) (pos s') := by
  induction h with
  | refl => exact ⟨h0, ReflTransGen.refl⟩
  | tail _ hnext ih => exact ⟨hkeep _ _ ih.1 hnext, ih.2.tail (hfwd _ _ ih.1 hnext)⟩

/-- Walks from the position of `s` lift to runs of the body. -/
theorem walk_reach (hkeep : ∀ s s', Inv s → Next body s s' → Inv s')
    (hbwd : ∀ s q, Inv s → R (pos s) q → ∃ s', Next body s s' ∧ pos s' = q)
    {s : σ} {q : κ} (h0 : Inv s) (h : ReflTransGen R (pos s) q) :
    ∃ s', ReflTransGen (Next body) s s' ∧ pos s' = q ∧ Inv s' := by
  induction h with
  | refl => exact ⟨s, ReflTransGen.refl, rfl, h0⟩
  | tail _ hstep ih =>
      obtain ⟨s₁, hreach, rfl, hinv⟩ := ih
      obtain ⟨s', hnext, rfl⟩ := hbwd s₁ _ hinv hstep
      exact ⟨s', hreach.tail hnext, rfl, hkeep _ _ hinv hnext⟩

/-- A loop whose positions follow a deterministic walk over finitely many
positions, and whose iterations all finish, runs forever exactly when that
walk enters a cycle. -/
theorem loop_hangs_iff_cycle (pos : σ → κ) (Inv : σ → Prop) (hR : Relator.RightUnique R)
    (hkeep : ∀ s s', Inv s → Next body s s' → Inv s')
    (hfwd : ∀ s s', Inv s → Next body s s' → R (pos s) (pos s'))
    (hbwd : ∀ s q, Inv s → R (pos s) q → ∃ s', Next body s s' ∧ pos s' = q)
    (hdone : ∀ s, Inv s → ∃ x, (body s).Returns x)
    {s : σ} (h0 : Inv s) (hfin : {q | ReflTransGen R (pos s) q}.Finite) :
    (loop body s).Hangs ↔ ∃ q, ReflTransGen R (pos s) q ∧ TransGen R q q := by
  rw [← never_stuck_iff_cycle hR hfin, hangs_iff]
  constructor
  · rintro ⟨-, hret⟩ q hq
    obtain ⟨s', hreach, rfl, hinv⟩ := walk_reach hkeep hbwd h0 hq
    obtain ⟨x, hx⟩ := hdone s' hinv
    cases x with
    | inl s'' => exact ⟨pos s'', hfwd _ _ hinv hx⟩
    | inr r => exact absurd (loop_returns_iff.mpr ⟨s', hreach, hx⟩) (hret r)
  · intro hnext
    constructor
    · rw [loop_faults_iff]
      rintro ⟨s', hreach, hf⟩
      obtain ⟨x, hx⟩ := hdone s' (reach_walk hkeep hfwd h0 hreach).1
      exact hx.not_faults hf
    · intro r hr
      obtain ⟨s', hreach, hend⟩ := loop_returns_iff.mp hr
      obtain ⟨hinv, hwalk⟩ := reach_walk hkeep hfwd h0 hreach
      obtain ⟨q', hq'⟩ := hnext _ hwalk
      obtain ⟨s'', hs'', -⟩ := hbwd s' q' hinv hq'
      cases hend.unique hs''

end Exec

end Tracep
