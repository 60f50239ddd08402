import Tracep.Lib.Loop

/-!
# Computations that ask

A program that looks at the system it runs on gets an answer of its own to
each question, and the next answer to the same question may be another one.
An `Asking` computation counts the questions it has asked, the answers are
functions of that count, and `Gives` says what a computation that starts at
one count gives at a later one. Sequencing has one rule (`gives_bind`), and
so has each way to begin (`gives_observe`, `gives_lift`).
-/

namespace Tracep

/-- A checked computation that asks questions, and counts them. -/
abbrev Asking (α : Type) := StateT Nat Exec α

/-- Ask a question that has these answers. -/
def observe {α : Type} (answers : Nat → α) : Asking α := fun now => pure (answers now, now + 1)

/-- Ask it only if it is called for. -/
def observeIf {α : Type} (asked : Bool) (answers : Nat → α) : Asking (Option α) :=
  if asked then some <$> observe answers else pure none

namespace Asking

open Exec

variable {α β : Type} {a b : α} {now later : Nat}

/-- Repeat `body` from `s` until it leaves the loop. -/
def loop {σ ρ : Type} (body : σ → Asking (σ ⊕ ρ)) (s : σ) : Asking ρ := fun now =>
  Exec.loop (fun s => do
    match ← (body s.1).run s.2 with
    | (.inl s', now) => return .inl (s', now)
    | (.inr r, now) => return .inr (r, now)) (s, now)

/-- The computation that starts now gives `a` later. -/
def Gives (x : Asking α) (now : Nat) (a : α) (later : Nat) : Prop := (x.run now).Returns (a, later)

theorem Gives.unique {x : Asking α} {later' : Nat} (h : Gives x now a later)
    (h' : Gives x now b later') : a = b ∧ later = later' :=
  Prod.mk.inj (Returns.unique h h')

@[simp] theorem gives_pure : Gives (pure a) now b later ↔ b = a ∧ later = now := by
  rw [Gives, StateT.run_pure, returns_pure, Prod.mk.injEq]

@[simp] theorem gives_bind {x : Asking α} {f : α → Asking β} {b : β} :
    Gives (x >>= f) now b later ↔ ∃ a mid, Gives x now a mid ∧ Gives (f a) mid b later := by
  rw [Gives, StateT.run_bind, returns_bind, Prod.exists]
  rfl

@[simp] theorem gives_observe {answers : Nat → α} :
    Gives (observe answers) now a later ↔ a = answers now ∧ later = now + 1 := by
  rw [← Prod.mk.injEq]
  exact returns_pure

@[simp] theorem gives_get {n : Nat} :
    Gives (get : Asking Nat) now n later ↔ n = now ∧ later = now := by
  rw [← Prod.mk.injEq]
  exact returns_pure

@[simp] theorem gives_lift {x : Exec α} :
    Gives (liftM x : Asking α) now a later ↔ x.Returns a ∧ later = now := by
  change (x >>= fun a => pure (a, now)).Returns (a, later) ↔ _
  rw [returns_bind]
  constructor
  · rintro ⟨a', hx, heq⟩
    obtain ⟨rfl, rfl⟩ := Prod.mk.inj (returns_pure.mp heq)
    exact ⟨hx, rfl⟩
  · rintro ⟨hx, rfl⟩
    exact ⟨a, hx, returns_pure.mpr rfl⟩

theorem not_gives_fault : ¬Gives (liftM (fault : Exec α)) now a later := by
  rw [gives_lift]
  exact fun h => not_returns_fault h.1

section Loop

variable {σ ρ : Type} {body : σ → Asking (σ ⊕ ρ)} {s s' : σ} {r : ρ}

theorem gives_loop_now (h : Gives (body s) now (.inr r) later) :
    Gives (loop body s) now r later := by
  refine loop_returns_now ?_
  exact h.bind_iff.mpr (returns_pure.mpr rfl)

theorem gives_loop_next {mid : Nat} (h : Gives (body s) now (.inl s') mid)
    (hr : Gives (loop body s') mid r later) : Gives (loop body s) now r later := by
  refine @Next.loop_returns _ _ _ _ (s', mid) _ ?_ hr
  exact h.bind_iff.mpr (returns_pure.mpr rfl)

/-- A loop gives what the body leaves it with. -/
theorem exists_of_gives_loop (h : Gives (loop body s) now r later) :
    ∃ s' mid, Gives (body s') mid (.inr r) later := by
  obtain ⟨⟨s', mid⟩, -, hbody⟩ := loop_returns_iff.mp h
  obtain ⟨⟨x, after⟩, hx, hout⟩ := returns_bind.mp hbody
  cases x with
  | inl s'' => cases returns_pure.mp hout
  | inr r' =>
      obtain ⟨rfl, rfl⟩ := Prod.mk.inj (Sum.inr.inj (returns_pure.mp hout))
      exact ⟨s', mid, hx⟩

end Loop

/-- What is computed from what a computation gives, once that is known within some budget. -/
theorem exists_gives (x : Asking α) (f : α → β) (b : β) (now n : Nat)
    (h : (((x.run now).run n).bind fun r => .ok (f r.1)) = .ok b) :
    ∃ a later, Gives x now a later ∧ f a = b := by
  obtain ⟨⟨a, later⟩, hx, hf⟩ := exists_returns h
  exact ⟨a, later, hx, hf⟩

end Asking

end Tracep
