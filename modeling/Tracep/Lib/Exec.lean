import Mathlib.Logic.Relation
import Mathlib.Order.Basic

/-!
# Checked computations that may run forever

The execution layer the program models are written in. An `Exec α` is a
computation observed through a loop budget: given `n` loop iterations it
has either finished (`ok`), evaluated an access outside its memory
(`fault`), or is still running (`hang`). The invariant `mono` says that an
observation, once made, is final, so nothing depends on the budget: the
three judgements `Returns`, `Faults` and `Hangs` forget it, exactly one of
them applies (`outcome_cases`, `Returns.unique`, `Returns.not_faults`), and
sequencing has one rule for each (`returns_bind`, `faults_bind`). `Same`
relates computations that the judgements cannot tell apart.

A fault is reported at the iteration that makes the access, so "does not
fault" speaks about every prefix of a run, finished or not.
-/

namespace Tracep

/-- What a computation shows within a loop budget. -/
inductive Outcome (α : Type) where
  | hang
  | fault
  | ok (a : α)
deriving Repr, DecidableEq

namespace Outcome

variable {α β : Type}

def bind : Outcome α → (α → Outcome β) → Outcome β
  | .hang, _ => .hang
  | .fault, _ => .fault
  | .ok a, f => f a

theorem bind_eq_ok {x : Outcome α} {f : α → Outcome β} {b : β} :
    x.bind f = .ok b ↔ ∃ a, x = .ok a ∧ f a = .ok b := by
  cases x <;> simp [bind]

theorem bind_eq_fault {x : Outcome α} {f : α → Outcome β} :
    x.bind f = .fault ↔ x = .fault ∨ ∃ a, x = .ok a ∧ f a = .fault := by
  cases x <;> simp [bind]

theorem bind_ne_hang {x : Outcome α} {f : α → Outcome β} :
    x.bind f ≠ .hang ↔ x = .fault ∨ ∃ a, x = .ok a ∧ f a ≠ .hang := by
  cases x <;> simp [bind]

end Outcome

/-- A computation together with the finality of its observations. -/
structure Exec (α : Type) where
  run : Nat → Outcome α
  mono : ∀ {n m : Nat}, n ≤ m → run n ≠ .hang → run m = run n

namespace Exec

variable {α β : Type}

@[ext] theorem ext {x y : Exec α} (h : ∀ n, x.run n = y.run n) : x = y := by
  cases x; cases y; congr; exact funext h

/-- An access outside the memory at hand. -/
def fault : Exec α := ⟨fun _ => .fault, fun _ _ => rfl⟩

instance : Monad Exec where
  pure a := ⟨fun _ => .ok a, fun _ _ => rfl⟩
  bind x f :=
    ⟨fun n => (x.run n).bind fun a => (f a).run n, by
      intro n m hnm hne
      rcases Outcome.bind_ne_hang.mp hne with hx | ⟨a, hx, hf⟩
      · have hm : x.run m = .fault := by rw [x.mono hnm (by simp [hx]), hx]
        simp [hm, hx, Outcome.bind]
      · have hm : x.run m = .ok a := by rw [x.mono hnm (by simp [hx]), hx]
        simp only [hm, hx, Outcome.bind]
        exact (f a).mono hnm hf⟩

@[simp] theorem run_pure (a : α) (n : Nat) : (pure a : Exec α).run n = .ok a := rfl

@[simp] theorem run_bind (x : Exec α) (f : α → Exec β) (n : Nat) :
    (x >>= f).run n = (x.run n).bind fun a => (f a).run n := rfl

@[simp] theorem run_fault (n : Nat) : (fault : Exec α).run n = .fault := rfl

instance : LawfulMonad Exec := LawfulMonad.mk' Exec
  (fun x => ext fun n => by
    change (x.run n).bind _ = x.run n
    cases x.run n <;> rfl)
  (fun _ _ => rfl)
  (fun x f g => ext fun n => by
    simp only [run_bind]
    cases x.run n <;> rfl)

@[simp] theorem fault_bind (f : α → Exec β) : (fault >>= f) = fault :=
  ext fun _ => rfl

/-! ## The three judgements -/

/-- The computation finishes with result `a`. -/
def Returns (x : Exec α) (a : α) : Prop := ∃ n, x.run n = .ok a

/-- The computation evaluates an access outside its memory. -/
def Faults (x : Exec α) : Prop := ∃ n, x.run n = .fault

/-- The computation runs forever. -/
def Hangs (x : Exec α) : Prop := ∀ n, x.run n = .hang

theorem Returns.run_of_le {x : Exec α} {a : α} {n m : Nat}
    (h : x.run n = .ok a) (hnm : n ≤ m) : x.run m = .ok a := by
  rw [x.mono hnm (by simp [h]), h]

theorem Faults.run_of_le {x : Exec α} {n m : Nat}
    (h : x.run n = .fault) (hnm : n ≤ m) : x.run m = .fault := by
  rw [x.mono hnm (by simp [h]), h]

theorem Returns.unique {x : Exec α} {a b : α} (ha : x.Returns a) (hb : x.Returns b) :
    a = b := by
  obtain ⟨n, hn⟩ := ha
  obtain ⟨m, hm⟩ := hb
  have h1 := run_of_le hn (Nat.le_max_left n m)
  have h2 := run_of_le hm (Nat.le_max_right n m)
  exact Outcome.ok.inj (h1.symm.trans h2)

theorem Returns.not_faults {x : Exec α} {a : α} (ha : x.Returns a) : ¬x.Faults := by
  rintro ⟨m, hm⟩
  obtain ⟨n, hn⟩ := ha
  have h1 := run_of_le hn (Nat.le_max_left n m)
  have h2 := Faults.run_of_le hm (Nat.le_max_right n m)
  rw [h1] at h2
  cases h2

theorem Returns.not_hangs {x : Exec α} {a : α} (ha : x.Returns a) : ¬x.Hangs := by
  intro hh
  obtain ⟨n, hn⟩ := ha
  rw [hh n] at hn
  cases hn

theorem outcome_cases (x : Exec α) : x.Hangs ∨ x.Faults ∨ ∃ a, x.Returns a := by
  by_cases hh : x.Hangs
  · exact Or.inl hh
  · obtain ⟨n, hn⟩ := not_forall.mp hh
    cases hx : x.run n with
    | hang => exact absurd hx hn
    | fault => exact Or.inr (Or.inl ⟨n, hx⟩)
    | ok a => exact Or.inr (Or.inr ⟨a, n, hx⟩)

/-- A safe computation returns unless it hangs. -/
theorem returns_iff_not_hangs {x : Exec α} (hf : ¬x.Faults) :
    (∃ a, x.Returns a) ↔ ¬x.Hangs := by
  constructor
  · rintro ⟨a, ha⟩
    exact ha.not_hangs
  · intro hh
    rcases x.outcome_cases with h | h | h
    · exact absurd h hh
    · exact absurd h hf
    · exact h

theorem hangs_iff {x : Exec α} : x.Hangs ↔ ¬x.Faults ∧ ∀ a, ¬x.Returns a := by
  constructor
  · intro hh
    refine ⟨?_, fun a ha => ha.not_hangs hh⟩
    rintro ⟨n, hn⟩
    rw [hh n] at hn
    cases hn
  · rintro ⟨hf, hr⟩
    rcases x.outcome_cases with hh | hf' | ⟨a, ha⟩
    · exact hh
    · exact absurd hf' hf
    · exact absurd ha (hr a)

/-- What is computed from a result, once it is known within some budget. -/
theorem exists_returns {x : Exec α} {f : α → β} {b : β} {n : Nat}
    (h : ((x.run n).bind fun a => .ok (f a)) = .ok b) : ∃ a, x.Returns a ∧ f a = b := by
  obtain ⟨a, ha, hb⟩ := Outcome.bind_eq_ok.mp h
  exact ⟨a, ⟨n, ha⟩, Outcome.ok.inj hb⟩

/-! ## Rules for sequencing -/

@[simp] theorem returns_pure {a b : α} : (pure a : Exec α).Returns b ↔ b = a := by
  simp [Returns, eq_comm]

@[simp] theorem not_faults_pure {a : α} : ¬(pure a : Exec α).Faults := by
  simp [Faults]

@[simp] theorem not_returns_fault {a : α} : ¬(fault : Exec α).Returns a := by
  simp [Returns]

@[simp] theorem faults_fault : (fault : Exec α).Faults := ⟨0, rfl⟩

@[simp] theorem returns_bind {x : Exec α} {f : α → Exec β} {b : β} :
    (x >>= f).Returns b ↔ ∃ a, x.Returns a ∧ (f a).Returns b := by
  constructor
  · rintro ⟨n, hn⟩
    obtain ⟨a, ha, hb⟩ := Outcome.bind_eq_ok.mp hn
    exact ⟨a, ⟨n, ha⟩, n, hb⟩
  · rintro ⟨a, ⟨n, hn⟩, m, hm⟩
    refine ⟨max n m, Outcome.bind_eq_ok.mpr ⟨a, ?_, ?_⟩⟩
    · exact Returns.run_of_le hn (Nat.le_max_left n m)
    · exact Returns.run_of_le hm (Nat.le_max_right n m)

@[simp] theorem faults_bind {x : Exec α} {f : α → Exec β} :
    (x >>= f).Faults ↔ x.Faults ∨ ∃ a, x.Returns a ∧ (f a).Faults := by
  constructor
  · rintro ⟨n, hn⟩
    rcases Outcome.bind_eq_fault.mp hn with hx | ⟨a, ha, hf⟩
    · exact Or.inl ⟨n, hx⟩
    · exact Or.inr ⟨a, ⟨n, ha⟩, n, hf⟩
  · rintro (⟨n, hn⟩ | ⟨a, ⟨n, hn⟩, m, hm⟩)
    · exact ⟨n, Outcome.bind_eq_fault.mpr (Or.inl hn)⟩
    · refine ⟨max n m, Outcome.bind_eq_fault.mpr (Or.inr ⟨a, ?_, ?_⟩)⟩
      · exact Returns.run_of_le hn (Nat.le_max_left n m)
      · exact Faults.run_of_le hm (Nat.le_max_right n m)

/-- Once the first part is known, the sequence returns what the rest does. -/
theorem Returns.bind_iff {x : Exec α} {a : α} (hx : x.Returns a) {f : α → Exec β} {b : β} :
    (x >>= f).Returns b ↔ (f a).Returns b := by
  rw [returns_bind]
  constructor
  · rintro ⟨a', ha', hb⟩
    exact hx.unique ha' ▸ hb
  · exact fun hb => ⟨a, hx, hb⟩

theorem Returns.faults_bind_iff {x : Exec α} {a : α} (hx : x.Returns a)
    {f : α → Exec β} : (x >>= f).Faults ↔ (f a).Faults := by
  rw [faults_bind]
  constructor
  · rintro (hf | ⟨a', ha', hf⟩)
    · exact absurd hf hx.not_faults
    · exact hx.unique ha' ▸ hf
  · exact fun hf => Or.inr ⟨a, hx, hf⟩

/-- A safe computation followed by a safe continuation is safe. -/
theorem not_faults_bind {x : Exec α} {f : α → Exec β} (hx : ¬x.Faults)
    (hf : ∀ a, x.Returns a → ¬(f a).Faults) : ¬(x >>= f).Faults := by
  rw [faults_bind]
  rintro (h | ⟨a, ha, h⟩)
  · exact hx h
  · exact hf a ha h

theorem Hangs.bind {x : Exec α} (h : x.Hangs) (f : α → Exec β) : (x >>= f).Hangs := by
  intro n
  rw [run_bind, h n]
  rfl

theorem Faults.bind {x : Exec α} (h : x.Faults) (f : α → Exec β) : (x >>= f).Faults :=
  faults_bind.mpr (Or.inl h)

/-- What is done for each element of a list returns the results for each. -/
theorem returns_mapM {f : α → Exec β} {g : α → β} (h : ∀ a, (f a).Returns (g a)) :
    ∀ l : List α, (l.mapM f).Returns (l.map g)
  | [] => returns_pure.mpr rfl
  | a :: l => by
      rw [List.mapM_cons, (h a).bind_iff, (returns_mapM h l).bind_iff]
      exact returns_pure.mpr rfl

/-! ## Computations with the same judgements -/

/-- `x` and `y` return the same, fault alike and hang alike; the budgets they
need may differ. -/
structure Same (x y : Exec α) : Prop where
  returns : ∀ a, x.Returns a ↔ y.Returns a
  faults : x.Faults ↔ y.Faults

theorem Same.refl (x : Exec α) : Same x x := ⟨fun _ => Iff.rfl, Iff.rfl⟩

theorem Same.trans {x y z : Exec α} (h : Same x y) (h' : Same y z) : Same x z :=
  ⟨fun a => (h.returns a).trans (h'.returns a), h.faults.trans h'.faults⟩

theorem Same.hangs {x y : Exec α} (h : Same x y) : x.Hangs ↔ y.Hangs := by
  simp only [hangs_iff, h.faults, h.returns]

theorem Same.bind {x y : Exec α} (h : Same x y) {f g : α → Exec β} (hfg : ∀ a, Same (f a) (g a)) :
    Same (x >>= f) (y >>= g) where
  returns b := by
    simp only [returns_bind, h.returns, (hfg _).returns]
  faults := by
    simp only [faults_bind, h.returns, h.faults, (hfg _).faults]

theorem Returns.same {x : Exec α} {a : α} (h : x.Returns a) : Same x (pure a) :=
  ⟨fun _ => ⟨fun hb => h.unique hb ▸ returns_pure.mpr rfl, fun hb => returns_pure.mp hb ▸ h⟩,
    iff_of_false h.not_faults not_faults_pure⟩

theorem Returns.same_bind {x : Exec α} {a : α} (h : x.Returns a) (f : α → Exec β) :
    Same (x >>= f) (f a) :=
  ⟨fun _ => h.bind_iff, h.faults_bind_iff⟩

end Exec

end Tracep
