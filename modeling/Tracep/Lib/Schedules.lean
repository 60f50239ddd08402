import Tracep.Lib.History
import Mathlib.Data.Option.Basic

/-!
# Schedules

A machine whose next action is chosen from outside takes those that are
possible where it is (`run`). An invariant of all its runs is proved along
the trace of one (`run_trace`), and two machines say the same over every
schedule if their steps keep a relation between their states (`run_rel`).
-/

namespace Tracep.Schedules

open History

variable {σ τ α ω : Type} {step : σ → α → Option (σ × ω)} {step' : τ → α → Option (τ × ω)}
  {s s' : σ} {t : τ} {as : List α} {os : List ω}

/-- Take the actions one after another. There is no run if one of them is not possible. -/
def run (step : σ → α → Option (σ × ω)) : σ → List α → Option (σ × List ω)
  | s, [] => some (s, [])
  | s, a :: as => do
      let (s', o) ← step s a
      let (s'', os) ← run step s' as
      return (s'', o :: os)

/-- The machine takes the action, and says this. -/
def Next (step : σ → α → Option (σ × ω)) (s : σ) (x : α × ω) (s' : σ) : Prop :=
  step s x.1 = some (s', x.2)

theorem run_cons {a : α} : run step s (a :: as) = some (s', os) ↔
    ∃ s₁ o os', step s a = some (s₁, o) ∧ run step s₁ as = some (s', os') ∧ os = o :: os' := by
  simp only [run, Option.bind_eq_bind, Option.bind_eq_some_iff, Option.pure_def, Option.some.injEq,
    Prod.mk.injEq, Prod.exists]
  constructor
  · rintro ⟨s₁, o, hstep, s₂, os', hrun, rfl, rfl⟩
    exact ⟨s₁, o, os', hstep, hrun, rfl⟩
  · rintro ⟨s₁, o, os', hstep, hrun, rfl⟩
    exact ⟨s₁, o, hstep, s', os', hrun, rfl, rfl⟩

/-- One schedule after another. -/
theorem run_append {s'' : σ} {bs : List α} {os' : List ω} (has : run step s as = some (s', os))
    (hbs : run step s' bs = some (s'', os')) : run step s (as ++ bs) = some (s'', os ++ os') := by
  induction as generalizing s os with
  | nil =>
      simp only [run, Option.some.injEq, Prod.mk.injEq] at has
      obtain ⟨rfl, rfl⟩ := has
      exact hbs
  | cons a as ih =>
      obtain ⟨s₁, o, os₁, hstep, hrest, rfl⟩ := run_cons.mp has
      exact run_cons.mpr ⟨s₁, o, os₁ ++ os', hstep, ih hrest, rfl⟩

theorem run_trace_append {s₀ : σ} {h : List (α × ω)} (ht : Trace (Next step) s₀ h s)
    (hrun : run step s as = some (s', os)) : Trace (Next step) s₀ (h ++ as.zip os) s' := by
  induction as generalizing s h os with
  | nil =>
      simp only [run, Option.some.injEq, Prod.mk.injEq] at hrun
      obtain ⟨rfl, rfl⟩ := hrun
      simpa using ht
  | cons a as ih =>
      obtain ⟨s₁, o, os', hstep, hrest, rfl⟩ := run_cons.mp hrun
      have h₁ := ih (ht.snoc (x := (a, o)) hstep) hrest
      simpa using h₁

/-- A run is a trace of its actions with what is said at them. -/
theorem run_trace (hrun : run step s as = some (s', os)) :
    Trace (Next step) s (as.zip os) s' := by
  simpa using run_trace_append .nil hrun

/-- Every action of a run was possible where it was taken. -/
theorem possible_of_run {a : α} (hrun : run step s as = some (s', os)) (ha : a ∈ as) :
    ∃ s₁ x, step s₁ a = some x := by
  induction as generalizing s os with
  | nil => cases ha
  | cons b as ih =>
      obtain ⟨s₁, o, os', hstep, hrest, rfl⟩ := run_cons.mp hrun
      cases ha with
      | head => exact ⟨s, (s₁, o), hstep⟩
      | tail _ ha => exact ih hrest ha

/-- Both machines can take the action or neither can, and they say the same. -/
def Matched (R : σ → τ → Prop) (x : Option (σ × ω)) (y : Option (τ × ω)) : Prop :=
  Option.Rel (fun x y => R x.1 y.1 ∧ x.2 = y.2) x y

/-- Steps that keep a relation make runs that do. -/
theorem run_rel {R : σ → τ → Prop}
    (hstep : ∀ a ∈ as, ∀ s t, R s t → Matched R (step s a) (step' t a)) (hst : R s t) :
    Option.Rel (fun x y => R x.1 y.1 ∧ x.2 = y.2) (run step s as) (run step' t as) := by
  induction as generalizing s t with
  | nil => exact .some ⟨hst, rfl⟩
  | cons a as ih =>
      have ha := hstep a List.mem_cons_self s t hst
      have hsteps : ∀ b ∈ as, ∀ s t, R s t → Matched R (step s b) (step' t b) :=
        fun b hb => hstep b (List.mem_cons_of_mem a hb)
      simp only [run, Option.bind_eq_bind]
      cases hs : step s a <;> cases ht : step' t a <;> rw [hs, ht] at ha
      · exact .none
      · cases ha
      · cases ha
      · next x y =>
          obtain ⟨s₁, o⟩ := x
          obtain ⟨t₁, o'⟩ := y
          cases ha with
          | some h =>
              obtain ⟨hR, rfl⟩ : R s₁ t₁ ∧ o = o' := h
              have hrest := ih hsteps hR
              simp only [Option.bind_some]
              cases hs₁ : run step s₁ as <;> cases ht₁ : run step' t₁ as <;> rw [hs₁, ht₁] at hrest
              · exact .none
              · cases hrest
              · cases hrest
              · cases hrest with
                | some h => exact .some ⟨h.1, congrArg _ h.2⟩

/-- What is said over a schedule. -/
def said (step : σ → α → Option (σ × ω)) (s : σ) (as : List α) : Option (List ω) :=
  (run step s as).map Prod.snd

theorem said_eq_some : said step s as = some os ↔ ∃ s', run step s as = some (s', os) := by
  simp [said]

theorem said_eq {R : σ → τ → Prop}
    (hstep : ∀ a ∈ as, ∀ s t, R s t → Matched R (step s a) (step' t a)) (hst : R s t) :
    said step s as = said step' t as := by
  have h := run_rel hstep hst
  unfold said
  cases hs : run step s as <;> cases ht : run step' t as <;> rw [hs, ht] at h
  · rfl
  · cases h
  · cases h
  · cases h with
    | some h => simp [h.2]

end Tracep.Schedules
