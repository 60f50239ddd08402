import Tracep.Lib.Asking
import Tracep.Lib.History

/-!
# Machines that handle events

A machine handles one event after another, each with an output (`run`). What
happened at an event is a `Step`, and the steps of a run are a trace
(`run_trace`), so what relates the state of a machine to the events before
it is proved by induction on the trace.
-/

namespace Tracep.Machine

open Asking Exec History

variable {σ ε ω : Type}

/-- An event with the output for it, the state and the number of questions asked before and
after. -/
structure Step (σ ε ω : Type) where
  before : σ
  start : Nat
  event : ε
  out : ω
  after : σ
  stop : Nat

/-- Handle events one after another. -/
def run (handle : σ → ε → Asking (σ × ω)) (s : σ) : List ε → Asking (σ × List (Step σ ε ω))
  | [] => pure (s, [])
  | ev :: evs => do
      let start ← get
      let (s', o) ← handle s ev
      let stop ← get
      let (s'', steps) ← run handle s' evs
      return (s'', ⟨s, start, ev, o, s', stop⟩ :: steps)

/-- The machine takes the step. -/
structure Next (handle : σ → ε → Asking (σ × ω)) (s : σ × Nat) (x : Step σ ε ω) (s' : σ × Nat) :
    Prop where
  before : s = (x.before, x.start)
  after : s' = (x.after, x.stop)
  handled : Gives (handle x.before x.event) x.start (x.after, x.out) x.stop

variable {handle : σ → ε → Asking (σ × ω)} {s s' : σ} {now later : Nat} {ev : ε} {evs : List ε}
  {steps h rest : List (Step σ ε ω)} {x : Step σ ε ω}

@[simp] theorem gives_run_nil :
    Gives (run handle s []) now (s', steps) later ↔ s' = s ∧ steps = [] ∧ later = now := by
  rw [run, gives_pure, Prod.mk.injEq, and_assoc]

theorem gives_run_cons : Gives (run handle s (ev :: evs)) now (s', steps) later ↔
    ∃ s₁ o mid rest, Gives (handle s ev) now (s₁, o) mid
      ∧ Gives (run handle s₁ evs) mid (s', rest) later
      ∧ steps = ⟨s, now, ev, o, s₁, mid⟩ :: rest := by
  simp only [run, gives_bind, gives_get, gives_pure, Prod.exists, Prod.mk.injEq]
  constructor
  · rintro ⟨_, _, ⟨rfl, rfl⟩, s₁, o, mid, hev, _, _, ⟨rfl, rfl⟩, s₂, rest, later', hevs,
      ⟨rfl, rfl⟩, rfl⟩
    exact ⟨s₁, o, _, rest, hev, hevs, rfl⟩
  · rintro ⟨s₁, o, mid, rest, hev, hevs, rfl⟩
    exact ⟨_, _, ⟨rfl, rfl⟩, s₁, o, mid, hev, _, _, ⟨rfl, rfl⟩, s', rest, later, hevs,
      ⟨rfl, rfl⟩, rfl⟩

/-- The steps of a run are a trace from where they start. -/
theorem run_trace_append {start : σ × Nat} (htrace : Trace (Next handle) start h (s, now))
    (hrun : Gives (run handle s evs) now (s', steps) later) :
    Trace (Next handle) start (h ++ steps) (s', later) := by
  induction evs generalizing h s now steps with
  | nil =>
      obtain ⟨rfl, rfl, rfl⟩ := gives_run_nil.mp hrun
      rw [List.append_nil]
      exact htrace
  | cons ev evs ih =>
      obtain ⟨s₁, o, mid, rest, hev, hevs, rfl⟩ := gives_run_cons.mp hrun
      have hnext := ih (htrace.snoc (x := ⟨s, now, ev, o, s₁, mid⟩) ⟨rfl, rfl, hev⟩) hevs
      rw [List.append_assoc] at hnext
      exact hnext

theorem run_trace (hrun : Gives (run handle s evs) now (s', steps) later) :
    Trace (Next handle) (s, now) steps (s', later) := run_trace_append .nil hrun

/-- Each step of a run is taken where the steps before it have led to. -/
theorem run_next (hrun : Gives (run handle s evs) now (s', h ++ x :: rest) later) :
    Trace (Next handle) (s, now) h (x.before, x.start)
      ∧ Gives (handle x.before x.event) x.start (x.after, x.out) x.stop := by
  obtain ⟨_, _, htrace, rfl, -, hx⟩ := (run_trace hrun).split
  exact ⟨htrace, hx⟩

/-- Induction on the steps of a run: what holds before them, and after each step if it held
before, holds in the state they lead to. -/
@[elab_as_elim]
theorem trace_induction {s₀ : σ} {start : Nat}
    {motive : (h : List (Step σ ε ω)) → (s : σ) → (now : Nat) →
      Trace (Next handle) (s₀, start) h (s, now) → Prop}
    (nil : motive [] s₀ start .nil)
    (snoc : ∀ (h : List (Step σ ε ω)) (x : Step σ ε ω)
      (ht : Trace (Next handle) (s₀, start) h (x.before, x.start))
      (hx : Gives (handle x.before x.event) x.start (x.after, x.out) x.stop),
      motive h x.before x.start ht →
        motive (h ++ [x]) x.after x.stop (ht.snoc ⟨rfl, rfl, hx⟩))
    {h : List (Step σ ε ω)} {s : σ} {now : Nat} (ht : Trace (Next handle) (s₀, start) h (s, now)) :
    motive h s now ht := by
  have hall : ∀ {h : List (Step σ ε ω)} {r : σ × Nat} (ht : Trace (Next handle) (s₀, start) h r),
      motive h r.1 r.2 ht := by
    intro h r ht
    induction ht with
    | nil => exact nil
    | @snoc h r r' x ht hnext ih =>
        obtain ⟨rfl, rfl, hx⟩ := hnext
        exact snoc h x ht hx ih
  exact hall ht

/-- The steps of a run are those of its events. -/
theorem run_events (hrun : Gives (run handle s evs) now (s', steps) later) :
    steps.map Step.event = evs := by
  induction evs generalizing s now steps with
  | nil =>
      obtain ⟨-, rfl, -⟩ := gives_run_nil.mp hrun
      rfl
  | cons ev evs ih =>
      obtain ⟨s₁, o, mid, rest, -, hevs, rfl⟩ := gives_run_cons.mp hrun
      rw [List.map_cons, ih hevs]

end Tracep.Machine
