import Tracep.Lib.Schedules
import Mathlib.Logic.Function.Basic

/-!
# Programs that share a system

A program does one operation after another and goes on as the system says
that each has succeeded or failed. Several of them take turns on one system
in any order, and one that is not given a turn any more has been killed.

What a program does is described by how its duty moves: `Keeps` says that
every operation of the program is a move from the duty it has then, and that
it ends with a duty it may end with. If each move from the duty of one program
keeps an invariant of the system and of the duties of all of them, the
invariant holds after every schedule (`run_keeps`).
-/

namespace Tracep

/-- A program that gives an `α`, by its next operation and how it goes on. -/
inductive Program (ω α : Type) where
  | done (a : α)
  | op (o : ω) (next : Bool → Program ω α)

namespace Program

variable {ω α β γ σ θ ι : Type}

def bind (f : α → Program ω β) : Program ω α → Program ω β
  | .done a => f a
  | .op o next => .op o fun ok => bind f (next ok)

instance monadProgram : Monad (Program ω) where
  pure := .done
  bind p f := p.bind f

/-- Do one operation. -/
def perform (o : ω) : Program ω Bool := .op o .done

/-- What the program gives, if it has ended. -/
def result : Program ω α → Option α
  | .done a => some a
  | .op _ _ => none

theorem result_eq_some {p : Program ω α} {a : α} : p.result = some a ↔ p = .done a := by
  cases p <;> simp [result]

theorem bind_assoc (p : Program ω α) (f : α → Program ω β) (g : β → Program ω γ) :
    (p >>= f) >>= g = p >>= fun a => f a >>= g := by
  induction p with
  | done a => rfl
  | op o next ih =>
      refine congrArg (Program.op o) ?_
      funext ok
      exact ih ok

theorem perform_bind_inj {o o' : ω} {f g : Bool → Program ω α}
    (h : (perform o >>= f) = (perform o' >>= g)) : o = o' ∧ ∀ ok, f ok = g ok := by
  obtain ⟨ho, hnext⟩ := Program.op.inj h
  exact ⟨ho, fun ok => congrFun hnext ok⟩

/-! ## Duties -/

/-- From a duty, by an operation, to the duty after it if it fails or succeeds. -/
abbrev Moves (ω θ : Type) := θ → ω → (Bool → θ) → Prop

/-- The program moves only so, and ends so. -/
def Keeps (moves : Moves ω θ) (ends : θ → α → Prop) : Program ω α → θ → Prop
  | .done a, d => ends d a
  | .op o next, d => ∃ d', moves d o d' ∧ ∀ ok, Keeps moves ends (next ok) (d' ok)

variable {moves : Moves ω θ} {ends ends' : θ → α → Prop} {p : Program ω α} {d : θ} {o : ω}

theorem keeps_bind {f : α → Program ω β} {ends : θ → β → Prop} :
    Keeps moves ends (p >>= f) d ↔ Keeps moves (fun d a => Keeps moves ends (f a) d) p d := by
  induction p generalizing d with
  | done a => rfl
  | op o next ih =>
      change (∃ d', moves d o d' ∧ ∀ ok, Keeps moves ends (next ok >>= f) (d' ok)) ↔ _
      simp only [ih]
      rfl

theorem keeps_perform_bind {f : Bool → Program ω α} {d' : Bool → θ} (hmove : moves d o d')
    (hnext : ∀ ok, Keeps moves ends (f ok) (d' ok)) : Keeps moves ends (perform o >>= f) d :=
  ⟨d', hmove, hnext⟩

theorem Keeps.mono (hkeeps : Keeps moves ends p d) (h : ∀ d a, ends d a → ends' d a) :
    Keeps moves ends' p d := by
  induction p generalizing d with
  | done a => exact h d a hkeeps
  | op o next ih =>
      obtain ⟨d', hmove, hnext⟩ := hkeeps
      exact ⟨d', hmove, fun ok => ih ok (hnext ok)⟩

theorem keeps_true (p : Program ω α) : Keeps (fun _ _ _ => True) (fun _ _ => True) p () := by
  induction p with
  | done a => trivial
  | op o next ih => exact ⟨fun _ => (), trivial, ih⟩

/-- Only what a program may end with is of interest to what comes after it. -/
theorem Keeps.bind_congr {f g : α → Program ω β} (hkeeps : Keeps moves ends p d)
    (h : ∀ d a, ends d a → f a = g a) : p >>= f = p >>= g := by
  induction p generalizing d with
  | done a => exact h d a hkeeps
  | op o next ih =>
      obtain ⟨d', -, hnext⟩ := hkeeps
      refine congrArg (Program.op o) ?_
      funext ok
      exact ih ok (hnext ok)

/-! ## Schedules -/

section Turns

variable [DecidableEq ι]

/-- One program does its next operation. -/
def turn (sys : σ → ω → σ × Bool) (x : σ × (ι → Program ω α)) (i : ι) :
    Option ((σ × (ι → Program ω α)) × Bool) :=
  match x.2 i with
  | .done _ => none
  | .op o next =>
      let (s, ok) := sys x.1 o
      some ((s, Function.update x.2 i (next ok)), ok)

variable {sys : σ → ω → σ × Bool} {s s' : σ} {ps ps' : ι → Program ω α} {is : List ι}
  {oks : List Bool} {I : σ → (ι → θ) → Prop} {ds : ι → θ} {i : ι}

/-- Programs that are not given a turn stay where they are. -/
theorem run_other (hrun : Schedules.run (turn sys) (s, ps) is = some ((s', ps'), oks))
    (hi : i ∉ is) : ps' i = ps i := by
  induction is generalizing s ps oks with
  | nil =>
      simp only [Schedules.run, Option.some.injEq, Prod.mk.injEq] at hrun
      rw [hrun.1.2]
  | cons j is ih =>
      obtain ⟨⟨s₁, ps₁⟩, ok, oks', hturn, hrest, -⟩ := Schedules.run_cons.mp hrun
      rw [ih hrest fun h => hi (List.mem_cons_of_mem j h)]
      unfold turn at hturn
      split at hturn
      · cases hturn
      · obtain ⟨⟨-, rfl⟩, -⟩ := by simpa only [Option.some.injEq, Prod.mk.injEq] using hturn
        have hij : i ≠ j := by
          rintro rfl
          exact hi List.mem_cons_self
        exact Function.update_of_ne hij _ _

/-- The invariant is kept, and so is what the programs do from then on. -/
theorem run_keeps {ends : ι → θ → α → Prop}
    (hinv : ∀ s ds i o d', I s ds → moves (ds i) o d' →
      I (sys s o).1 (Function.update ds i (d' (sys s o).2)))
    (hrun : Schedules.run (turn sys) (s, ps) is = some ((s', ps'), oks)) (hs : I s ds)
    (hps : ∀ i ∈ is, Keeps moves (ends i) (ps i) (ds i)) :
    ∃ ds', I s' ds' ∧ (∀ i ∈ is, Keeps moves (ends i) (ps' i) (ds' i))
      ∧ ∀ i ∉ is, ds' i = ds i := by
  suffices hgen : ∀ js : List ι, (∀ i ∈ is, i ∈ js) →
      (∀ i ∈ js, Keeps moves (ends i) (ps i) (ds i)) →
      ∃ ds', I s' ds' ∧ (∀ i ∈ js, Keeps moves (ends i) (ps' i) (ds' i))
        ∧ ∀ i ∉ js, ds' i = ds i from hgen is (fun _ => id) hps
  clear hps
  intro js hjs hkeeps
  induction is generalizing s ps ds oks with
  | nil =>
      simp only [Schedules.run, Option.some.injEq, Prod.mk.injEq] at hrun
      obtain ⟨⟨rfl, rfl⟩, -⟩ := hrun
      exact ⟨ds, hs, hkeeps, fun _ _ => rfl⟩
  | cons i is ih =>
      obtain ⟨⟨s₁, ps₁⟩, ok, oks', hturn, hrest, -⟩ := Schedules.run_cons.mp hrun
      have hi : i ∈ js := hjs i List.mem_cons_self
      have hki := hkeeps i hi
      unfold turn at hturn
      split at hturn
      · cases hturn
      next o next hop =>
      obtain ⟨⟨rfl, rfl⟩, -⟩ := by simpa only [Option.some.injEq, Prod.mk.injEq] using hturn
      rw [show ps i = .op o next from hop] at hki
      obtain ⟨d', hmove, hnext⟩ := hki
      obtain ⟨ds', hinv', hkeeps', hother⟩ := ih hrest (hinv s ds i o d' hs hmove)
        (fun j hj => hjs j (List.mem_cons_of_mem i hj)) (by
          intro j hj
          by_cases hji : j = i
          · subst hji
            rw [Function.update_self, Function.update_self]
            exact hnext _
          · rw [Function.update_of_ne hji, Function.update_of_ne hji]
            exact hkeeps j hj)
      refine ⟨ds', hinv', hkeeps', fun j hj => ?_⟩
      have hji : j ≠ i := by
        rintro rfl
        exact hj hi
      rw [hother j hj, Function.update_of_ne hji]

end Turns

end Program

end Tracep
