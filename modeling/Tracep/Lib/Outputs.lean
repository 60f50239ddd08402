import Mathlib.Data.List.Induction

/-!
# Machines with an output for every input

What a machine puts out for an input depends on the inputs before, through
the state these lead to (`stateAfter`). So two machines put out the same over a
list of inputs where they do at every place of it (`AtEach`), and a machine
can be compared with what should be put out after a history (`byHistory`).
-/

namespace Tracep.Outputs

variable {σ ε ω : Type}

def run (handle : σ → ε → σ × ω) : σ → List ε → List ω
  | _, [] => []
  | s, x :: xs => (handle s x).2 :: run handle (handle s x).1 xs

/-- The state after some inputs. -/
def stateAfter (handle : σ → ε → σ × ω) (s : σ) (xs : List ε) : σ :=
  xs.foldl (fun s x => (handle s x).1) s

/-- The outputs that are given by what came before. -/
def byHistory (f : List ε → ε → ω) : List ε → List ω :=
  run (fun pre x => (pre ++ [x], f pre x)) []

/-- It holds of every input with the inputs before it. -/
def AtEach (p : List ε → ε → Prop) (xs : List ε) : Prop :=
  ∀ pre x post, xs = pre ++ x :: post → p pre x

variable {handle : σ → ε → σ × ω} {s : σ} {xs : List ε} {x : ε} {p q : List ε → ε → Prop}
  {f : List ε → ε → ω}

theorem run_snoc :
    run handle s (xs ++ [x]) = run handle s xs ++ [(handle (stateAfter handle s xs) x).2] := by
  induction xs generalizing s with
  | nil => rfl
  | cons y xs ih => exact congrArg ((handle s y).2 :: ·) ih

theorem stateAfter_snoc : stateAfter handle s (xs ++ [x]) = (handle (stateAfter handle s xs) x).1 :=
  List.foldl_append

theorem byHistory_snoc : byHistory f (xs ++ [x]) = byHistory f xs ++ [f xs x] := by
  have hafter : stateAfter (fun pre x => (pre ++ [x], f pre x)) [] xs = xs := by
    induction xs using List.reverseRecOn with
    | nil => rfl
    | append_singleton xs y ih => rw [stateAfter_snoc, ih]
  rw [byHistory, run_snoc, hafter]

theorem atEach_nil : AtEach p [] := by
  intro pre x post h
  exact absurd h.symm (List.append_ne_nil_of_right_ne_nil pre (List.cons_ne_nil x post))

theorem atEach_snoc : AtEach p (xs ++ [x]) ↔ AtEach p xs ∧ p xs x := by
  constructor
  · intro h
    refine ⟨fun pre y post hxs => h pre y (post ++ [x]) ?_, h xs x [] rfl⟩
    rw [hxs, List.append_assoc, List.cons_append]
  · rintro ⟨hxs, hx⟩ pre y post h
    rcases List.eq_nil_or_concat post with rfl | ⟨post, z, rfl⟩
    · obtain ⟨rfl, hy⟩ := List.append_inj' h rfl
      rw [← List.head_eq_of_cons_eq hy]
      exact hx
    · rw [List.concat_eq_append, ← List.cons_append, ← List.append_assoc] at h
      exact hxs pre y post (List.append_inj' h rfl).1

/-- A machine puts out what it should where it does after every history. -/
theorem run_eq_byHistory :
    run handle s xs = byHistory f xs ↔
      AtEach (fun pre x => (handle (stateAfter handle s pre) x).2 = f pre x) xs := by
  induction xs using List.reverseRecOn with
  | nil => exact iff_of_true rfl atEach_nil
  | append_singleton xs x ih =>
      rw [run_snoc, byHistory_snoc, atEach_snoc, ← ih]
      constructor
      · intro h
        obtain ⟨hxs, hx⟩ := List.append_inj' h rfl
        exact ⟨hxs, List.head_eq_of_cons_eq hx⟩
      · rintro ⟨hxs, hx⟩
        rw [hxs, hx]

end Tracep.Outputs
