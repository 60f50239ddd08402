import Mathlib.Data.List.Induction

/-!
# Histories

The runs of a transition system with the steps they consist of, earliest
first (`Trace`), and what holds of a list of steps when one of a kind is
followed by none of another (`Since`).

An invariant that relates the state to the steps that led to it is proved
by induction on the trace, where each case adds one step at the end;
`since_snoc` says what that step does to a `Since`, and `since_append` what
several do. What then holds in the middle of a run holds of the trace up to
there (`Trace.split`).
-/

namespace Tracep.History

variable {σ τ : Type} {next : σ → τ → σ → Prop} {start s s' : σ} {p q : τ → Prop}
  {h h' rest : List τ} {x : τ}

/-- A run from the start, with its steps. -/
inductive Trace (next : σ → τ → σ → Prop) (start : σ) : List τ → σ → Prop
  | nil : Trace next start [] start
  | snoc {h : List τ} {s s' : σ} {x : τ} : Trace next start h s → next s x s' →
      Trace next start (h ++ [x]) s'

/-- A step of a run is taken in the state that the run so far has led to. -/
theorem Trace.split (ht : Trace next start (h ++ x :: rest) s') :
    ∃ s₁ s₂, Trace next start h s₁ ∧ next s₁ x s₂ := by
  induction rest using List.reverseRecOn generalizing s' with
  | nil =>
      generalize hh : h ++ [x] = steps at ht
      cases ht with
      | nil => exact absurd hh (List.concat_ne_nil x h)
      | snoc hs hx =>
          obtain ⟨rfl, hlast⟩ := List.append_inj' hh rfl
          obtain rfl := List.head_eq_of_cons_eq hlast
          exact ⟨_, _, hs, hx⟩
  | append_singleton rest y ih =>
      generalize hh : h ++ x :: (rest ++ [y]) = steps at ht
      rw [← List.cons_append, ← List.append_assoc] at hh
      cases ht with
      | nil => exact absurd hh (List.concat_ne_nil y _)
      | snoc hs hy =>
          obtain ⟨rfl, -⟩ := List.append_inj' hh rfl
          exact ih hs

/-- There is a step with `p`, and none with `q` after it. -/
def Since (p q : τ → Prop) (h : List τ) : Prop :=
  ∃ h₁ x h₂, h = h₁ ++ x :: h₂ ∧ p x ∧ ∀ y ∈ h₂, ¬q y

theorem not_since_of_forall (hnone : ∀ x ∈ h, ¬p x) : ¬Since p q h := by
  rintro ⟨h₁, x, h₂, rfl, hx, -⟩
  exact hnone x (List.mem_append_right h₁ List.mem_cons_self) hx

theorem not_since_nil : ¬Since p q [] := not_since_of_forall (List.forall_mem_nil _)

theorem since_append : Since p q (h ++ h') ↔ Since p q h' ∨ Since p q h ∧ ∀ y ∈ h', ¬q y := by
  constructor
  · rintro ⟨h₁, x, h₂, heq, hx, hnone⟩
    rcases List.append_eq_append_iff.mp heq with ⟨as, rfl, has⟩ | ⟨bs, rfl, hbs⟩
    · exact Or.inl ⟨as, x, h₂, has, hx, hnone⟩
    · cases bs with
      | nil => exact Or.inl ⟨[], x, h₂, hbs.symm, hx, hnone⟩
      | cons b bs =>
          obtain ⟨rfl, rfl⟩ := List.cons.inj hbs
          refine Or.inr ⟨⟨h₁, x, bs, rfl, hx, ?_⟩, ?_⟩
          · intro y hy
            exact hnone y (List.mem_append_left h' hy)
          · intro y hy
            exact hnone y (List.mem_append_right bs hy)
  · rintro (⟨h₁, x, h₂, rfl, hx, hnone⟩ | ⟨⟨h₁, x, h₂, rfl, hx, hnone⟩, hnone'⟩)
    · exact ⟨h ++ h₁, x, h₂, (List.append_assoc h h₁ _).symm, hx, hnone⟩
    · refine ⟨h₁, x, h₂ ++ h', List.append_assoc h₁ _ h', hx, ?_⟩
      intro y hy
      rcases List.mem_append.mp hy with hy | hy
      · exact hnone y hy
      · exact hnone' y hy

theorem since_singleton : Since p q [x] ↔ p x := by
  constructor
  · rintro ⟨h₁, y, h₂, heq, hy, -⟩
    cases h₁ with
    | nil => exact List.head_eq_of_cons_eq heq ▸ hy
    | cons a h₁ =>
        have htail := (List.cons.inj heq).2
        exact absurd htail.symm (List.append_ne_nil_of_right_ne_nil h₁ (List.cons_ne_nil y h₂))
  · intro hx
    exact ⟨[], x, [], rfl, hx, nofun⟩

theorem since_snoc : Since p q (h ++ [x]) ↔ p x ∨ Since p q h ∧ ¬q x := by
  rw [since_append, since_singleton, List.forall_mem_singleton]

section Once

variable {κ : Type} {f : τ → κ}

/-- Where no two steps are about one thing, none before a step is about what it is about. -/
theorem ne_of_before (honce : ((h ++ x :: rest).map f).Nodup) : ∀ y ∈ h, f y ≠ f x := by
  intro y hy
  rw [List.map_append] at honce
  exact (List.nodup_append.mp honce).2.2 (f y) (List.mem_map_of_mem hy) (f x)
    (List.mem_map_of_mem List.mem_cons_self)

theorem since_iff_mem (honce : (h.map f).Nodup) :
    Since (fun y => y = x) (fun y => f y = f x) h ↔ x ∈ h := by
  constructor
  · rintro ⟨h₁, y, h₂, rfl, rfl, -⟩
    exact List.mem_append_right h₁ List.mem_cons_self
  · intro hx
    obtain ⟨h₁, h₂, rfl⟩ := List.append_of_mem hx
    refine ⟨h₁, x, h₂, rfl, rfl, ?_⟩
    intro y hy heq
    rw [List.map_append, List.map_cons] at honce
    have hcons := (List.nodup_append.mp honce).2.1
    exact (List.nodup_cons.mp hcons).1 (heq ▸ List.mem_map_of_mem hy)

end Once

/-- A place in what the steps output is a place in what one of them does. -/
theorem exists_split_of_flatMap {β : Type} {f : τ → List β} {before after : List β} {y : β} :
    ∀ {h : List τ}, h.flatMap f = before ++ y :: after →
      ∃ h₁ x h₂ b a, h = h₁ ++ x :: h₂ ∧ f x = b ++ y :: a ∧ before = h₁.flatMap f ++ b
  | [], heq => absurd heq.symm (List.append_ne_nil_of_right_ne_nil before (List.cons_ne_nil y after))
  | x :: h, heq => by
      rw [List.flatMap_cons] at heq
      rcases List.append_eq_append_iff.mp heq with ⟨as, rfl, has⟩ | ⟨bs, hx, hbs⟩
      · obtain ⟨h₁, z, h₂, b, a, rfl, hz, rfl⟩ := exists_split_of_flatMap has
        refine ⟨x :: h₁, z, h₂, b, a, rfl, hz, ?_⟩
        rw [List.flatMap_cons, List.append_assoc]
      · cases bs with
        | nil =>
            have hrest : h.flatMap f = [] ++ y :: after := hbs.symm
            obtain ⟨h₁, z, h₂, b, a, rfl, hz, hb⟩ := exists_split_of_flatMap hrest
            refine ⟨x :: h₁, z, h₂, b, a, rfl, hz, ?_⟩
            rw [List.flatMap_cons, List.append_assoc, ← hb, hx, List.append_nil, List.append_nil]
        | cons z bs =>
            obtain ⟨rfl, -⟩ := List.cons.inj hbs
            exact ⟨[], x, h, before, bs, rfl, hx, rfl⟩

/-- Where a step outputs one thing, nothing is before it. -/
theorem eq_nil_of_singleton {β : Type} {l b a : List β} {y z : β} (hl : l = b ++ y :: a)
    (hone : l = [z]) : b = [] := by
  rcases List.append_eq_singleton_iff.mp (hl.symm.trans hone) with ⟨hb, -⟩ | ⟨-, hnil⟩
  · exact hb
  · cases hnil

end Tracep.History
