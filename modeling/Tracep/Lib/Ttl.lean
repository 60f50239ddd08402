import Tracep.Lib.Outputs
import Mathlib.Logic.Function.Basic
import Mathlib.Data.Option.Basic
import Mathlib.Order.Basic

/-!
# Caches with a time to live

A cache answers a lookup with what it found for the key before, if that is
not too long ago, and else finds it anew. What it answers is told by the
times of the lookups alone: `lastAfter` has the time each key was last
resolved at, and `used` the time whose answer a lookup gets. It is a time
the key was looked up at, within the time to live (`used_mem`, `lt_used`).

A program may keep more or fewer of the old entries. As long as it `Keeps`
every one that can still be used, its answers are these (`Keeps.hit`,
`Keeps.miss`), whatever it drops (`Keeps.drop`).
-/

namespace Tracep.Ttl

variable {κ ν : Type}

/-- The time each key was resolved at last. -/
abbrev Last (κ : Type) := κ → Option Int

/-- The time whose answer a lookup gets. -/
def used (ttl : Int) (last : Last κ) (k : κ) (t : Int) : Int :=
  match last k with
  | some b => if t - b < ttl then b else t
  | none => t

section After

variable [DecidableEq κ]

def after (ttl : Int) (last : Last κ) (k : κ) (t : Int) : Last κ :=
  Function.update last k (some (used ttl last k t))

/-- The times after some lookups, starting with none. -/
def lastAfter (ttl : Int) (xs : List (κ × Int)) : Last κ :=
  xs.foldl (fun last x => after ttl last x.1 x.2) fun _ => none

end After

variable {ttl now t b : Int} {last : Last κ} {k : κ} {xs : List (κ × Int)} {v : ν}

/-! ## The time that is used -/

theorem lt_used (hpos : 0 < ttl) : t - ttl < used ttl last k t := by
  unfold used
  split
  · split <;> omega
  · omega

theorem used_le (h : ∀ b ∈ last k, b ≤ t) : used ttl last k t ≤ t := by
  unfold used
  split
  · next b hb =>
      split
      · exact h b hb
      · exact Int.le_refl t
  · exact Int.le_refl t

theorem used_eq_or : used ttl last k t ∈ last k ∨ used ttl last k t = t := by
  unfold used
  split
  · next b hb =>
      split
      · exact Or.inl hb
      · exact Or.inr rfl
  · exact Or.inr rfl

section LastAfter

variable [DecidableEq κ]

theorem lastAfter_snoc (xs : List (κ × Int)) (k : κ) (t : Int) :
    lastAfter ttl (xs ++ [(k, t)]) = after ttl (lastAfter ttl xs) k t := List.foldl_append

theorem mem_of_lastAfter (h : b ∈ lastAfter ttl xs k) : (k, b) ∈ xs := by
  induction xs using List.reverseRecOn generalizing b with
  | nil => cases h
  | append_singleton xs x ih =>
      obtain ⟨k', t⟩ := x
      rw [lastAfter_snoc, after, Function.update_apply] at h
      split at h
      · next hk =>
          subst hk
          cases h
          rcases used_eq_or with hb | hb
          · exact List.mem_append_left _ (ih hb)
          · rw [hb]
            exact List.mem_append_right _ (List.mem_singleton.mpr rfl)
      · exact List.mem_append_left _ (ih h)

/-- It is the time of a lookup of the key, before or now. -/
theorem used_mem (xs : List (κ × Int)) (k : κ) (t : Int) :
    (k, used ttl (lastAfter ttl xs) k t) ∈ xs ++ [(k, t)] := by
  rcases used_eq_or with hb | hb
  · exact List.mem_append_left _ (mem_of_lastAfter hb)
  · rw [hb]
    exact List.mem_append_right _ (List.mem_singleton.mpr rfl)

end LastAfter

/-! ## What is kept -/

/-- At time `now` the entries are what was resolved last, but that some are missing which can no
longer be used. -/
def Keeps (ttl : Int) (resolve : κ → Int → ν) (now : Int) (entry : κ → Option (Int × ν))
    (last : Last κ) : Prop :=
  ∀ k, entry k = (last k).map (fun b => (b, resolve k b))
    ∨ entry k = none ∧ ∀ b ∈ last k, ttl ≤ now - b

variable {resolve : κ → Int → ν} {entry entry' : κ → Option (Int × ν)}

theorem keeps_start : Keeps ttl resolve now (fun _ => none) fun _ => none := fun _ => Or.inl rfl

/-- Without one the answer is that of now. -/
theorem Keeps.miss (h : Keeps ttl resolve now entry last) (hnow : now ≤ t)
    (hstale : ∀ e ∈ entry k, ttl ≤ t - e.1) : used ttl last k t = t := by
  unfold used
  split
  · next b hb =>
      refine if_neg (Int.not_lt.mpr ?_)
      rcases h k with heq | ⟨-, hold⟩
      · rw [hb] at heq
        exact hstale (b, resolve k b) heq
      · have := hold b hb
        omega
  · rfl

theorem Keeps.mono (h : Keeps ttl resolve now entry last) (hnow : now ≤ t) :
    Keeps ttl resolve t entry last := fun k => (h k).imp_right fun ⟨hnone, hold⟩ =>
  ⟨hnone, fun b hb => Int.le_trans (hold b hb) (Int.sub_le_sub_right hnow b)⟩

/-- Entries that can no longer be used may be dropped. -/
theorem Keeps.drop (h : Keeps ttl resolve now entry last)
    (hdrop : ∀ k, entry' k = entry k ∨ entry' k = none ∧ ∀ e ∈ entry k, ttl ≤ now - e.1) :
    Keeps ttl resolve now entry' last := by
  intro k
  rcases hdrop k with hsame | ⟨hnone, hold⟩
  · rw [hsame]
    exact h k
  · refine Or.inr ⟨hnone, fun b hb => ?_⟩
    rcases h k with heq | ⟨-, hold'⟩
    · rw [hb] at heq
      exact hold (b, resolve k b) heq
    · exact hold' b hb

variable [DecidableEq κ]

/-- An entry that is not too old is the answer. -/
theorem Keeps.hit (h : Keeps ttl resolve now entry last) (he : entry k = some (b, v))
    (hfresh : t - b < ttl) :
    v = resolve k (used ttl last k t) ∧ after ttl last k t = last := by
  have hlast : last k = some b ∧ v = resolve k b := by
    rcases h k with heq | ⟨hnone, -⟩
    · rw [he] at heq
      cases hb : last k with
      | none =>
          rw [hb] at heq
          cases heq
      | some b' =>
          rw [hb] at heq
          cases heq
          exact ⟨rfl, rfl⟩
    · rw [hnone] at he
      cases he
  have hused : used ttl last k t = b := by
    rw [used, hlast.1]
    exact if_pos hfresh
  refine ⟨by rw [hused, hlast.2], ?_⟩
  rw [after, hused, ← hlast.1, Function.update_eq_self]

theorem Keeps.store (h : Keeps ttl resolve now entry last) (hnow : now ≤ t)
    (hmiss : used ttl last k t = t) :
    Keeps ttl resolve t (Function.update entry k (some (t, resolve k t))) (after ttl last k t) := by
  intro k'
  rw [after, hmiss, Function.update_apply, Function.update_apply]
  by_cases hk : k' = k
  · subst hk
    rw [if_pos rfl, if_pos rfl]
    exact Or.inl rfl
  · rw [if_neg hk, if_neg hk]
    exact h.mono hnow k'

/-! ## Runs of lookups -/

/-- The times of the lookups do not decrease. -/
def Ordered (xs : List (κ × Int)) : Prop := xs.Pairwise fun x y => x.2 ≤ y.2

section Runs

variable {σ : Type} {handle : σ → κ × Int → σ × ν} {s : σ} {Rep : Int → σ → Last κ → Prop}
  (hstart : ∀ now, Rep now s fun _ => none)
  (hstep : ∀ {now s last} k t, Rep now s last → now ≤ t →
    (handle s (k, t)).2 = resolve k (used ttl last k t)
      ∧ Rep t (handle s (k, t)).1 (after ttl last k t))
include hstart hstep

theorem rep_stateAfter {t : Int} (hord : Ordered xs) (hle : ∀ x ∈ xs, x.2 ≤ t) :
    ∃ now ≤ t, Rep now (Outputs.stateAfter handle s xs) (lastAfter ttl xs) := by
  induction xs using List.reverseRecOn generalizing t with
  | nil => exact ⟨t, Int.le_refl t, hstart t⟩
  | append_singleton xs x ih =>
      obtain ⟨k, t'⟩ := x
      obtain ⟨hord', -, hlast⟩ := List.pairwise_append.mp hord
      obtain ⟨now, hnow, hrep⟩ := ih hord' fun y hy => hlast y hy _ (List.mem_singleton.mpr rfl)
      refine ⟨t', hle _ (List.mem_append_right _ (List.mem_singleton.mpr rfl)), ?_⟩
      rw [Outputs.stateAfter_snoc, lastAfter_snoc]
      exact (hstep k t' hrep hnow).2

/-- A machine that answers so from every state it comes to answers so in a whole run. -/
theorem run_eq_used (hord : Ordered xs) : Outputs.run handle s xs
    = Outputs.byHistory (fun pre x => resolve x.1 (used ttl (lastAfter ttl pre) x.1 x.2)) xs := by
  rw [Outputs.run_eq_byHistory]
  rintro pre ⟨k, t⟩ post rfl
  obtain ⟨hpre, -, hlast⟩ := List.pairwise_append.mp hord
  obtain ⟨now, hnow, hrep⟩ := rep_stateAfter hstart hstep hpre fun y hy =>
    hlast y hy _ List.mem_cons_self
  exact (hstep k t hrep hnow).1

end Runs

/-- At each place of a run of lookups, the time that is used is one of a lookup of the key, before
or now, and within the time to live. -/
theorem atEach_used (hpos : 0 < ttl) (hord : Ordered xs) : Outputs.AtEach (fun pre x =>
    x.2 - ttl < used ttl (lastAfter ttl pre) x.1 x.2 ∧ used ttl (lastAfter ttl pre) x.1 x.2 ≤ x.2
      ∧ (x.1, used ttl (lastAfter ttl pre) x.1 x.2) ∈ pre ++ [x]) xs := by
  rintro pre ⟨k, t⟩ post rfl
  obtain ⟨-, -, hlast⟩ := List.pairwise_append.mp hord
  refine ⟨lt_used hpos, used_le fun b hb => ?_, used_mem pre k t⟩
  exact hlast (k, b) (mem_of_lastAfter hb) (k, t) List.mem_cons_self

end Tracep.Ttl
