import Tracep.Lib.Chase
import Tracep.Nettrace.Sockets

/-!
# Descendants of watched processes

While no process gets another parent, `isDescendant` in Go tells whether the
parents of a process lead to a watched one. They may lead round in a circle,
as they do when PIDs are given again between the reads, or to a process that
cannot be read.
-/

namespace Tracep.Nettrace

open Exec Asking Relation

/-- `q` is the parent of `p`, which the search for a watched process asks for and takes. -/
def Parent (f : Int32 → Int32) (p q : Int32) : Prop := 1 < p ∧ f p = q ∧ 0 < q

/-- The processes have the same parents whenever they are asked for. -/
def Settled (env : Env) (f : Int32 → Int32) : Prop := ∀ now p, env.ppid now p = f p

def Go.isDescendant : Env → List Int32 → Int32 → Asking Bool := Nettrace.isDescendant fun _ => true

variable {env : Env} {f : Int32 → Int32} {watchPIDs seen : List Int32} {p q : Int32}

theorem parent_rightUnique : Relator.RightUnique (Parent f) :=
  fun _ _ _ h h' => h.2.1.symm.trans h'.2.1

/-- An iteration comes to the parent and goes on from there, or gives the answer. -/
theorem isDescendantStep_cases (now : Nat) (henv : Settled env f)
    (hpassed : Passed (Parent f) (· ∈ watchPIDs) seen p) :
    (∃ mid, Gives (isDescendantStep (fun _ => true) env watchPIDs (seen, p)) now
        (.inl (p :: seen, f p)) mid
      ∧ p ∉ seen ∧ Parent f p (f p) ∧ f p ∉ watchPIDs)
    ∨ ∃ b mid, Gives (isDescendantStep (fun _ => true) env watchPIDs (seen, p)) now (.inr b) mid
      ∧ (b = true ↔ Leads (Parent f) (· ∈ watchPIDs) p) := by
  simp only [isDescendantStep]
  by_cases htop : 1 < p
  case neg =>
    refine Or.inr ⟨false, now, by rw [if_pos htop]; exact gives_pure.mpr ⟨rfl, rfl⟩, ?_⟩
    simp only [Bool.false_eq_true, false_iff]
    exact not_leads_of_stuck fun q h => htop h.1
  rw [if_neg (not_not.mpr htop)]
  by_cases hseen : p ∈ seen
  · refine Or.inr ⟨false, now, ?_, ?_⟩
    · rw [if_pos (List.contains_iff_mem.mpr hseen)]
      exact gives_pure.mpr ⟨rfl, rfl⟩
    · simp only [Bool.false_eq_true, false_iff]
      exact hpassed.not_leads hseen
  rw [if_neg (fun h => hseen (List.contains_iff_mem.mp h)), if_neg (by decide)]
  simp only [gives_bind, gives_observe]
  by_cases hroot : f p ≤ 0
  · refine Or.inr ⟨false, now + 1, ⟨_, _, ⟨rfl, rfl⟩, ?_⟩, ?_⟩
    · rw [henv, if_pos hroot]
      exact gives_pure.mpr ⟨rfl, rfl⟩
    · simp only [Bool.false_eq_true, false_iff]
      refine not_leads_of_stuck fun q h => ?_
      obtain ⟨-, rfl, hq⟩ := h
      exact absurd hq (Int32.not_lt.mpr hroot)
  have hparent : Parent f p (f p) := ⟨htop, rfl, Int32.not_le.mp hroot⟩
  by_cases hwatched : f p ∈ watchPIDs
  · refine Or.inr ⟨true, now + 1, ⟨_, _, ⟨rfl, rfl⟩, ?_⟩, ?_⟩
    · rw [henv, if_neg hroot, if_pos (List.contains_iff_mem.mpr hwatched)]
      exact gives_pure.mpr ⟨rfl, rfl⟩
    · exact iff_of_true rfl (leads_of_goal hparent hwatched)
  · refine Or.inl ⟨now + 1, ⟨_, _, ⟨rfl, rfl⟩, ?_⟩, hseen, hparent, hwatched⟩
    rw [henv, if_neg hroot, if_neg (fun h => hwatched (List.contains_iff_mem.mp h))]
    exact gives_pure.mpr ⟨rfl, rfl⟩

theorem loop_leads (now : Nat) (henv : Settled env f)
    (hpassed : Passed (Parent f) (· ∈ watchPIDs) seen p) :
    ∃ b later,
      Gives (Asking.loop (isDescendantStep (fun _ => true) env watchPIDs) (seen, p)) now b later
        ∧ (b = true ↔ Leads (Parent f) (· ∈ watchPIDs) p) := by
  induction seen using visiting generalizing p now with
  | h seen ih =>
      rcases isDescendantStep_cases now henv hpassed with
        ⟨mid, hstep, hnew, hparent, hunwatched⟩ | ⟨b, mid, hstep, hb⟩
      · obtain ⟨b, later, hloop, hb⟩ :=
          ih p hnew mid (hpassed.cons parent_rightUnique hparent hunwatched)
        refine ⟨b, later, gives_loop_next hstep hloop, hb.trans ?_⟩
        exact (leads_iff_of_step parent_rightUnique hparent hunwatched).symm
      · exact ⟨b, mid, gives_loop_now hstep, hb⟩

/-- `isDescendant` comes to an end, and finds the watched process that the parents lead to. -/
theorem Go.isDescendant_leads (henv : Settled env f) (watchPIDs : List Int32) (pid : Int32)
    (now : Nat) : ∃ watched later, Gives (Go.isDescendant env watchPIDs pid) now watched later
      ∧ (watched = true ↔ ∃ q, TransGen (Parent f) pid q ∧ q ∈ watchPIDs) :=
  loop_leads now henv passed_nil

/-- Two processes that are each other's parents. -/
def circle (p : Int32) : Int32 := if p = 5 then 7 else if p = 7 then 5 else -1

theorem isDescendant_leads_circle : ∃ watched later,
    Gives (Go.isDescendant ⟨[], fun _ _ => [], fun _ _ => none, fun _ => circle, fun _ => 0,
      fun _ _ => [], fun _ _ => []⟩ [7] 5) 0 watched later
      ∧ (watched = true ↔ ∃ q, TransGen (Parent circle) 5 q ∧ q ∈ [7]) :=
  Go.isDescendant_leads (fun _ _ => rfl) [7] 5 0

end Tracep.Nettrace
