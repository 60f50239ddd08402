import Tracep.Lib.Schedules
import Mathlib.Data.List.Nodup

/-!
# Values computed in the background

A caller asks for values by their keys and does not wait for them. The first
time it asks for one, the answer is a default, and a computation of the value
is started, which may fail to start; the value is there from when that
computation ends. Computations end in any order, at any time between the
actions of the caller, also while it is about to start another.

Over every schedule a computation is started at most once for a key
(`once`), and what is answered is the value that this one has brought, or
the default if it has not ended (`answer_eq`), so an answer stays what it is
(`answers_stay`). That is what a caller may rely on (`sound`).
-/

namespace Tracep.Background

open History Schedules

variable {κ ρ ν : Type}

/-- The caller asks for a value, then goes on to start the computation of it, if that is called
for; or a computation ends with some result. -/
inductive Act (κ ρ : Type) where
  | call (k : κ)
  | spawn (ok : Bool)
  | finish (k : κ) (r : ρ)

/-- What happens at an action: a question is answered, a computation is started. -/
structure Out (κ ν : Type) where
  answer : Option (κ × ν)
  started : Option κ

/-- The values that have been asked for, the keys of the computations under way, and the key of
the question that the caller is at. -/
structure State (κ ν : Type) where
  value : κ → Option ν
  running : List κ
  caller : Option κ

def State.start : State κ ν := ⟨fun _ => none, [], none⟩

/-! ## Histories -/

/-- The actions so far, with what happened at them. -/
abbrev History (κ ρ ν : Type) := List (Act κ ρ × Out κ ν)

variable {h h' : History κ ρ ν} {k : κ} {r : ρ} {v : ν} {value : ρ → ν}
  {s s' : State κ ν} {a : Act κ ρ} {o : Out κ ν}

/-- The computations that have been started. -/
def started (h : History κ ρ ν) : List κ := h.filterMap fun x => x.2.started

theorem started_snoc : started (h ++ [(a, o)]) = started h ++ o.started.toList := by
  unfold started
  rw [List.filterMap_append]
  cases hs : o.started <;> simp [hs]

variable [DecidableEq κ]

/-- The result that an action brings for a key. -/
def broughtBy (k : κ) : Act κ ρ → Option ρ
  | .finish k' r => if k' = k then some r else none
  | _ => none

/-- The results that computations have brought for a key. -/
def brought (k : κ) (h : History κ ρ ν) : List ρ := h.filterMap fun x => broughtBy k x.1

theorem brought_snoc : brought k (h ++ [(a, o)]) = brought k h ++ (broughtBy k a).toList := by
  unfold brought
  rw [List.filterMap_append]
  cases ha : broughtBy k a <;> simp [ha]

theorem brought_append : brought k (h ++ h') = brought k h ++ brought k h' :=
  List.filterMap_append

variable [Inhabited ν]

/-- The value of the result brought, or the default. -/
def known (value : ρ → ν) (k : κ) (h : History κ ρ ν) : ν :=
  ((brought k h).head?.map value).getD default

/-! ## Steps -/

def step (value : ρ → ν) (s : State κ ν) : Act κ ρ → Option (State κ ν × Out κ ν)
  | .call k =>
      if s.caller.isSome then none
      else
        match s.value k with
        | some v => some (s, ⟨some (k, v), none⟩)
        | none =>
            some ({ s with value := Function.update s.value k (some default), caller := some k },
              ⟨none, none⟩)
  | .spawn ok =>
      match s.caller with
      | none => none
      | some k =>
          some ({ s with running := if ok then k :: s.running else s.running, caller := none },
            ⟨some (k, default), if ok then some k else none⟩)
  | .finish k r =>
      if k ∈ s.running then
        some ({ s with
            value := Function.update s.value k (some (value r)), running := s.running.erase k },
          ⟨none, none⟩)
      else none

/-- A step looks at the value of a result only. -/
theorem step_congr {value' : ρ → ν} (h : ∀ k r, a = .finish k r → value r = value' r) :
    step value s a = step value' s a := by
  cases a with
  | call k => rfl
  | spawn ok => rfl
  | finish k r =>
      unfold step
      simp only [h k r rfl]

/-- What the state says of the history. -/
structure Inv (value : ρ → ν) (h : History κ ρ ν) (s : State κ ν) : Prop where
  once : (started h).Nodup
  asked : ∀ k ∈ started h, (s.value k).isSome
  value : ∀ k v, s.value k = some v → v = known value k h
  ended : ∀ k, brought k h ≠ [] → k ∈ started h
  single : ∀ k, (brought k h).length ≤ 1
  running : ∀ k, k ∈ s.running ↔ k ∈ started h ∧ brought k h = []
  nodup : s.running.Nodup
  caller : ∀ k, s.caller = some k → (s.value k).isSome ∧ k ∉ started h

theorem inv_start : Inv value [] (State.start : State κ ν) where
  once := List.nodup_nil
  asked := by simp [started]
  value := by simp [State.start]
  ended := by simp [brought]
  single := by simp [brought]
  running := by simp [State.start, started]
  nodup := List.nodup_nil
  caller := by simp [State.start]

theorem Inv.not_brought (hinv : Inv value h s) (hk : k ∉ started h) : brought k h = [] := by
  by_contra hne
  exact hk (hinv.ended k hne)

/-- A call changes nothing that the invariant speaks of, but for a value that is asked for the
first time. -/
theorem Inv.call (hinv : Inv value h s) (hstep : step value s (.call k) = some (s', o)) :
    Inv value (h ++ [(.call k, o)]) s' := by
  have hbrought : ∀ j, brought j (h ++ [(.call k, o)]) = brought j h := by
    simp [brought_snoc, broughtBy]
  simp only [step] at hstep
  split at hstep
  · cases hstep
  next hidle =>
  split at hstep
  · obtain ⟨rfl, rfl⟩ := Prod.mk.inj (Option.some.inj hstep)
    have hstarted : ∀ o' : Option (κ × ν), started (h ++ [(.call k, ⟨o', none⟩)]) = started h := by
      simp [started_snoc]
    refine ⟨?_, ?_, ?_, ?_, ?_, ?_, hinv.nodup, ?_⟩ <;> simp only [hstarted, hbrought, known]
    exacts [hinv.once, hinv.asked, hinv.value, hinv.ended, hinv.single, hinv.running, hinv.caller]
  · next hnone =>
    obtain ⟨rfl, rfl⟩ := Prod.mk.inj (Option.some.inj hstep)
    have hstarted : started (h ++ [(.call k, ⟨none, none⟩)]) = started h := by
      simp [started_snoc]
    have hk : k ∉ started h := by
      intro hmem
      simpa [hnone] using hinv.asked k hmem
    refine ⟨?_, ?_, ?_, ?_, ?_, ?_, hinv.nodup, ?_⟩ <;> simp only [hstarted, hbrought, known]
    · exact hinv.once
    · intro j hj
      have hjk : j ≠ k := fun heq => hk (heq ▸ hj)
      rw [Function.update_of_ne hjk]
      exact hinv.asked j hj
    · intro j v hv
      by_cases hj : j = k
      · subst hj
        rw [Function.update_self] at hv
        simp [hinv.not_brought hk, ← Option.some.inj hv]
      · rw [Function.update_of_ne hj] at hv
        exact hinv.value j v hv
    · exact hinv.ended
    · exact hinv.single
    · exact hinv.running
    · rintro j ⟨⟩
      exact ⟨by rw [Function.update_self]; rfl, hk⟩

/-- A computation is started for the key that the caller is at. -/
theorem Inv.spawn {ok : Bool} (hinv : Inv value h s)
    (hstep : step value s (.spawn ok) = some (s', o)) :
    Inv value (h ++ [(.spawn ok, o)]) s' := by
  have hbrought : ∀ j, brought j (h ++ [(.spawn ok, o)]) = brought j h := by
    simp [brought_snoc, broughtBy]
  simp only [step] at hstep
  split at hstep
  · cases hstep
  next k hk =>
  obtain ⟨hasked, hnew⟩ := hinv.caller k hk
  cases ok with
  | false =>
      simp only [Bool.false_eq_true, if_false] at hstep
      obtain ⟨rfl, rfl⟩ := Prod.mk.inj (Option.some.inj hstep)
      have hstarted : started (h ++ [(.spawn false, ⟨some (k, default), none⟩)]) = started h := by
        simp [started_snoc]
      refine ⟨?_, ?_, ?_, ?_, ?_, ?_, hinv.nodup, nofun⟩ <;> simp only [hstarted, hbrought, known]
      exacts [hinv.once, hinv.asked, hinv.value, hinv.ended, hinv.single, hinv.running]
  | true =>
      simp only [if_true] at hstep
      obtain ⟨rfl, rfl⟩ := Prod.mk.inj (Option.some.inj hstep)
      have hstarted : started (h ++ [(.spawn true, ⟨some (k, default), some k⟩)])
          = started h ++ [k] := by
        simp [started_snoc]
      refine ⟨?_, ?_, ?_, ?_, ?_, ?_, ?_, nofun⟩ <;> simp only [hstarted, hbrought, known]
      · rw [List.nodup_append]
        exact ⟨hinv.once, List.nodup_singleton k, by rintro a ha b hb rfl; simp_all⟩
      · intro j hj
        rcases List.mem_append.mp hj with hj | hj
        · exact hinv.asked j hj
        · rwa [List.mem_singleton.mp hj]
      · exact hinv.value
      · exact fun j hj => List.mem_append_left _ (hinv.ended j hj)
      · exact hinv.single
      · intro j
        simp only [List.mem_cons, List.mem_append, hinv.running]
        by_cases hj : j = k
        · subst hj
          simp [hinv.not_brought hnew]
        · simp [hj]
      · simp only [List.nodup_cons, hinv.nodup, and_true, hinv.running]
        exact fun hmem => hnew hmem.1

/-- A computation that ends is the only one of its key. -/
theorem Inv.finish (hinv : Inv value h s) (hstep : step value s (.finish k r) = some (s', o)) :
    Inv value (h ++ [(.finish k r, o)]) s' := by
  simp only [step] at hstep
  split at hstep
  case isFalse => cases hstep
  next hrunning =>
  obtain ⟨hstart, hfirst⟩ := (hinv.running k).mp hrunning
  obtain ⟨rfl, rfl⟩ := Prod.mk.inj (Option.some.inj hstep)
  have hstarted : started (h ++ [(.finish k r, ⟨none, none⟩)]) = started h := by
    simp [started_snoc]
  have hself : brought k (h ++ [(.finish k r, ⟨none, none⟩)]) = [r] := by
    simp [brought_snoc, broughtBy, hfirst]
  have hother : ∀ j, j ≠ k → brought j (h ++ [(.finish k r, ⟨none, none⟩)]) = brought j h := by
    intro j hj
    simp [brought_snoc, broughtBy, Ne.symm hj]
  refine ⟨?_, ?_, ?_, ?_, ?_, ?_, hinv.nodup.erase k, ?_⟩
  · simp only [hstarted]
    exact hinv.once
  · simp only [hstarted]
    intro j hj
    by_cases hjk : j = k
    · rw [hjk, Function.update_self]
      rfl
    · rw [Function.update_of_ne hjk]
      exact hinv.asked j hj
  · intro j w hw
    dsimp only at hw
    by_cases hjk : j = k
    · subst hjk
      rw [Function.update_self] at hw
      simp [known, hself, ← Option.some.inj hw]
    · rw [Function.update_of_ne hjk] at hw
      rw [known, hother j hjk]
      exact hinv.value j w hw
  · simp only [hstarted]
    intro j hj
    by_cases hjk : j = k
    · rwa [hjk]
    · rw [hother j hjk] at hj
      exact hinv.ended j hj
  · intro j
    by_cases hjk : j = k
    · simp [hjk, hself]
    · rw [hother j hjk]
      exact hinv.single j
  · simp only [hstarted]
    intro j
    by_cases hjk : j = k
    · subst hjk
      simp [hself, hinv.nodup.mem_erase_iff]
    · rw [List.mem_erase_of_ne hjk, hother j hjk]
      exact hinv.running j
  · simp only [hstarted]
    intro j hj
    obtain ⟨hasked, hnew⟩ := hinv.caller j hj
    have hjk : j ≠ k := fun heq => hnew (heq ▸ hstart)
    rw [Function.update_of_ne hjk]
    exact ⟨hasked, hnew⟩

theorem Inv.step (hinv : Inv value h s) (hstep : step value s a = some (s', o)) :
    Inv value (h ++ [(a, o)]) s' := by
  cases a with
  | call k => exact hinv.call hstep
  | spawn ok => exact hinv.spawn hstep
  | finish k v => exact hinv.finish hstep

theorem inv_of_trace (ht : Trace (Next (step value)) State.start h s) : Inv value h s := by
  induction ht with
  | nil => exact inv_start
  | snoc _ hstep ih => exact ih.step hstep

/-! ## Runs -/

/-- What is answered is what is known. -/
theorem Inv.answer_eq (hinv : Inv value h s) (hstep : Background.step value s a = some (s', o))
    (hanswer : o.answer = some (k, v)) : v = known value k h := by
  cases a with
  | call j =>
      simp only [Background.step] at hstep
      split at hstep
      · cases hstep
      split at hstep
      · next w hw =>
        obtain ⟨-, rfl⟩ := Prod.mk.inj (Option.some.inj hstep)
        obtain ⟨rfl, rfl⟩ := Prod.mk.inj (Option.some.inj hanswer)
        exact hinv.value j w hw
      · obtain ⟨-, rfl⟩ := Prod.mk.inj (Option.some.inj hstep)
        cases hanswer
  | spawn ok =>
      simp only [Background.step] at hstep
      split at hstep
      · cases hstep
      · next j hj =>
        obtain ⟨-, rfl⟩ := Prod.mk.inj (Option.some.inj hstep)
        obtain ⟨rfl, rfl⟩ := Prod.mk.inj (Option.some.inj hanswer)
        simp [known, hinv.not_brought (hinv.caller j hj).2]
  | finish j w =>
      simp only [Background.step] at hstep
      split at hstep
      · obtain ⟨-, rfl⟩ := Prod.mk.inj (Option.some.inj hstep)
        cases hanswer
      · cases hstep

/-- What has been brought stays what is known. -/
theorem known_append (hk : brought k h ≠ []) : known value k (h ++ h') = known value k h := by
  unfold known
  cases hb : brought k h with
  | nil => exact absurd hb hk
  | cons v vs => simp [brought_append, hb]

section Runs

variable {as : List (Act κ ρ)} {os : List (Out κ ν)}

/-- No computation is started twice. -/
theorem once (hrun : run (step value) State.start as = some (s, os)) : (started (as.zip os)).Nodup :=
  (inv_of_trace (run_trace hrun)).once

/-- What is answered is what has been brought by then, or the default. -/
theorem answer_eq (hrun : run (step value) State.start as = some (s, os))
    (hsplit : as.zip os = h ++ (a, o) :: h') (hanswer : o.answer = some (k, v)) :
    v = known value k h := by
  have ht := run_trace hrun
  rw [hsplit] at ht
  obtain ⟨s₁, s₂, hpre, hstep⟩ := ht.split
  exact (inv_of_trace hpre).answer_eq hstep hanswer

/-- Once an answer is not the default, it is the answer from then on. -/
theorem answers_stay {h₁ h₂ h₃ : History κ ρ ν} {a₁ a₂ : Act κ ρ} {o₁ o₂ : Out κ ν} {v₁ v₂ : ν}
    (hrun : run (step value) State.start as = some (s, os))
    (hsplit : as.zip os = h₁ ++ (a₁, o₁) :: (h₂ ++ (a₂, o₂) :: h₃))
    (h₁v : o₁.answer = some (k, v₁)) (h₂v : o₂.answer = some (k, v₂)) :
    v₁ = default ∨ v₂ = v₁ := by
  obtain rfl := answer_eq hrun hsplit h₁v
  have hsplit' : as.zip os = (h₁ ++ (a₁, o₁) :: h₂) ++ (a₂, o₂) :: h₃ := by
    rw [hsplit, List.append_assoc, List.cons_append]
  obtain rfl := answer_eq hrun hsplit' h₂v
  by_cases hk : brought k h₁ = []
  · exact Or.inl (by simp [known, hk])
  · exact Or.inr (known_append hk)

/-- What a caller may rely on. -/
structure Sound (value : ρ → ν) (h : History κ ρ ν) : Prop where
  once : (started h).Nodup
  answered : ∀ h₁ a o h₂ k v, h = h₁ ++ (a, o) :: h₂ → o.answer = some (k, v) →
    v = known value k h₁
  stays : ∀ h₁ a₁ o₁ h₂ a₂ o₂ h₃ k v₁ v₂, h = h₁ ++ (a₁, o₁) :: (h₂ ++ (a₂, o₂) :: h₃) →
    o₁.answer = some (k, v₁) → o₂.answer = some (k, v₂) → v₁ = default ∨ v₂ = v₁

theorem sound (hrun : run (step value) State.start as = some (s, os)) :
    Sound value (as.zip os) where
  once := once hrun
  answered _ _ _ _ _ _ hsplit hanswer := answer_eq hrun hsplit hanswer
  stays _ _ _ _ _ _ _ _ _ _ hsplit h₁v h₂v := answers_stay hrun hsplit h₁v h₂v

end Runs

end Tracep.Background
