import Mathlib.Data.List.TakeDrop

/-!
# Texts with parts cut off

Two programs print a text part by part, and one of them cuts parts that are
too long for its buffers. Then each part of its text is that of the other or
shorter (`Clipped`), and so is the whole. No part makes up for what another
one lost: the texts are the same exactly when all parts are.

`Clips s t p` says that `s` is `t` or shorter, and `t` exactly when `p`
holds. The condition of a whole text is put together from those of its parts
(`Clips.append`, `Clips.flatMap`, `Clips.trans`).
-/

namespace Tracep

variable {α β : Type}

/-- The first text is the other one or shorter. -/
def Clipped (s t : List α) : Prop := s = t ∨ s.length < t.length

namespace Clipped

variable {s s' t t' u : List α}

theorem refl (s : List α) : Clipped s s := Or.inl rfl

theorem length_le (h : Clipped s t) : s.length ≤ t.length := by
  rcases h with rfl | h
  · exact Nat.le_refl _
  · exact Nat.le_of_lt h

/-- It is the other one if it is as long. -/
theorem eq_of_length (h : Clipped s t) (hlen : t.length ≤ s.length) : s = t :=
  h.resolve_right (Nat.not_lt.mpr hlen)

theorem trans (h : Clipped s t) (h' : Clipped t u) : Clipped s u := by
  rcases h with rfl | hst
  · exact h'
  · exact Or.inr (Nat.lt_of_lt_of_le hst h'.length_le)

theorem of_begins (h : s <+: t) : Clipped s t := by
  rcases Nat.lt_or_ge s.length t.length with hlt | hge
  · exact Or.inr hlt
  · exact Or.inl (h.eq_of_length_le hge)

theorem append (h : Clipped s t) (h' : Clipped s' t') : Clipped (s ++ s') (t ++ t') := by
  have hle := h.length_le
  have hle' := h'.length_le
  rcases h with rfl | hlt
  · rcases h' with rfl | hlt'
    · exact refl _
    · exact Or.inr (by simpa using hlt')
  · exact Or.inr (by simp only [List.length_append]; omega)

end Clipped

/-- The first text is the other one or shorter, and is the other one exactly on the condition. -/
structure Clips (s t : List α) (p : Prop) : Prop where
  clipped : Clipped s t
  eq_iff : s = t ↔ p

namespace Clips

variable {s s' t t' u : List α} {p q : Prop}

theorem refl (s : List α) : Clips s s True := ⟨.refl s, iff_true_intro rfl⟩

theorem congr (h : Clips s t p) (hpq : p ↔ q) : Clips s t q := ⟨h.clipped, h.eq_iff.trans hpq⟩

theorem take (n : Nat) (s : List α) : Clips (s.take n) s (s.length ≤ n) :=
  ⟨.of_begins (List.take_prefix n s), List.take_eq_self_iff s⟩

theorem replicate {n m : Nat} (h : n ≤ m) (a : α) :
    Clips (List.replicate n a) (List.replicate m a) (n = m) := by
  refine ⟨?_, List.replicate_inj.trans ?_⟩
  · rcases Nat.lt_or_eq_of_le h with hlt | rfl
    · exact Or.inr (by simpa using hlt)
    · exact Clipped.refl _
  · exact ⟨fun h => h.1, fun h => ⟨h, Or.inr rfl⟩⟩

/-- What is shorter for certain. -/
theorem of_lt (h : s.length < t.length) : Clips s t False :=
  ⟨Or.inr h, iff_false_intro fun heq => Nat.ne_of_lt h (congrArg List.length heq)⟩

/-- Of two steps neither has cut anything if both together have not. -/
theorem trans (h : Clips s t p) (h' : Clips t u q) : Clips s u (p ∧ q) := by
  refine ⟨h.clipped.trans h'.clipped, ?_⟩
  rw [← h.eq_iff, ← h'.eq_iff]
  constructor
  · rintro rfl
    have heq := h.clipped.eq_of_length h'.clipped.length_le
    exact ⟨heq, heq.symm⟩
  · rintro ⟨rfl, rfl⟩
    rfl

theorem append (h : Clips s t p) (h' : Clips s' t' q) : Clips (s ++ s') (t ++ t') (p ∧ q) := by
  refine ⟨h.clipped.append h'.clipped, ?_⟩
  rw [← h.eq_iff, ← h'.eq_iff]
  constructor
  · intro heq
    have hlen := congrArg List.length heq
    simp only [List.length_append] at hlen
    have hle := h.clipped.length_le
    have hle' := h'.clipped.length_le
    exact ⟨h.clipped.eq_of_length (by omega), h'.clipped.eq_of_length (by omega)⟩
  · rintro ⟨rfl, rfl⟩
    rfl

theorem flatMap {f g : β → List α} {r : β → Prop} {l : List β}
    (h : ∀ b ∈ l, Clips (f b) (g b) (r b)) :
    Clips (l.flatMap f) (l.flatMap g) (∀ b ∈ l, r b) := by
  induction l with
  | nil => exact (refl []).congr (by simp)
  | cons b l ih =>
      obtain ⟨hb, hl⟩ := List.forall_mem_cons.mp h
      rw [List.flatMap_cons, List.flatMap_cons]
      exact (hb.append (ih hl)).congr List.forall_mem_cons.symm

/-- What is printed if there is something to print. -/
theorem elim {f g : β → List α} {r : β → Prop} (h : ∀ b, Clips (f b) (g b) (r b)) (o : Option β) :
    Clips (o.elim [] f) (o.elim [] g) (∀ b ∈ o, r b) := by
  cases o with
  | none => exact (refl []).congr (by simp)
  | some b => exact (h b).congr (by simp)

end Clips

end Tracep
