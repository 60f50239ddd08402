import Tracep.Lib.Bytes

/-!
# Texts cut at a separator

The text before and after the first occurrence of a separator, or after the
last one of a byte, as Go's `strings.Cut` and `strings.LastIndexByte` and
C's `strstr` and `strrchr` are used to take a text apart.
-/

namespace Tracep

/-- The text before the first `sep` and the text after it. -/
def cut (sep : Bytes) : Bytes → Option (Bytes × Bytes)
  | [] => none
  | b :: s =>
      if sep.isPrefixOf (b :: s) then some ([], (b :: s).drop sep.length)
      else (cut sep s).map fun (before, after) => (b :: before, after)

/-- The text before the last `sep` and the text after it. -/
def cutLast (sep : UInt8) : Bytes → Option (Bytes × Bytes)
  | [] => none
  | b :: s =>
      match cutLast sep s with
      | some (before, after) => some (b :: before, after)
      | none => if b = sep then some ([], s) else none

variable {a b c : UInt8} {s t : Bytes}

/-- What a text is cut into. -/
theorem cut_parts {sep before after : Bytes} (h : cut sep s = some (before, after)) :
    s = before ++ sep ++ after := by
  induction s generalizing before with
  | nil => cases h
  | cons b s ih =>
      rw [cut] at h
      by_cases hsep : sep.isPrefixOf (b :: s) = true
      · rw [if_pos hsep] at h
        obtain ⟨rfl, rfl⟩ := Prod.mk.inj (Option.some.inj h)
        obtain ⟨rest, hrest⟩ := List.isPrefixOf_iff_prefix.mp hsep
        rw [← hrest, List.drop_left, List.nil_append]
      · rw [if_neg hsep] at h
        obtain ⟨⟨before', after'⟩, hcut, heq⟩ := Option.map_eq_some_iff.mp h
        obtain ⟨rfl, rfl⟩ := Prod.mk.inj heq
        rw [ih hcut, List.cons_append, List.cons_append]

/-- A separator of two bytes is found at its first place. -/
theorem cut_at (h : ¬[a, b] <:+: s) (hab : a ≠ b) :
    cut [a, b] (s ++ a :: b :: t) = some (s, t) := by
  induction s with
  | nil => simp [cut]
  | cons c s ih =>
      have hnot : ¬[a, b].isPrefixOf (c :: (s ++ a :: b :: t)) = true := by
        rw [List.isPrefixOf_iff_prefix]
        intro hstart
        obtain ⟨hac, hrest⟩ := List.cons_prefix_cons.mp hstart
        cases s with
        | nil => exact hab (List.cons_prefix_cons.mp hrest).1.symm
        | cons d s =>
            obtain ⟨hbd, -⟩ := List.cons_prefix_cons.mp hrest
            exact h ⟨[], s, by rw [hac, hbd]; rfl⟩
      have hrest : ¬[a, b] <:+: s := fun hin => h (hin.trans (List.suffix_cons c s).isInfix)
      rw [List.cons_append, cut, if_neg hnot, ih hrest]
      rfl

theorem cut_pair (h : a ∉ s ∨ b ∉ s) (hab : a ≠ b) :
    cut [a, b] (s ++ a :: b :: t) = some (s, t) := by
  refine cut_at (fun hin => ?_) hab
  rcases h with h | h
  · exact h (hin.subset List.mem_cons_self)
  · exact h (hin.subset (List.mem_cons_of_mem a List.mem_cons_self))

/-- A pair of bytes that is not in a text is not in one that only goes on without its second
byte. -/
theorem not_infix_append (h : ¬[a, b] <:+: s) (ht : b ∉ t) : ¬[a, b] <:+: s ++ t := by
  rintro ⟨x, y, heq⟩
  rcases List.append_eq_append_iff.mp heq with ⟨z, hs, -⟩ | ⟨z, hx, hz⟩
  · exact h ⟨x, z, hs.symm⟩
  · rcases List.eq_nil_or_concat z with rfl | ⟨z, c, rfl⟩
    · exact h ⟨x, [], by rw [List.append_nil, hx, List.append_nil]⟩
    · have hlast := congrArg List.getLast? hx
      rw [List.concat_eq_append, ← List.append_assoc, List.getLast?_concat,
        List.getLast?_append] at hlast
      obtain rfl : b = c := Option.some.inj hlast
      refine ht (hz ▸ List.mem_append_left y ?_)
      rw [List.concat_eq_append]
      exact List.mem_append_right z (List.mem_singleton_self b)

theorem cut_eq_none_iff {sep : Bytes} (hsep : sep ≠ []) : cut sep s = none ↔ ¬sep <:+: s := by
  induction s with
  | nil => exact iff_of_true rfl (mt List.eq_nil_of_infix_nil hsep)
  | cons c s ih =>
      rw [cut, List.infix_cons_iff, not_or, ← ih, ← List.isPrefixOf_iff_prefix]
      split
      · next hstart => exact iff_of_false nofun fun h => h.1 hstart
      · next hstart => rw [Option.map_eq_none_iff, and_iff_right hstart]

theorem cut_none (h : b ∉ s) : cut [a, b] s = none := by
  rw [cut_eq_none_iff (List.cons_ne_nil a [b])]
  exact fun hin => h (hin.subset (List.mem_cons_of_mem a (List.mem_singleton_self b)))

theorem cut_byte (h : a ∉ s) : cut [a] (s ++ a :: t) = some (s, t) := by
  induction s with
  | nil => simp [cut]
  | cons b s ih =>
      have hb : a ≠ b := fun heq => h (heq ▸ List.mem_cons_self)
      have hnot : ¬[a].isPrefixOf (b :: (s ++ a :: t)) = true := by
        rw [List.isPrefixOf_iff_prefix]
        exact fun hstart => hb (List.cons_prefix_cons.mp hstart).1
      rw [List.cons_append, cut, if_neg hnot, ih (mt (List.mem_cons_of_mem b) h)]
      rfl

/-- A separator is not found in a text that does not have the byte it begins with. -/
theorem cut_skip {sep : Bytes} (h : a ∉ s) : cut (a :: sep) (s ++ t)
    = (cut (a :: sep) t).map fun (before, after) => (s ++ before, after) := by
  induction s with
  | nil => exact Option.map_id'.symm
  | cons b s ih =>
      have hnot : ¬(a :: sep).isPrefixOf (b :: (s ++ t)) = true := by
        rw [List.isPrefixOf_iff_prefix]
        exact fun hstart => h ((List.cons_prefix_cons.mp hstart).1 ▸ List.mem_cons_self)
      rw [List.cons_append, cut, if_neg hnot, ih (mt (List.mem_cons_of_mem b) h), Option.map_map]
      rfl

/-- A doubled byte is not found at a single one. -/
theorem cut_single (hb : a ≠ b) : cut [a, a] (a :: b :: t)
    = (cut [a, a] (b :: t)).map fun (before, after) => (a :: before, after) := by
  rw [cut, if_neg]
  rw [List.isPrefixOf_iff_prefix]
  intro hstart
  exact hb (List.cons_prefix_cons.mp (List.cons_prefix_cons.mp hstart).2).1

theorem cutLast_none (h : c ∉ s) : cutLast c s = none := by
  induction s with
  | nil => rfl
  | cons b s ih =>
      have hb : b ≠ c := fun heq => h (heq ▸ List.mem_cons_self)
      rw [cutLast, ih (mt (List.mem_cons_of_mem b) h)]
      exact if_neg hb

theorem cutLast_append (h : c ∉ t) : cutLast c (s ++ c :: t) = some (s, t) := by
  induction s with
  | nil =>
      rw [List.nil_append, cutLast, cutLast_none h]
      exact if_pos rfl
  | cons b s ih => rw [List.cons_append, cutLast, ih]

/-- What is before the last of a byte, and what is after it. -/
theorem cutLast_of_mem (h : c ∈ s) :
    ∃ before after, cutLast c s = some (before, after) ∧ s = before ++ c :: after ∧ c ∉ after := by
  induction s with
  | nil => exact absurd h List.not_mem_nil
  | cons b s ih =>
      by_cases hs : c ∈ s
      · obtain ⟨before, after, hcut, rfl, hafter⟩ := ih hs
        exact ⟨b :: before, after, by rw [cutLast, hcut], rfl, hafter⟩
      · have hb : b = c := ((List.mem_cons.mp h).resolve_right hs).symm
        exact ⟨[], s, by rw [cutLast, cutLast_none hs]; exact if_pos hb, by rw [hb]; rfl, hs⟩

end Tracep
