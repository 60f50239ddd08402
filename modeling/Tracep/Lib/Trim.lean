import Mathlib.Data.List.DropRight
import Tracep.Lib.Fields

/-!
# White space around a text

`strings.TrimSpace` takes off all that is white space in Unicode, at both
ends of a text. C programs take off some bytes, and `strtol` itself passes
over ASCII white space before a number. Both leave the same of a word that
has ASCII white space around it (`trimSpace_word`). Bytes of ASCII white space
taken off first make no difference to `strings.TrimSpace`
(`trimSpace_trimBytes`), and neither does `strings.TrimSpace` itself
(`trimSpace_trimSpace`).

A token of `strtok` at one byte is a part of the text that is not empty
(`strtok_single`), so it is a part that `strings.Split` gives.
-/

namespace Tracep.Fields

open Libc (isSpace)

/-- What is left after the white space that a text begins with, and after so many bytes more. -/
def trimLeftFrom : Nat → Bytes → Bytes
  | _, [] => []
  | k + 1, _ :: s => trimLeftFrom k s
  | 0, b :: s =>
      match whiteSpace (b :: s) with
      | 0 => b :: s
      | k + 1 => trimLeftFrom k s

def trimLeft (s : Bytes) : Bytes := trimLeftFrom 0 s

/-- A text up to the white space that is at its end. -/
def trimRight : Bytes → Bytes
  | [] => []
  | b :: s => if trimLeft (b :: s) = [] then [] else b :: trimRight s

/-- `strings.TrimSpace`. -/
def trimSpace (s : Bytes) : Bytes := trimRight (trimLeft s)

/-- Take some bytes off both ends. -/
def trimBytes (p : UInt8 → Bool) (s : Bytes) : Bytes := (s.dropWhile p).rdropWhile p

variable {s t lead word trail : Bytes} {b : UInt8}

theorem isSpace_lt (h : isSpace b = true) : b < 0x80 := by
  rw [isSpace, Bool.or_eq_true, Bool.and_eq_true, beq_iff_eq, decide_eq_true_eq,
    decide_eq_true_eq] at h
  rcases h with rfl | ⟨-, h⟩
  · decide
  · exact UInt8.lt_of_le_of_lt h (by decide)

theorem trimLeft_space (h : isSpace b = true) : trimLeft (b :: s) = trimLeft s := by
  rw [trimLeft, trimLeftFrom, blank_whiteSpace (isSpace_lt h) h]
  rfl

theorem trimLeft_spaces (h : ∀ b ∈ lead, isSpace b = true) :
    trimLeft (lead ++ s) = trimLeft s := by
  induction lead with
  | nil => rfl
  | cons b lead ih =>
      obtain ⟨hb, hlead⟩ := List.forall_mem_cons.mp h
      rw [List.cons_append, trimLeft_space hb, ih hlead]

theorem trimLeft_plain (h : Plain whiteSpace b) : trimLeft (b :: s) = b :: s := by
  rw [trimLeft, trimLeftFrom, h]

theorem trimRight_word (hword : ∀ b ∈ word, Plain whiteSpace b)
    (htrail : ∀ b ∈ trail, isSpace b = true) : trimRight (word ++ trail) = word := by
  induction word with
  | nil =>
      have hnone : trimLeft trail = [] := by
        rw [← List.append_nil trail, trimLeft_spaces htrail]
        rfl
      cases trail with
      | nil => rfl
      | cons b trail => exact if_pos hnone
  | cons b word ih =>
      obtain ⟨hb, hword⟩ := List.forall_mem_cons.mp hword
      rw [List.cons_append, trimRight, trimLeft_plain hb, if_neg (List.cons_ne_nil _ _), ih hword]

theorem trimSpace_word (hlead : ∀ b ∈ lead, isSpace b = true)
    (hword : ∀ b ∈ word, Plain whiteSpace b) (htrail : ∀ b ∈ trail, isSpace b = true) :
    trimSpace (lead ++ (word ++ trail)) = word := by
  rw [trimSpace, trimLeft_spaces hlead]
  cases word with
  | nil =>
      rw [List.nil_append, ← List.append_nil trail, trimLeft_spaces htrail]
      rfl
  | cons b word =>
      rw [List.cons_append, trimLeft_plain (List.forall_mem_cons.mp hword).1, ← List.cons_append,
        trimRight_word hword htrail]

/-- What is taken off the ends, and what is left. -/
theorem trimBytes_around (p : UInt8 → Bool) (s : Bytes) :
    ∃ lead trail, s = lead ++ (trimBytes p s ++ trail) ∧ (∀ b ∈ lead, p b = true)
      ∧ ∀ b ∈ trail, p b = true := by
  refine ⟨s.takeWhile p, (s.dropWhile p).rtakeWhile p, ?_, fun b => List.mem_takeWhile_imp,
    fun b => List.mem_rtakeWhile_imp⟩
  rw [trimBytes, List.rdropWhile_append_rtakeWhile, List.takeWhile_append_dropWhile]

/-! ## What follows a text -/

/-- Nothing that follows makes white space another. -/
theorem whiteSpace_append (h : whiteSpace s ≠ 0) : whiteSpace (s ++ t) = whiteSpace s := by
  fun_cases whiteSpace s with
  | case8 b rest _ _ _ _ _ hb =>
      rw [List.cons_append, whiteSpace_ascii (isSpace_lt hb) _, if_pos hb]
  | _ => simp_all [whiteSpace]

theorem whiteSpace_le (s : Bytes) : whiteSpace s ≤ s.length := by
  fun_cases whiteSpace s <;> simp

theorem whiteSpace_take (s : Bytes) : whiteSpace (s.take (whiteSpace s)) = whiteSpace s := by
  fun_cases whiteSpace s with
  | case8 b rest _ _ _ _ _ hb =>
      rw [List.take_succ_cons, whiteSpace_ascii (isSpace_lt hb) _, if_pos hb]
  | _ => simp_all [whiteSpace]

/-- White space of more than one byte goes on with bytes that are not ASCII. -/
theorem le_of_mem_whiteSpace (h : b ∈ (s.take (whiteSpace s)).tail) : 0x80 ≤ b := by
  unfold whiteSpace at h
  split at h
  · split at h
    · next hb =>
        obtain rfl : b = _ := by simpa using h
        rcases hb with rfl | rfl <;> simp
    · cases h
  · rcases (by simpa using h : b = 0x9a ∨ b = 0x80) with rfl | rfl <;> simp
  · split at h
    · next c _ hc =>
        rcases (by simpa using h : b = 0x80 ∨ b = c) with rfl | rfl
        · simp
        · rcases hc with hc | rfl | rfl | rfl
          · exact hc.1
          all_goals simp
    · cases h
  · rcases (by simpa using h : b = 0x81 ∨ b = 0x9f) with rfl | rfl <;> simp
  · rw [show b = 0x80 by simpa using h]
    simp
  · split at h <;> cases h
  · cases h

/-- ASCII does not make white space of what is none. -/
theorem whiteSpace_append_ascii (hne : s ≠ []) (h : whiteSpace s = 0) (ht : ∀ b ∈ t, b < 0x80) :
    whiteSpace (s ++ t) = 0 := by
  by_contra hsome
  have hpos := List.length_pos_iff.mpr hne
  by_cases hlen : whiteSpace (s ++ t) ≤ s.length
  · -- then it is white space of the text itself
    have htake := whiteSpace_take (s ++ t)
    rw [List.take_append_of_le_length hlen] at htake
    have happend := whiteSpace_append (t := s.drop (whiteSpace (s ++ t))) (htake ▸ hsome)
    rw [List.take_append_drop, h] at happend
    exact hsome (htake.symm.trans happend.symm)
  · have hlt : s.length < (s ++ t).length := by
      have := whiteSpace_le (s ++ t)
      omega
    have hmem : (s ++ t)[s.length] ∈ ((s ++ t).take (whiteSpace (s ++ t))).tail := by
      rw [List.mem_iff_getElem]
      refine ⟨s.length - 1, by simp at hlt ⊢; omega, ?_⟩
      simp only [List.getElem_tail, List.getElem_take]
      congr 1
      omega
    have hbyte := ht (s ++ t)[s.length] (by
      rw [List.getElem_append_right le_rfl]
      exact List.getElem_mem _)
    exact absurd (le_of_mem_whiteSpace hmem) (UInt8.not_le.mpr hbyte)

/-! ## What is trimmed -/

theorem trimLeftFrom_eq (k : Nat) (s : Bytes) : trimLeftFrom k s = trimLeft (s.drop k) := by
  induction k generalizing s with
  | zero => rfl
  | succ k ih =>
      cases s with
      | nil => rfl
      | cons b s => exact ih s

theorem trimLeft_of_none (h : whiteSpace s = 0) : trimLeft s = s := by
  cases s with
  | nil => rfl
  | cons b s => rw [trimLeft, trimLeftFrom, h]

theorem trimLeft_of_some (h : whiteSpace s ≠ 0) :
    trimLeft s = trimLeft (s.drop (whiteSpace s)) := by
  cases s with
  | nil => rfl
  | cons b s =>
      obtain ⟨k, hk⟩ := Nat.exists_eq_succ_of_ne_zero h
      rw [trimLeft, trimLeftFrom, hk]
      exact trimLeftFrom_eq k s

theorem whiteSpace_trimLeft (s : Bytes) : whiteSpace (trimLeft s) = 0 := by
  generalize hn : s.length = n
  induction n using Nat.strongRecOn generalizing s with
  | _ n ih =>
      by_cases h : whiteSpace s = 0
      · rw [trimLeft_of_none h, h]
      · have hle := whiteSpace_le s
        rw [trimLeft_of_some h]
        exact ih _ (by rw [List.length_drop]; omega) _ rfl

theorem trimLeft_append (h : trimLeft s = []) : trimLeft (s ++ t) = trimLeft t := by
  generalize hn : s.length = n
  induction n using Nat.strongRecOn generalizing s with
  | _ n ih =>
      by_cases hnone : whiteSpace s = 0
      · rw [trimLeft_of_none hnone] at h
        rw [h, List.nil_append]
      · have hle := whiteSpace_le s
        rw [trimLeft_of_some hnone] at h
        rw [trimLeft_of_some (by rwa [whiteSpace_append hnone]), whiteSpace_append hnone,
          List.drop_append_of_le_length hle]
        exact ih _ (by rw [List.length_drop]; omega) h rfl

/-- ASCII after a text with something else than white space stays. -/
theorem trimLeft_append_ascii (h : trimLeft s ≠ []) (ht : ∀ b ∈ t, b < 0x80) :
    trimLeft (s ++ t) = trimLeft s ++ t := by
  generalize hn : s.length = n
  induction n using Nat.strongRecOn generalizing s with
  | _ n ih =>
      by_cases hnone : whiteSpace s = 0
      · rw [trimLeft_of_none hnone] at h ⊢
        exact trimLeft_of_none (whiteSpace_append_ascii h hnone ht)
      · have hle := whiteSpace_le s
        rw [trimLeft_of_some hnone] at h ⊢
        rw [trimLeft_of_some (by rwa [whiteSpace_append hnone]), whiteSpace_append hnone,
          List.drop_append_of_le_length hle]
        exact ih _ (by rw [List.length_drop]; omega) h rfl

/-- What is taken off at the end is white space. -/
theorem trimRight_around (s : Bytes) : ∃ trail, s = trimRight s ++ trail ∧ trimLeft trail = [] := by
  induction s with
  | nil => exact ⟨[], rfl, rfl⟩
  | cons b s ih =>
      by_cases h : trimLeft (b :: s) = []
      · exact ⟨b :: s, by rw [trimRight, if_pos h]; rfl, h⟩
      · obtain ⟨trail, hs, htrail⟩ := ih
        refine ⟨trail, ?_, htrail⟩
        rw [trimRight, if_neg h, List.cons_append, ← hs]

/-- No more than that can be. -/
theorem trimRight_length_le (h : trimLeft t = []) : (trimRight (s ++ t)).length ≤ s.length := by
  induction s with
  | nil =>
      cases t with
      | nil => exact le_rfl
      | cons b t => rw [List.nil_append, trimRight, if_pos h]
  | cons b s ih =>
      rw [List.cons_append, trimRight]
      split
      · exact Nat.zero_le _
      · exact Nat.succ_le_succ ih

theorem trimRight_begins (s : Bytes) : trimRight s <+: s := by
  obtain ⟨trail, hs, -⟩ := trimRight_around s
  exact ⟨trail, hs.symm⟩

theorem trimRight_trimRight (s : Bytes) : trimRight (trimRight s) = trimRight s := by
  refine (trimRight_begins _).eq_of_length_le ?_
  obtain ⟨trail, hs, htrail⟩ := trimRight_around s
  obtain ⟨trail', hs', htrail'⟩ := trimRight_around (trimRight s)
  have hall : trimLeft (trail' ++ trail) = [] := (trimLeft_append htrail').trans htrail
  have hle := trimRight_length_le (s := trimRight (trimRight s)) hall
  rwa [← List.append_assoc, ← hs', ← hs] at hle

/-- A text that is trimmed stays as it is. -/
theorem trimSpace_trimSpace (s : Bytes) : trimSpace (trimSpace s) = trimSpace s := by
  have hnone : whiteSpace (trimSpace s) = 0 := by
    by_contra hsome
    obtain ⟨trail, ht⟩ := trimRight_begins (trimLeft s)
    have happend := whiteSpace_append (t := trail) hsome
    rw [trimSpace, ht, whiteSpace_trimLeft] at happend
    exact hsome happend.symm
  rw [trimSpace, trimLeft_of_none hnone]
  exact trimRight_trimRight _

theorem trimRight_append_spaces (ht : ∀ b ∈ t, isSpace b = true) :
    trimRight (s ++ t) = trimRight s := by
  have hwhite : trimLeft t = [] := by
    rw [← List.append_nil t, trimLeft_spaces ht]
    rfl
  have hprefix : trimRight (s ++ t) <+: s :=
    List.prefix_of_prefix_length_le (trimRight_begins _) (List.prefix_append s t)
      (trimRight_length_le hwhite)
  have hle : (trimRight (s ++ t)).length ≤ (trimRight s).length := by
    obtain ⟨trail, hs, htrail⟩ := trimRight_around s
    have hall : trimLeft (trail ++ t) = [] := (trimLeft_append htrail).trans hwhite
    have hle := trimRight_length_le (s := trimRight s) hall
    rwa [← List.append_assoc, ← hs] at hle
  have hge : (trimRight s).length ≤ (trimRight (s ++ t)).length := by
    obtain ⟨trail, htrail⟩ := hprefix
    obtain ⟨trail', hs', htrail'⟩ := trimRight_around (s ++ t)
    have hcut : trail' = trail ++ t := by
      have hsame : trimRight (s ++ t) ++ trail' = trimRight (s ++ t) ++ (trail ++ t) := by
        rw [← hs', ← List.append_assoc, htrail]
      exact List.append_cancel_left hsame
    have hnone : trimLeft trail = [] := by
      by_contra hne
      rw [hcut, trimLeft_append_ascii hne fun b hb => isSpace_lt (ht b hb)] at htrail'
      exact hne (List.append_eq_nil_iff.mp htrail').1
    have hle := trimRight_length_le (s := trimRight (s ++ t)) hnone
    rwa [htrail] at hle
  exact (List.prefix_of_prefix_length_le hprefix (trimRight_begins s) hle).eq_of_length_le hge

/-- Bytes of ASCII white space make no difference. -/
theorem trimSpace_trimBytes {p : UInt8 → Bool} (hp : ∀ b, p b = true → isSpace b = true)
    (s : Bytes) : trimSpace (trimBytes p s) = trimSpace s := by
  obtain ⟨lead, trail, hs, hlead, htrail⟩ := trimBytes_around p s
  have htrail' : ∀ b ∈ trail, isSpace b = true := fun b hb => hp b (htrail b hb)
  conv_rhs => rw [hs, trimSpace, trimLeft_spaces fun b hb => hp b (hlead b hb)]
  by_cases h : trimLeft (trimBytes p s) = []
  · rw [trimLeft_append h, ← List.append_nil trail, trimLeft_spaces htrail', trimSpace, h]
    rfl
  · rw [trimLeft_append_ascii h fun b hb => isSpace_lt (htrail' b hb),
      trimRight_append_spaces htrail', trimSpace]

/-! ## Tokens at one byte -/

theorem flush_append (word : Bytes) (pieces : List Bytes) :
    flush word ++ pieces.filter (· ≠ []) = (word :: pieces).filter (· ≠ []) := by
  by_cases hword : word = []
  · rw [flush, if_pos hword, List.filter_cons_of_neg (by simpa using hword)]
    rfl
  · rw [flush, if_neg hword, List.filter_cons_of_pos (by simpa using hword)]
    rfl

theorem splitFrom_single {c : UInt8} (h : c ∉ word) :
    splitFrom (oneOf ([c].contains ·)) 0 word s = ((word ++ s).splitOn c).filter (· ≠ []) := by
  induction s generalizing word with
  | nil =>
      rw [List.append_nil, List.splitOn_eq_singleton h, ← flush_append, splitFrom]
      exact (List.append_nil _).symm
  | cons b s ih =>
      by_cases hb : b = c
      · have hblank : oneOf ([c].contains ·) (b :: s) = 1 := blank_oneOf (by simp [hb]) s
        rw [splitFrom, hblank, hb, List.splitOn_append_cons_self_of_not_mem h, ← flush_append]
        exact congrArg (flush word ++ ·) (ih List.not_mem_nil)
      · have hplain : oneOf ([c].contains ·) (b :: s) = 0 := plain_oneOf (by simp [hb]) s
        have hword : c ∉ word ++ [b] := by
          rw [List.mem_append, List.mem_singleton, not_or]
          exact ⟨h, Ne.symm hb⟩
        rw [splitFrom, hplain]
        simp only []
        rw [ih hword, List.append_assoc]
        rfl

/-- The tokens at one byte are the parts between these bytes that are not empty. -/
theorem strtok_single (s : Bytes) (c : UInt8) :
    strtok [c] s = (s.splitOn c).filter (· ≠ []) :=
  splitFrom_single List.not_mem_nil

end Tracep.Fields
