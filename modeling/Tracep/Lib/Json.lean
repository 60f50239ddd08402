import Tracep.Lib.Hex
import Tracep.Lib.Utf8

/-!
# JSON strings

What stands between the quotes of a JSON string: bytes that stand for
themselves, escapes of a letter, and escapes of four hexadecimal digits.
`unescape` takes the escapes off; what it takes is well formed (`Chars`). Two
escapes that stand for one character between them are left out.
-/

namespace Tracep.Json

/-- What a letter stands for after a backslash: a quote, a backslash or a slash, or `b`, `f`, `n`,
`r` or `t`. -/
def shortEscape (b : UInt8) : Option UInt8 :=
  if b = 34 ∨ b = 92 ∨ b = 47 then some b
  else if b = 98 then some 8
  else if b = 102 then some 12
  else if b = 110 then some 10
  else if b = 114 then some 13
  else if b = 116 then some 9
  else none

/-- The character with a number of four digits, if there is one. -/
def longEscape (digits : Bytes) : Option Bytes :=
  if digits.all isHex ∧ (hexNumber 0 digits).isValidChar then
    some (Utf8.encodeRune (Char.ofNat (hexNumber 0 digits)))
  else none

/-- What a text between quotes stands for. -/
def unescape : Bytes → Option Bytes
  | [] => some []
  | 92 :: 117 :: a :: b :: c :: d :: s =>
      (longEscape [a, b, c, d]).bind fun v => (unescape s).map (v ++ ·)
  | 92 :: b :: s => (shortEscape b).bind fun v => (unescape s).map (v :: ·)
  | b :: s => if b < 32 ∨ b = 34 ∨ b = 92 then none else (unescape s).map (b :: ·)

/-- The characters of a string, each a byte that stands for itself or a whole escape. -/
inductive Chars : Bytes → Prop
  | nil : Chars []
  | plain {b : UInt8} {s : Bytes} (hb : ¬(b < 32 ∨ b = 34 ∨ b = 92)) (hs : Chars s) :
      Chars (b :: s)
  | short {b : UInt8} {s : Bytes} (hb : (shortEscape b).isSome) (hs : Chars s) :
      Chars (92 :: b :: s)
  | long {a b c d : UInt8} {s : Bytes} (hdigits : ∀ x ∈ [a, b, c, d], isHex x = true)
      (hs : Chars s) : Chars (92 :: 117 :: a :: b :: c :: d :: s)

variable {s t : Bytes} {b : UInt8}

/-! ## Reading -/

theorem unescape_plain (hb : ¬(b < 32 ∨ b = 34 ∨ b = 92)) :
    unescape (b :: s) = (unescape s).map (b :: ·) := by
  have h92 : b ≠ 92 := fun heq => hb (Or.inr (Or.inr heq))
  rw [unescape, if_neg hb]
  · exact fun _ _ _ _ _ heq => absurd heq h92
  · exact fun _ _ heq => absurd heq h92

theorem unescape_short {v : UInt8} (hb : shortEscape b = some v) :
    unescape (92 :: b :: s) = (unescape s).map (v :: ·) := by
  rw [unescape, hb]
  · rfl
  · rintro a b c d s rfl
    cases hb

theorem unescape_long {a b c d : UInt8} {v : Bytes} (h : longEscape [a, b, c, d] = some v) :
    unescape (92 :: 117 :: a :: b :: c :: d :: s) = (unescape s).map (v ++ ·) := by
  rw [unescape, h]
  rfl

/-- What is read begins with a byte for itself or an escape, and the rest is read. -/
theorem unescape_step (h : unescape s = some t) : s = []
    ∨ (∃ b s' t', s = b :: s' ∧ ¬(b < 32 ∨ b = 34 ∨ b = 92) ∧ unescape s' = some t')
    ∨ (∃ b s' t', s = 92 :: b :: s' ∧ (shortEscape b).isSome ∧ unescape s' = some t')
    ∨ ∃ a b c d s' t', s = 92 :: 117 :: a :: b :: c :: d :: s'
      ∧ (longEscape [a, b, c, d]).isSome ∧ unescape s' = some t' := by
  unfold unescape at h
  split at h
  · exact Or.inl rfl
  · next a b c d s =>
      obtain ⟨v, hv, hrest⟩ := Option.bind_eq_some_iff.mp h
      obtain ⟨t', ht', -⟩ := Option.map_eq_some_iff.mp hrest
      exact Or.inr (Or.inr (Or.inr ⟨a, b, c, d, s, t', rfl, Option.isSome_of_mem hv, ht'⟩))
  · next b s _ =>
      obtain ⟨v, hv, hrest⟩ := Option.bind_eq_some_iff.mp h
      obtain ⟨t', ht', -⟩ := Option.map_eq_some_iff.mp hrest
      exact Or.inr (Or.inr (Or.inl ⟨b, s, t', rfl, Option.isSome_of_mem hv, ht'⟩))
  · next b s _ _ =>
      split at h
      · cases h
      · next hb =>
          obtain ⟨t', ht', -⟩ := Option.map_eq_some_iff.mp h
          exact Or.inr (Or.inl ⟨b, s, t', rfl, hb, ht'⟩)

/-- What is read is well formed. -/
theorem chars_of_unescape (h : unescape s = some t) : Chars s := by
  induction hn : s.length using Nat.strong_induction_on generalizing s t with
  | _ n ih =>
    subst hn
    rcases unescape_step h with rfl | ⟨b, s', t', rfl, hb, ht'⟩ | ⟨b, s', t', rfl, hb, ht'⟩
      | ⟨a, b, c, d, s', t', rfl, hlong, ht'⟩
    · exact .nil
    · exact .plain hb (ih _ (by simp only [List.length_cons]; omega) ht' rfl)
    · exact .short hb (ih _ (by simp only [List.length_cons]; omega) ht' rfl)
    · refine .long ?_ (ih _ (by simp only [List.length_cons]; omega) ht' rfl)
      unfold longEscape at hlong
      split at hlong
      · next hdigits => exact List.all_eq_true.mp hdigits.1
      · cases hlong

theorem le_of_shortEscape (hb : (shortEscape b).isSome) : 32 ≤ b := by
  unfold shortEscape at hb
  split_ifs at hb with h1 h2 h3 h4 h5 h6
  · rcases h1 with rfl | rfl | rfl <;> decide
  · exact h2 ▸ by decide
  · exact h3 ▸ by decide
  · exact h4 ▸ by decide
  · exact h5 ▸ by decide
  · exact h6 ▸ by decide
  · cases hb

/-- There are no control characters in a string. -/
theorem Chars.le (h : Chars s) : ∀ b ∈ s, 32 ≤ b := by
  induction h with
  | nil => exact List.forall_mem_nil _
  | plain hb hs ih => exact List.forall_mem_cons.mpr ⟨UInt8.not_lt.mp fun h => hb (Or.inl h), ih⟩
  | short hb hs ih =>
      exact List.forall_mem_cons.mpr ⟨by decide, List.forall_mem_cons.mpr
        ⟨le_of_shortEscape hb, ih⟩⟩
  | @long a b c d s hdigits hs ih =>
      have hle : ∀ x ∈ [a, b, c, d], 32 ≤ x := fun x hx =>
        UInt8.le_of_lt (visible_of_isHex (hdigits x hx)).1
      refine List.forall_mem_cons.mpr ⟨by decide, List.forall_mem_cons.mpr ⟨by decide, ?_⟩⟩
      rw [show a :: b :: c :: d :: s = [a, b, c, d] ++ s from rfl]
      exact List.forall_mem_append.mpr ⟨hle, ih⟩

end Tracep.Json
