import Tracep.Lib.Bytes

/-!
# Shell words

How a shell reads one word of its input, as far as quotes go: single quotes
keep everything but themselves, outside of them a backslash keeps a single
quote and `$'\n'` is a newline, and every other byte stands for itself
unless it ends the word or begins an expansion. What is not one complete
word (an open quote, half an escape) has no value.

The rules after the definition read a word piece by piece.
-/

namespace Tracep.Shell

/-- Blanks and the bytes that have to be quoted. -/
def metaBytes : Bytes := [32, 9, 10, 124, 38, 59, 60, 62, 40, 41, 36, 96, 92, 34, 39]

/-- What the rest of a word stands for, inside single quotes or not. -/
def readWord : Bool → Bytes → Option Bytes
  | false, [] => some []
  | true, [] => none
  | false, 39 :: s => readWord true s
  | false, 92 :: 39 :: s => (readWord false s).map (39 :: ·)
  | false, 36 :: 39 :: 92 :: 110 :: 39 :: s => (readWord false s).map (10 :: ·)
  | false, b :: s => if b ∈ metaBytes then none else (readWord false s).map (b :: ·)
  | true, 39 :: s => readWord false s
  | true, b :: s => (readWord true s).map (b :: ·)

/-- What a word stands for. -/
def value (word : Bytes) : Option Bytes := if word = [] then none else readWord false word

variable {s t rest : Bytes} {b : UInt8}

@[simp] theorem readWord_open : readWord false (39 :: s) = readWord true s :=
  rfl

@[simp] theorem readWord_close : readWord true (39 :: s) = readWord false s :=
  rfl

theorem readWord_literal (h : b ∉ metaBytes) :
    readWord false (b :: s) = (readWord false s).map (b :: ·) := by
  have h39 : b ≠ 39 := fun heq => h (heq ▸ by decide)
  have h92 : b ≠ 92 := fun heq => h (heq ▸ by decide)
  have h36 : b ≠ 36 := fun heq => h (heq ▸ by decide)
  rw [readWord, if_neg h]
  · exact h39
  · exact fun _ heq => absurd heq h92
  · exact fun _ heq => absurd heq h36

theorem readWord_quoted (h : b ≠ 39) :
    readWord true (b :: s) = (readWord true s).map (b :: ·) := by
  rw [readWord]
  exact h

/-- A single quote inside single quotes. -/
theorem readWord_quote :
    readWord true ([39, 92, 39, 39] ++ s) = (readWord true s).map (39 :: ·) :=
  rfl

/-- A newline inside single quotes. -/
theorem readWord_newline :
    readWord true ([39, 36, 39, 92, 110, 39, 39] ++ s) = (readWord true s).map (10 :: ·) :=
  rfl

/-- A word that needs no quotes. -/
theorem readWord_plain (h : ∀ b ∈ s, b ∉ metaBytes) : readWord false s = some s := by
  induction s with
  | nil => rfl
  | cons b s ih =>
      obtain ⟨hb, hs⟩ := List.forall_mem_cons.mp h
      rw [readWord_literal hb, ih hs]
      rfl

end Tracep.Shell
