import Mathlib.Data.List.DropRight
import Tracep.Lib.Fields

/-!
# Formatted input

The directives of `sscanf` that take words and decimal numbers, and plain
characters. A directive skips white space, takes what it can and may assign
it; the first that finds nothing ends the scan. So a number takes no more
than its digits, and what comes right after them is left to the next
directive.
-/

namespace Tracep.Scanf

open Libc Fields

/-- A piece of white space, a character, a number or a word of at most so many bytes in a format.
What is not kept is read and not assigned. -/
inductive Directive where
  | blank
  | literal (b : UInt8)
  | int (keep : Bool)
  | word (width : Option Nat) (keep : Bool)
deriving Repr, DecidableEq

inductive Value where
  | int (n : Int)
  | word (s : Bytes)
deriving Repr, DecidableEq

/-- As much of a word as there is room for. -/
def taken : Option Nat → Bytes → Bytes
  | some width, word => word.take width
  | none, word => word

/-- The values that are assigned. -/
def sscanf : List Directive → Bytes → List Value
  | [], _ => []
  | .blank :: ds, s => sscanf ds (s.dropWhile isSpace)
  | .literal _ :: _, [] => []
  | .literal b :: ds, c :: s => if c = b then sscanf ds s else []
  | .int keep :: ds, s =>
      let t := (Strconv.signed (s.dropWhile isSpace)).2
      if t.takeWhile isDigit = [] then []
      else (if keep then [.int (strtol s)] else []) ++ sscanf ds (t.dropWhile isDigit)
  | .word width keep :: ds, s =>
      let t := s.dropWhile isSpace
      let word := t.takeWhile fun b => !isSpace b
      if word = [] then []
      else (if keep then [.word (taken width word)] else [])
        ++ sscanf ds (t.drop (taken width word).length)

variable {ds : List Directive} {keep : Bool} {width : Option Nat} {s rest word : Bytes}

theorem strtol_dropWhile (s : Bytes) : strtol (s.dropWhile isSpace) = strtol s := by
  rw [strtol, leading, List.dropWhile_idempotent]
  rfl

/-- White space in a format before a directive that skips it makes no difference. -/
@[simp] theorem sscanf_blank_int : sscanf (.blank :: .int keep :: ds) s = sscanf (.int keep :: ds) s := by
  simp only [sscanf, List.dropWhile_idempotent, strtol_dropWhile]

@[simp] theorem sscanf_blank_word :
    sscanf (.blank :: .word width keep :: ds) s = sscanf (.word width keep :: ds) s := by
  simp only [sscanf, List.dropWhile_idempotent]

theorem dropWhile_spaces (n : Nat) (hword : Visible word) (hne : word ≠ []) :
    (List.replicate n 32 ++ word ++ rest).dropWhile isSpace = word ++ rest := by
  induction n with
  | zero =>
      obtain ⟨b, word, rfl⟩ := List.exists_cons_of_ne_nil hne
      have hb := isSpace_of_visible (hword b List.mem_cons_self).1
      exact List.dropWhile_cons_of_neg (by rw [hb]; exact Bool.false_ne_true)
  | succ n ih =>
      rw [List.replicate_succ, List.cons_append, List.cons_append, List.dropWhile_cons_of_pos (by rfl)]
      exact ih

theorem head_of_ends (hrest : Ends (oneOf isSpace) rest) : ∀ b ∈ rest.head?, isSpace b = true := by
  cases rest with
  | nil => nofun
  | cons b rest =>
      intro c hc
      obtain rfl := Option.some.inj hc
      by_contra hb
      have hblank : oneOf isSpace (b :: rest) = 1 := hrest rest
      rw [oneOf, if_neg hb] at hblank
      cases hblank

/-- A word ends at white space. -/
theorem takeWhile_word (hword : Visible word) (hrest : Ends (oneOf isSpace) rest) :
    (word ++ rest).takeWhile (fun b => !isSpace b) = word := by
  have hplain : ∀ b ∈ word, (!isSpace b) = true := fun b hb => by
    rw [isSpace_of_visible (hword b hb).1]
    rfl
  rw [List.takeWhile_append_of_pos hplain]
  cases rest with
  | nil => exact List.append_nil word
  | cons b rest =>
      have hb : isSpace b = true := head_of_ends hrest b rfl
      rw [List.takeWhile_cons_of_neg (by rw [hb]; exact Bool.false_ne_true), List.append_nil]

/-- The next word is taken, if there is room for it. -/
theorem sscanf_word (n : Nat) (hword : Visible word) (hne : word ≠ [])
    (hwidth : ∀ w ∈ width, word.length ≤ w) (hrest : Ends (oneOf isSpace) rest) :
    sscanf (.word width keep :: ds) (List.replicate n 32 ++ word ++ rest)
      = (if keep then [.word word] else []) ++ sscanf ds rest := by
  have htaken : taken width word = word := by
    cases width with
    | none => rfl
    | some w => exact List.take_of_length_le (hwidth w rfl)
  simp only [sscanf, dropWhile_spaces n hword hne, takeWhile_word hword hrest, htaken, if_neg hne,
    List.drop_left]

theorem sscanf_word_now (hword : Visible word) (hne : word ≠ [])
    (hwidth : ∀ w ∈ width, word.length ≤ w) (hrest : Ends (oneOf isSpace) rest) :
    sscanf (.word width keep :: ds) (word ++ rest)
      = (if keep then [.word word] else []) ++ sscanf ds rest :=
  sscanf_word 0 hword hne hwidth hrest

/-- A digit is no sign. -/
theorem signed_cons {b : UInt8} (hb : isDigit b = true) : Strconv.signed (b :: s) = (false, b :: s) := by
  unfold Strconv.signed
  split
  · next heq =>
      obtain ⟨rfl, -⟩ := List.cons.inj heq
      cases hb
  · next heq =>
      obtain ⟨rfl, -⟩ := List.cons.inj heq
      cases hb
  · rfl

theorem signed_digits_append (n : Nat) :
    Strconv.signed (digits 10 n ++ rest) = (false, digits 10 n ++ rest) := by
  have hdigit := Strconv.digits_isDigit n
  obtain ⟨b, s, hs⟩ := List.exists_cons_of_ne_nil (Strconv.digits_ne_nil n)
  rw [hs] at hdigit ⊢
  exact signed_cons (hdigit b List.mem_cons_self)

theorem signed_intText (v : Int) :
    (Strconv.signed (intText v ++ rest)).2 = digits 10 v.natAbs ++ rest := by
  unfold intText
  split
  · rfl
  · rw [signed_digits_append]

theorem no_digits (hrest : ∀ b ∈ rest.head?, isDigit b = false) :
    rest.takeWhile isDigit = [] ∧ rest.dropWhile isDigit = rest := by
  cases rest with
  | nil => exact ⟨rfl, rfl⟩
  | cons b rest =>
      have hb := hrest b rfl
      rw [List.takeWhile_cons_of_neg (by rw [hb]; exact Bool.false_ne_true),
        List.dropWhile_cons_of_neg (by rw [hb]; exact Bool.false_ne_true)]
      exact ⟨rfl, rfl⟩

theorem takeWhile_digits (n : Nat) (hrest : ∀ b ∈ rest.head?, isDigit b = false) :
    (digits 10 n ++ rest).takeWhile isDigit = digits 10 n := by
  rw [List.takeWhile_append_of_pos (Strconv.digits_isDigit n), (no_digits hrest).1,
    List.append_nil]

/-- The number after blanks and before anything but a digit. -/
theorem strtol_spaces (k : Nat) {n : Nat} (h : n < 2 ^ 63)
    (hrest : ∀ b ∈ rest.head?, isDigit b = false) :
    strtol (List.replicate k 32 ++ digits 10 n ++ rest) = n := by
  rw [strtol, leading, dropWhile_spaces k (visible_digits n) (Strconv.digits_ne_nil n),
    signed_digits_append]
  simp only [takeWhile_digits n hrest, Strconv.digitsValue_digits]
  change min (n : Int) (2 ^ 63 - 1) = n
  omega

/-- The digits of the next number are taken. -/
theorem sscanf_int (n : Nat) (v : Int) (hrest : ∀ b ∈ rest.head?, isDigit b = false) :
    sscanf (.int keep :: ds) (List.replicate n 32 ++ intText v ++ rest)
      = (if keep then [.int (strtol (List.replicate n 32 ++ intText v ++ rest))] else [])
        ++ sscanf ds rest := by
  have hdigit := Strconv.digits_isDigit v.natAbs
  simp only [sscanf, dropWhile_spaces n (visible_intText v) (intText_ne_nil v), signed_intText,
    List.takeWhile_append_of_pos hdigit, List.dropWhile_append_of_pos hdigit, no_digits hrest,
    List.append_nil, if_neg (Strconv.digits_ne_nil v.natAbs)]

/-! ## Lines of columns -/

section Columns

variable {n : Nat} {columns : List (Nat × Bytes)}

theorem ends_columns (h : Words ((n, word) :: columns)) (hrest : Ends (oneOf isSpace) rest) :
    Ends (oneOf isSpace) (columnsText 32 columns ++ rest) :=
  ends_columnsText ascii_isSpace.space h.apart hrest

/-- ` %*s`, so many times. -/
def skips : Nat → List Directive
  | 0 => []
  | k + 1 => .blank :: .word none false :: skips k

/-- Words that are not kept take as many columns. -/
theorem sscanf_skips (ds : List Directive) {first : List (Nat × Bytes)} (h : Words (first ++ columns))
    (hrest : Ends (oneOf isSpace) rest) :
    sscanf (skips first.length ++ ds) (columnsText 32 (first ++ columns) ++ rest)
      = sscanf ds (columnsText 32 columns ++ rest) := by
  induction first with
  | nil => rfl
  | cons column first ih =>
      rw [List.cons_append] at h
      obtain ⟨hne, hword⟩ := h.word _ List.mem_cons_self
      have hwidth : ∀ w ∈ (none : Option Nat), column.2.length ≤ w := nofun
      have hends := ends_columns h hrest
      rw [List.length_cons, skips, List.cons_append, List.cons_append, List.cons_append,
        sscanf_blank_word, columnsText_cons, sscanf_word column.1 hword hne hwidth hends]
      exact ih h.tail

/-- A number takes a column that is one. -/
theorem sscanf_column_int {v : Int} (h : Words ((n, intText v) :: columns))
    (hrest : Ends (oneOf isSpace) rest) :
    sscanf (.int keep :: ds) (columnsText 32 ((n, intText v) :: columns) ++ rest)
      = (if keep then [.int (strtol (columnsText 32 ((n, intText v) :: columns) ++ rest))] else [])
        ++ sscanf ds (columnsText 32 columns ++ rest) := by
  have hafter : ∀ b ∈ (columnsText 32 columns ++ rest).head?, isDigit b = false := by
    intro b hb
    have hspace := head_of_ends (ends_columns h hrest) b hb
    refine Bool.eq_false_iff.mpr fun hdigit => ?_
    rw [isSpace_of_isDigit hdigit] at hspace
    cases hspace
  rw [columnsText_cons, sscanf_int n v hafter]

end Columns

end Tracep.Scanf
