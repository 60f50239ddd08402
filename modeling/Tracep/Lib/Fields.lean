import Tracep.Lib.Decimal

/-!
# Lines and fields of a text

A text is cut at its newlines and a line at its blanks. What is a blank
differs: for `strings.Fields` it may take several bytes, for `strtok` it is
one of a set of bytes. `split` takes the length of the blank that a text
begins with, and a line of columns comes apart into these for every notion
of a blank that knows the space, whatever follows them (`split_columns`).

A `bufio.Scanner` gives lines without their end and gives up at one that is
too long, `fgets` cuts a long one in pieces. Both give the lines of a text
that has only short ones (`scanLines_unlines`, `fgetsLines_unlines`).
-/

namespace Tracep.Fields

open Libc (isSpace)

variable {α : Type}

/-! ## Fields -/

/-- A word, if there is one. -/
def flush (word : List α) : List (List α) := if word = [] then [] else [word]

/-- The words after a word begun, with so many elements of a blank still to come. -/
def splitFrom (blank : List α → Nat) : Nat → List α → List α → List (List α)
  | _, word, [] => flush word
  | k + 1, word, _ :: s => splitFrom blank k word s
  | 0, word, b :: s =>
      match blank (b :: s) with
      | 0 => splitFrom blank 0 (word ++ [b]) s
      | k + 1 => flush word ++ splitFrom blank k [] s

/-- The words of a text, between blanks. -/
def split (blank : List α → Nat) (s : List α) : List (List α) := splitFrom blank 0 [] s

/-- A text as columns, each with the spaces before it. -/
def columnsText (space : α) (columns : List (Nat × List α)) : List α :=
  columns.flatMap fun column => List.replicate column.1 space ++ column.2

theorem columnsText_cons {space : α} {n : Nat} {word rest : List α}
    {columns : List (Nat × List α)} :
    columnsText space ((n, word) :: columns) ++ rest
      = List.replicate n space ++ word ++ (columnsText space columns ++ rest) := by
  simp only [columnsText, List.flatMap_cons, List.append_assoc]

/-- The element is no part of a blank, whatever follows. -/
def Plain (blank : List α → Nat) (b : α) : Prop := ∀ s, blank (b :: s) = 0

/-- The element is a blank, whatever follows. -/
def Blank (blank : List α → Nat) (b : α) : Prop := ∀ s, blank (b :: s) = 1

/-- The text is over, or a blank follows. -/
def Ends (blank : List α → Nat) : List α → Prop
  | [] => True
  | b :: _ => Blank blank b

section Split

variable {blank : List α → Nat} {b space : α} {word s rest : List α}

theorem splitFrom_plain (h : ∀ b ∈ s, Plain blank b) :
    splitFrom blank 0 word (s ++ rest) = splitFrom blank 0 (word ++ s) rest := by
  induction s generalizing word with
  | nil => rw [List.nil_append, List.append_nil]
  | cons b s ih =>
      obtain ⟨hb, hs⟩ := List.forall_mem_cons.mp h
      rw [List.cons_append, splitFrom, hb]
      simp only []
      rw [ih hs, List.append_assoc]
      rfl

theorem splitFrom_end (h : Ends blank rest) :
    splitFrom blank 0 word rest = flush word ++ split blank rest := by
  cases rest with
  | nil =>
      rw [split, splitFrom, splitFrom]
      exact (List.append_nil _).symm
  | cons b s =>
      have hb : blank (b :: s) = 1 := h s
      rw [split, splitFrom, splitFrom, hb]
      rfl

theorem split_blank (h : Blank blank b) : split blank (b :: s) = split blank s := by
  rw [split, splitFrom, h]
  rfl

/-- Blanks before a text make no difference. -/
theorem split_dropWhile {p : α → Bool} (h : ∀ b, p b → Blank blank b) :
    split blank (s.dropWhile p) = split blank s := by
  induction s with
  | nil => rfl
  | cons b s ih =>
      by_cases hb : p b = true
      · rw [List.dropWhile_cons_of_pos hb, ih, split_blank (h b hb)]
      · rw [List.dropWhile_cons_of_neg hb]

theorem split_replicate (h : Blank blank b) (n : Nat) :
    split blank (List.replicate n b ++ s) = split blank s := by
  induction n with
  | zero => rfl
  | succ n ih => rw [List.replicate_succ, List.cons_append, split_blank h, ih]

theorem split_word (hword : ∀ b ∈ word, Plain blank b) (hne : word ≠ [])
    (hrest : Ends blank rest) : split blank (word ++ rest) = word :: split blank rest := by
  rw [split, splitFrom_plain hword, splitFrom_end hrest, List.nil_append, flush, if_neg hne]
  rfl

/-- The columns are words, and all but the first have a space before them. -/
structure Columns (blank : List α → Nat) (columns : List (Nat × List α)) : Prop where
  word : ∀ column ∈ columns, column.2 ≠ [] ∧ ∀ b ∈ column.2, Plain blank b
  apart : ∀ column ∈ columns.tail, 0 < column.1

theorem ends_columnsText (hspace : Blank blank space) {columns : List (Nat × List α)}
    (h : ∀ column ∈ columns, 0 < column.1) (hrest : Ends blank rest) :
    Ends blank (columnsText space columns ++ rest) := by
  cases columns with
  | nil => exact hrest
  | cons column columns =>
      obtain ⟨n, hn⟩ := Nat.exists_eq_add_one.mpr (h column List.mem_cons_self)
      rw [columnsText, List.flatMap_cons, hn, List.replicate_succ]
      exact hspace

/-- A line of columns comes apart into these. -/
theorem split_columns (hspace : Blank blank space) {columns : List (Nat × List α)}
    (h : Columns blank columns) (hrest : Ends blank rest) :
    split blank (columnsText space columns ++ rest)
      = columns.map Prod.snd ++ split blank rest := by
  induction columns with
  | nil => rfl
  | cons column columns ih =>
      obtain ⟨⟨hne, hplain⟩, hwords⟩ := List.forall_mem_cons.mp h.word
      have hends : Ends blank (columnsText space columns ++ rest) :=
        ends_columnsText hspace h.apart hrest
      have htail : Columns blank columns :=
        ⟨hwords, fun c hc => h.apart c (List.mem_of_mem_tail hc)⟩
      rw [columnsText_cons, List.append_assoc, split_replicate hspace,
        split_word hplain hne hends, ih htail]
      rfl

end Split

/-! ## Lines -/

/-- A text of pieces with a separator after each comes apart at these. -/
theorem splitOn_terminated [DecidableEq α] {sep : α} {pieces : List (List α)} {rest : List α}
    (h : ∀ piece ∈ pieces, sep ∉ piece) (hrest : sep ∉ rest) :
    (pieces.flatMap (· ++ [sep]) ++ rest).splitOn sep = pieces ++ [rest] := by
  induction pieces with
  | nil => exact List.splitOn_eq_singleton hrest
  | cons piece pieces ih =>
      obtain ⟨hpiece, h⟩ := List.forall_mem_cons.mp h
      rw [List.flatMap_cons, List.append_assoc, List.append_assoc, List.singleton_append,
        List.splitOn_append_cons_self_of_not_mem hpiece, ih h]
      rfl

/-- Lines with their newlines. -/
def unlines (lines : List Bytes) : Bytes := lines.flatMap (· ++ [10])

/-- `bufio.MaxScanTokenSize`. -/
def maxScanTokenSize : Nat := 64 * 1024

/-- A line without a carriage return at its end. -/
def dropCR (line : Bytes) : Bytes := if line.getLast? = some 13 then line.dropLast else line

/-- The lines of the rest of a text, with one begun. -/
def scanLinesFrom (line : Bytes) : Bytes → List Bytes
  | [] => if line = [] then [] else [dropCR line]
  | b :: s =>
      if b = 10 then dropCR line :: scanLinesFrom [] s
      else if line.length + 1 < maxScanTokenSize then scanLinesFrom (line ++ [b]) s
      else []

/-- The lines that a `bufio.Scanner` gives. -/
def scanLines (s : Bytes) : List Bytes := scanLinesFrom [] s

/-- The pieces of the rest of a text, with one begun. -/
def fgetsLinesFrom (cap : Nat) (line : Bytes) : Bytes → List Bytes
  | [] => if line = [] then [] else [line]
  | b :: s =>
      if b = 10 ∨ line.length + 1 = cap - 1 then (line ++ [b]) :: fgetsLinesFrom cap [] s
      else fgetsLinesFrom cap (line ++ [b]) s

/-- What calls of `fgets` with a buffer of `cap` bytes give, until the text is over. -/
def fgetsLines (cap : Nat) (s : Bytes) : List Bytes := fgetsLinesFrom cap [] s

section Lines

variable {lines : List Bytes} {line s rest : Bytes} {cap : Nat}

theorem scanLinesFrom_line (hs : 10 ∉ s) (hlen : line.length + s.length < maxScanTokenSize) :
    scanLinesFrom line (s ++ 10 :: rest) = dropCR (line ++ s) :: scanLines rest := by
  induction s generalizing line with
  | nil =>
      rw [List.nil_append, List.append_nil, scanLinesFrom, if_pos rfl]
      rfl
  | cons b s ih =>
      rw [List.length_cons] at hlen
      have hb : b ≠ 10 := fun h => hs (h ▸ List.mem_cons_self)
      have hlen' : (line ++ [b]).length + s.length < maxScanTokenSize := by
        rw [List.length_append, List.length_singleton]
        omega
      rw [List.cons_append, scanLinesFrom, if_neg hb, if_pos (by omega),
        ih (fun h => hs (List.mem_cons_of_mem b h)) hlen', List.append_assoc]
      rfl

theorem fgetsLinesFrom_line (hs : 10 ∉ s) (hlen : line.length + s.length + 1 < cap) :
    fgetsLinesFrom cap line (s ++ 10 :: rest) = (line ++ s ++ [10]) :: fgetsLines cap rest := by
  induction s generalizing line with
  | nil =>
      rw [List.nil_append, List.append_nil, fgetsLinesFrom, if_pos (Or.inl rfl)]
      rfl
  | cons b s ih =>
      rw [List.length_cons] at hlen
      have hb : ¬(b = 10 ∨ line.length + 1 = cap - 1) := by
        rintro (h | h)
        · exact hs (h ▸ List.mem_cons_self)
        · omega
      have hlen' : (line ++ [b]).length + s.length + 1 < cap := by
        rw [List.length_append, List.length_singleton]
        omega
      rw [List.cons_append, fgetsLinesFrom, if_neg hb,
        ih (fun h => hs (List.mem_cons_of_mem b h)) hlen', List.append_assoc line]
      rfl

theorem dropCR_eq (h : 13 ∉ line) : dropCR line = line :=
  if_neg fun hlast => h (List.mem_of_getLast? hlast)

/-- A scanner gives the lines of a text. -/
theorem scanLines_unlines
    (h : ∀ l ∈ lines, 10 ∉ l ∧ 13 ∉ l ∧ l.length < maxScanTokenSize) :
    scanLines (unlines lines) = lines := by
  induction lines with
  | nil => rfl
  | cons l lines ih =>
      obtain ⟨⟨hnl, hcr, hlen⟩, hlines⟩ := List.forall_mem_cons.mp h
      have htext : unlines (l :: lines) = l ++ 10 :: unlines lines := by
        rw [unlines, List.flatMap_cons, List.append_assoc]
        rfl
      rw [htext, scanLines, scanLinesFrom_line hnl (by simpa using hlen), ih hlines,
        List.nil_append, dropCR_eq hcr]

theorem splitOn_unlines (h : ∀ l ∈ lines, (10 : UInt8) ∉ l) :
    (unlines lines).splitOn 10 = lines ++ [[]] := by
  rw [← splitOn_terminated h List.not_mem_nil, List.append_nil]
  rfl

/-- `fgets` gives the lines of a text, with their newlines. -/
theorem fgetsLines_unlines (h : ∀ l ∈ lines, 10 ∉ l ∧ l.length + 1 < cap) :
    fgetsLines cap (unlines lines) = lines.map (· ++ [10]) := by
  induction lines with
  | nil => rfl
  | cons l lines ih =>
      obtain ⟨⟨hnl, hlen⟩, hlines⟩ := List.forall_mem_cons.mp h
      have htext : unlines (l :: lines) = l ++ 10 :: unlines lines := by
        rw [unlines, List.flatMap_cons, List.append_assoc]
        rfl
      rw [htext, fgetsLines, fgetsLinesFrom_line hnl (by simpa using hlen), ih hlines,
        List.nil_append, List.map_cons]

end Lines

/-! ## Blanks -/

/-- The length of the white space that a text in UTF-8 begins with. A byte that begins none is
not part of one, since white space is one byte or begins with a byte that no other begins. -/
def whiteSpace : Bytes → Nat
  | 0xc2 :: b :: _ => if b = 0x85 ∨ b = 0xa0 then 2 else 0
  | 0xe1 :: 0x9a :: 0x80 :: _ => 3
  | 0xe2 :: 0x80 :: b :: _ =>
      if 0x80 ≤ b ∧ b ≤ 0x8a ∨ b = 0xa8 ∨ b = 0xa9 ∨ b = 0xaf then 3 else 0
  | 0xe2 :: 0x81 :: 0x9f :: _ => 3
  | 0xe3 :: 0x80 :: 0x80 :: _ => 3
  | b :: _ => if isSpace b then 1 else 0
  | [] => 0

/-- `strings.Fields`. -/
def goFields (s : Bytes) : List Bytes := split whiteSpace s

/-- One of a set of bytes. -/
def oneOf (isDelim : UInt8 → Bool) : Bytes → Nat
  | b :: _ => if isDelim b then 1 else 0
  | [] => 0

/-- The tokens that `strtok` gives. -/
def strtok (delim : Bytes) (s : Bytes) : List Bytes := split (oneOf (delim.contains ·)) s

section OneOf

variable {isDelim : UInt8 → Bool} {s : Bytes}

theorem plain_oneOf {b : UInt8} (hb : isDelim b = false) : Plain (oneOf isDelim) b :=
  fun s => by rw [oneOf, hb]; rfl

theorem blank_oneOf {b : UInt8} (hb : isDelim b = true) : Blank (oneOf isDelim) b :=
  fun s => by rw [oneOf, hb]; rfl

theorem ends_dropWhile : Ends (oneOf isDelim) (s.dropWhile fun b => !isDelim b) := by
  cases hs : s.dropWhile fun b => !isDelim b with
  | nil => trivial
  | cons b t =>
      have hne : (s.dropWhile fun b => !isDelim b) ≠ [] := hs ▸ List.cons_ne_nil b t
      have hb := List.head_dropWhile_not (fun b => !isDelim b) hne
      simp only [hs, List.head_cons, Bool.not_eq_false'] at hb
      exact blank_oneOf hb

/-- The first token of a text, and the rest of it. -/
theorem split_token (h : s.dropWhile isDelim ≠ []) :
    split (oneOf isDelim) s = (s.dropWhile isDelim).takeWhile (fun b => !isDelim b)
      :: split (oneOf isDelim) ((s.dropWhile isDelim).dropWhile fun b => !isDelim b) := by
  have hhead := List.head_dropWhile_not isDelim h
  rw [← split_dropWhile fun b => blank_oneOf]
  generalize s.dropWhile isDelim = t at h hhead ⊢
  have hne : t.takeWhile (fun b => !isDelim b) ≠ [] := by
    obtain ⟨b, t, rfl⟩ := List.exists_cons_of_ne_nil h
    rw [List.head_cons] at hhead
    rw [List.takeWhile_cons_of_pos (by rw [hhead]; rfl)]
    exact List.cons_ne_nil _ _
  have hplain : ∀ b ∈ t.takeWhile (fun b => !isDelim b), Plain (oneOf isDelim) b := by
    intro b hb
    have hnot : (!isDelim b) = true := List.mem_takeWhile_imp (p := fun b => !isDelim b) hb
    exact plain_oneOf ((Bool.not_eq_true' _).mp hnot)
  conv_lhs => rw [← List.takeWhile_append_dropWhile (p := fun b => !isDelim b) (l := t)]
  exact split_word hplain hne ends_dropWhile

end OneOf

theorem whiteSpace_ascii {b : UInt8} (h : b < 0x80) (s : Bytes) :
    whiteSpace (b :: s) = if isSpace b then 1 else 0 := by
  have hlow : b.toNat < 128 := h
  have hc2 : b ≠ 0xc2 := fun heq => absurd hlow (heq ▸ by decide)
  have he1 : b ≠ 0xe1 := fun heq => absurd hlow (heq ▸ by decide)
  have he2 : b ≠ 0xe2 := fun heq => absurd hlow (heq ▸ by decide)
  have he3 : b ≠ 0xe3 := fun heq => absurd hlow (heq ▸ by decide)
  unfold whiteSpace
  split
  · next heq => exact absurd (List.cons.inj heq).1 hc2
  · next heq => exact absurd (List.cons.inj heq).1 he1
  · next heq => exact absurd (List.cons.inj heq).1 he2
  · next heq => exact absurd (List.cons.inj heq).1 he2
  · next heq => exact absurd (List.cons.inj heq).1 he3
  · next heq =>
      obtain ⟨rfl, -⟩ := List.cons.inj heq
      rfl
  · next heq => cases heq

theorem plain_whiteSpace {b : UInt8} (h : b < 0x80) (hb : isSpace b = false) :
    Plain whiteSpace b := fun s => by rw [whiteSpace_ascii h, hb]; rfl

theorem blank_whiteSpace {b : UInt8} (h : b < 0x80) (hb : isSpace b = true) :
    Blank whiteSpace b := fun s => by rw [whiteSpace_ascii h, hb]; rfl

/-! ## Texts of visible characters -/

/-- Space and newline are blanks, and no visible character of ASCII is part of one. -/
structure Ascii (blank : Bytes → Nat) : Prop where
  space : Blank blank 32
  newline : Blank blank 10
  visible : ∀ b, 32 < b → b < 127 → Plain blank b

theorem ascii_whiteSpace : Ascii whiteSpace where
  space := blank_whiteSpace (by decide) rfl
  newline := blank_whiteSpace (by decide) rfl
  visible b hlo hhi :=
    plain_whiteSpace (UInt8.lt_trans hhi (by decide)) (Libc.isSpace_of_visible hlo)

theorem ascii_oneOf {isDelim : UInt8 → Bool} (hspace : isDelim 32 = true) (hnl : isDelim 10 = true)
    (hvisible : ∀ b, isDelim b = true → isSpace b = true) : Ascii (oneOf isDelim) where
  space := blank_oneOf hspace
  newline := blank_oneOf hnl
  visible b hlo _ := by
    refine plain_oneOf (Bool.eq_false_iff.mpr fun h => ?_)
    exact Bool.false_ne_true ((Libc.isSpace_of_visible hlo).symm.trans (hvisible b h))

theorem ascii_isSpace : Ascii (oneOf isSpace) := ascii_oneOf rfl rfl fun _ => id

/-- `strtok` at spaces, tabs and newlines. -/
theorem ascii_strtok : Ascii (oneOf ([32, 9, 10].contains ·)) := by
  refine ascii_oneOf rfl rfl fun b hb => ?_
  simp only [List.contains_iff_mem, List.mem_cons, List.not_mem_nil, or_false] at hb
  rcases hb with rfl | rfl | rfl <;> rfl

/-- The text has visible characters of ASCII only. -/
def Visible (s : Bytes) : Prop := ∀ b ∈ s, 32 < b ∧ b < 127

section Visible

variable {s t : Bytes}

theorem visible_append (hs : Visible s) (ht : Visible t) : Visible (s ++ t) := by
  intro b hb
  exact (List.mem_append.mp hb).elim (hs b) (ht b)

theorem visible_colon (hs : Visible s) (ht : Visible t) : Visible (s ++ 58 :: t) :=
  visible_append hs (List.forall_mem_cons.mpr ⟨by decide, ht⟩)

theorem visible_digits (n : Nat) : Visible (digits 10 n) :=
  fun b hb => visible_of_isDigit (Strconv.digits_isDigit n b hb)

theorem visible_intText (n : Int) : Visible (intText n) := by
  unfold intText
  split
  · exact List.forall_mem_cons.mpr ⟨by decide, visible_digits _⟩
  · exact visible_digits _

theorem intText_ne_nil (n : Int) : intText n ≠ [] := by
  unfold intText
  split
  · exact List.cons_ne_nil _ _
  · exact Strconv.digits_ne_nil _

end Visible

/-- The columns are words of visible characters, and all but the first have a space before them. -/
structure Words (columns : List (Nat × Bytes)) : Prop where
  word : ∀ column ∈ columns, column.2 ≠ [] ∧ Visible column.2
  apart : ∀ column ∈ columns.tail, 0 < column.1

theorem Words.tail {column : Nat × Bytes} {columns : List (Nat × Bytes)}
    (h : Words (column :: columns)) : Words columns :=
  ⟨(List.forall_mem_cons.mp h.word).2, fun c hc => h.apart c (List.mem_of_mem_tail hc)⟩

theorem Words.of_append {first columns : List (Nat × Bytes)} (h : Words (first ++ columns)) :
    Words columns := by
  induction first with
  | nil => exact h
  | cons column first ih => exact ih h.tail

/-- A line of words comes apart into these, whatever else is a blank. -/
theorem Ascii.split {blank : Bytes → Nat} (h : Ascii blank) {columns : List (Nat × Bytes)}
    (hwords : Words columns) {rest : Bytes} (hrest : Ends blank rest) :
    split blank (columnsText 32 columns ++ rest) = columns.map Prod.snd ++ split blank rest := by
  refine split_columns h.space ⟨fun column hc => ?_, hwords.apart⟩ hrest
  obtain ⟨hne, hvisible⟩ := hwords.word column hc
  exact ⟨hne, fun b hb => h.visible b (hvisible b hb).1 (hvisible b hb).2⟩

end Tracep.Fields
