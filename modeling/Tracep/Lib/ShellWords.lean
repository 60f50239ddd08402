import Tracep.Lib.Bytes
import Mathlib.Data.List.Basic

/-!
# The arguments a shell makes of a text

A shell takes a line apart byte by byte (`step`): blanks end words, quotes
and backslashes keep what they cover, everything else stands for itself.
The words then go through tilde expansion and pathname expansion, which
look only at what is not quoted, and lose their quotes. Homes and files are
those of an environment (`Env`).

A text that is more than words has no arguments here: an operator, a
comment, more than one line, a brace or an expansion of parameters or
commands, double quotes, or a quote that is left open.

The rules say what comes of a text that is one word without quotes
(`arguments_plain`) and of one whose quotes begin with its first byte
(`arguments_kept`).
-/

namespace Tracep.Shell

/-! ## The marks of a line -/

/-- A byte that stands for itself, one that is quoted, where a quote is, and a blank. -/
inductive Mark where
  | plain (b : UInt8)
  | kept (b : UInt8)
  | quote
  | blank
deriving Repr, DecidableEq

/-- Where a shell is in a line: before a word, inside one, after a backslash or a dollar sign,
or inside quotes. -/
inductive Mode where
  | between
  | word
  | escaped
  | dollar
  | single
  | ansi
  | ansiEscaped
deriving Repr, DecidableEq

/-- ``|&;<>()"{}`` and the backquote, and a newline. -/
def specials : Bytes := [124, 38, 59, 60, 62, 40, 41, 34, 123, 125, 96, 10]

/-- What a letter after a backslash means inside `$'...'`. -/
def ansiByte : UInt8 → Option UInt8
  | 97 => some 7
  | 98 => some 8
  | 101 => some 27
  | 102 => some 12
  | 110 => some 10
  | 114 => some 13
  | 116 => some 9
  | 118 => some 11
  | 92 => some 92
  | 39 => some 39
  | 34 => some 34
  | 63 => some 63
  | _ => none

/-- A byte outside of quotes. -/
def stepPlain (m : Mode) (b : UInt8) : Option (Mode × List Mark) :=
  if b = 39 then some (.single, [.quote])
  else if b = 92 then some (.escaped, [])
  else if b = 36 then some (.dollar, [])
  else if b = 32 ∨ b = 9 then some (.between, [.blank])
  else if b ∈ specials ∨ m = .between ∧ b = 35 then none
  else some (.word, [.plain b])

def step : Mode → UInt8 → Option (Mode × List Mark)
  | .between, b => stepPlain .between b
  | .word, b => stepPlain .word b
  | .escaped, b => if b = 10 then none else some (.word, [.kept b])
  | .dollar, b => if b = 39 then some (.ansi, [.quote]) else none
  | .single, b => if b = 39 then some (.word, []) else some (.single, [.kept b])
  | .ansi, b =>
      if b = 39 then some (.word, [])
      else if b = 92 then some (.ansiEscaped, [])
      else some (.ansi, [.kept b])
  | .ansiEscaped, b => (ansiByte b).map fun c => (.ansi, [.kept c])

def lex (m : Mode) : Bytes → Option (List Mark)
  | [] => if m = .between ∨ m = .word then some [] else none
  | b :: s => (step m b).bind fun (m, marks) => (lex m s).map (marks ++ ·)

def words (marks : List Mark) : List (List Mark) := (marks.splitOn .blank).filter (· ≠ [])

/-! ## Expansions -/

/-- What a tilde with a name stands for, if it does, and the paths that match a pattern. -/
structure Env where
  home : Bytes → Option Bytes
  glob : List Mark → List Bytes

def Mark.plainByte : Mark → Option UInt8
  | .plain b => some b
  | _ => none

def Mark.byte : Mark → Option UInt8
  | .plain b => some b
  | .kept b => some b
  | _ => none

def removeQuotes (word : List Mark) : Bytes := word.filterMap Mark.byte

/-- A tilde begins the word, and nothing up to the first slash is quoted. -/
def tildeExpand (env : Env) (word : List Mark) : List Mark :=
  match word with
  | .plain 126 :: rest =>
      match ((rest.takeWhile (· ≠ .plain 47)).mapM Mark.plainByte).bind env.home with
      | some dir => .quote :: dir.map .kept ++ rest.dropWhile (· ≠ .plain 47)
      | none => word
  | _ => word

/-- It has an asterisk, a question mark or an opening bracket that is not quoted. -/
def isPattern (word : List Mark) : Bool := word.any (· ∈ [.plain 42, .plain 63, .plain 91])

def pathExpand (env : Env) (word : List Mark) : List Bytes :=
  if isPattern word ∧ env.glob word ≠ [] then env.glob word else [removeQuotes word]

/-- The arguments that a shell makes of a text. -/
def arguments (env : Env) (s : Bytes) : Option (List Bytes) :=
  (lex .between s).map fun marks => (words marks).flatMap fun word =>
    pathExpand env (tildeExpand env word)

/-- Tilde expansion of a text without quotes. -/
def homed (env : Env) (s : Bytes) : Bytes :=
  match s with
  | 126 :: rest =>
      match env.home (rest.takeWhile (· ≠ 47)) with
      | some dir => dir ++ rest.dropWhile (· ≠ 47)
      | none => s
  | _ => s

variable {env : Env} {m : Mode} {s t : Bytes} {b : UInt8} {marks : List Mark}

theorem lex_cons {m' : Mode} (h : step m b = some (m', marks)) :
    lex m (b :: s) = (lex m' s).map (marks ++ ·) := by
  rw [lex, h]
  rfl

/-! ## Words without quotes -/

/-- The bytes that stand for themselves wherever they are. -/
def Plain (b : UInt8) : Prop := b ∉ [39, 92, 36, 32, 9, 35, 42, 63, 91] ∧ b ∉ specials

theorem step_plain (hm : m = .between ∨ m = .word) (hb : Plain b) :
    step m b = some (.word, [.plain b]) := by
  obtain ⟨hquotes, hspecial⟩ := hb
  simp only [List.mem_cons, List.not_mem_nil, or_false, not_or] at hquotes
  obtain ⟨h39, h92, h36, h32, h9, h35, -⟩ := hquotes
  rcases hm with rfl | rfl <;> simp [step, stepPlain, *]

theorem lex_plain (hm : m = .between ∨ m = .word) (hs : ∀ b ∈ s, Plain b) :
    lex m s = some (s.map .plain) := by
  induction s generalizing m with
  | nil => rw [lex, if_pos hm]; rfl
  | cons b s ih =>
      obtain ⟨hb, hs⟩ := List.forall_mem_cons.mp hs
      rw [lex_cons (step_plain hm hb), ih (Or.inr rfl) hs]
      rfl

theorem words_single (hne : marks ≠ []) (hblank : Mark.blank ∉ marks) : words marks = [marks] := by
  rw [words, List.splitOn_eq_singleton hblank, List.filter_singleton]
  simp [hne]

theorem mapM_plainByte (s : Bytes) : (s.map Mark.plain).mapM Mark.plainByte = some s := by
  induction s with
  | nil => rfl
  | cons b s ih => simp [List.mapM_cons, Mark.plainByte, ih]

theorem takeWhile_plain (s : Bytes) : (s.map Mark.plain).takeWhile (· ≠ .plain 47)
    = (s.takeWhile (· ≠ 47)).map .plain := by
  rw [List.takeWhile_map]
  simp [Function.comp_def]

theorem dropWhile_plain (s : Bytes) : (s.map Mark.plain).dropWhile (· ≠ .plain 47)
    = (s.dropWhile (· ≠ 47)).map .plain := by
  rw [List.dropWhile_map]
  simp [Function.comp_def]

theorem removeQuotes_plain (s : Bytes) : removeQuotes (s.map .plain) = s := by
  rw [removeQuotes, List.filterMap_map]
  exact List.filterMap_some

theorem removeQuotes_kept (s : Bytes) : removeQuotes (s.map .kept) = s := by
  rw [removeQuotes, List.filterMap_map]
  exact List.filterMap_some

theorem removeQuotes_append (w v : List Mark) :
    removeQuotes (w ++ v) = removeQuotes w ++ removeQuotes v := List.filterMap_append

theorem pathExpand_of_not_pattern {word : List Mark} (h : isPattern word = false) :
    pathExpand env word = [removeQuotes word] := by
  rw [pathExpand, h, if_neg (by simp)]

theorem not_pattern_plain (hs : ∀ b ∈ s, Plain b) : isPattern (s.map .plain) = false := by
  rw [isPattern, List.any_eq_false]
  intro k hk
  obtain ⟨b, hb, rfl⟩ := List.mem_map.mp hk
  have hquotes := (hs b hb).1
  simp only [List.mem_cons, List.not_mem_nil, or_false, not_or] at hquotes
  simp [hquotes]

theorem not_pattern_kept {word : List Mark} (h : ∀ k ∈ word, k = .quote ∨ ∃ b, k = .kept b) :
    isPattern word = false := by
  rw [isPattern, List.any_eq_false]
  intro k hk
  rcases h k hk with rfl | ⟨b, rfl⟩ <;> simp

theorem tildeExpand_plain (env : Env) (s : Bytes) :
    (tildeExpand env (s.map .plain) = s.map .plain ∧ homed env s = s)
      ∨ ∃ dir rest, tildeExpand env (s.map .plain) = (.quote :: dir.map .kept) ++ rest.map .plain
        ∧ homed env s = dir ++ rest ∧ rest ⊆ s := by
  unfold homed
  split
  · next rest =>
      rw [List.map_cons, tildeExpand, takeWhile_plain, mapM_plainByte, dropWhile_plain,
        Option.bind_some]
      cases env.home (rest.takeWhile (· ≠ 47)) with
      | none => exact Or.inl ⟨rfl, rfl⟩
      | some dir =>
          refine Or.inr ⟨dir, _, rfl, rfl, ?_⟩
          exact fun b hb => List.mem_cons_of_mem _ ((List.dropWhile_suffix _).subset hb)
  · next hne =>
      refine Or.inl ⟨?_, rfl⟩
      unfold tildeExpand
      split
      · next rest heq =>
          obtain ⟨b, t, rfl, hb, -⟩ := List.map_eq_cons_iff.mp heq
          cases hb
          exact absurd rfl (hne t)
      · rfl

/-- What comes of a word without quotes and pattern characters. -/
theorem arguments_plain (hne : s ≠ []) (hs : ∀ b ∈ s, Plain b) :
    arguments env s = some [homed env s] := by
  have hblank : Mark.blank ∉ s.map Mark.plain := by simp
  rw [arguments, lex_plain (Or.inl rfl) hs, Option.map_some,
    words_single (by rwa [Ne, List.map_eq_nil_iff]) hblank, List.flatMap_singleton]
  congr 1
  rcases tildeExpand_plain env s with ⟨hsame, hhome⟩ | ⟨dir, rest, hexp, hhome, hsub⟩
  · rw [hsame, hhome, pathExpand_of_not_pattern (not_pattern_plain hs), removeQuotes_plain]
  · have hdir : isPattern (.quote :: dir.map .kept) = false := not_pattern_kept (by simp)
    have hrest := not_pattern_plain fun b hb => hs b (hsub hb)
    have hpattern : isPattern ((.quote :: dir.map .kept) ++ rest.map .plain) = false := by
      rw [isPattern, List.any_append, ← isPattern, ← isPattern, hdir, hrest]
      rfl
    rw [hexp, hhome, pathExpand_of_not_pattern hpattern, removeQuotes_append, removeQuotes_plain]
    congr 2
    exact removeQuotes_kept dir

/-! ## Words that begin with a quote -/

/-- A word is left as it is by the expansions if all its bytes are quoted and it begins with a
quote. -/
theorem arguments_kept (hlex : lex .between s = some (.quote :: marks))
    (hmarks : ∀ k ∈ marks, k = .quote ∨ ∃ b, k = .kept b) :
    arguments env s = some [removeQuotes marks] := by
  have hall : ∀ k ∈ Mark.quote :: marks, k = .quote ∨ ∃ b, k = .kept b :=
    List.forall_mem_cons.mpr ⟨Or.inl rfl, hmarks⟩
  have hblank : Mark.blank ∉ Mark.quote :: marks := by
    intro hmem
    rcases hall _ hmem with h | ⟨b, h⟩ <;> cases h
  rw [arguments, hlex, Option.map_some, words_single (List.cons_ne_nil _ _) hblank,
    List.flatMap_singleton]
  have htilde : tildeExpand env (.quote :: marks) = .quote :: marks := rfl
  rw [htilde, pathExpand_of_not_pattern (not_pattern_kept hall)]
  rfl

end Tracep.Shell
