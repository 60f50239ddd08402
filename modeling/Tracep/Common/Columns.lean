import Tracep.Common.Pool
import Tracep.Lib.Lines

/-!
# Coloured columns

What the tracers print stands in columns, in colours if they are on. Go
counts the width of a column in runes and C in bytes, and each counts the
colours with the text. A colour puts no newline in a text
(`newline_mem_painted`). C's `clr` makes it in a buffer, where a long text is
cut and only what is left of it is shown (`newline_mem_clrText`).
-/

namespace Tracep.Common

open Exec

/-- A text in a colour, if colours are on and there is a text. -/
def painted (on : Bool) (code s : Bytes) : Bytes := if !on || s = [] then s else colored code s

/-- What Go prints for `"%-*s"`. -/
def goColumn (width : Nat) (s : Bytes) : Bytes := padRight width (Utf8.runes s).length s

/-- What C prints for it. -/
def cColumn (width : Nat) (s : Bytes) : Bytes := padRight width s.length s

/-- The text that `clr` returns. -/
def clrText (on : Bool) (code s : Bytes) : Bytes :=
  if !on || s = [] then s else fitted poolSz (colored code s)

variable {on : Bool} {code s : Bytes} {width : Nat}

theorem newline_mem_goColumn : 10 ∈ goColumn width s ↔ 10 ∈ s := newline_mem_padRight

theorem newline_mem_cColumn : 10 ∈ cColumn width s ↔ 10 ∈ s := newline_mem_padRight

theorem newline_not_mem_start (h : 10 ∉ code) : 10 ∉ [27, 91] ++ code ++ [(109 : UInt8)] := by
  rw [List.mem_append, List.mem_append]
  rintro ((h' | h') | h')
  · exact absurd h' (by decide)
  · exact h h'
  · exact absurd h' (by decide)

theorem newline_mem_painted (h : 10 ∉ code) : 10 ∈ painted on code s ↔ 10 ∈ s := by
  rw [painted]
  split
  · rfl
  · rw [colored, List.mem_append, List.mem_append, or_iff_right (newline_not_mem_start h),
      or_iff_left (by decide)]

/-! ## Cut to the buffer -/

/-- As much of a text as is shown in a colour. Each colour has two digits. -/
def shownPart (on : Bool) (s : Bytes) : Bytes := if on then s.take 1018 else s

theorem shownPart_of_le (h : s.length ≤ 1018) : shownPart on s = s := by
  rw [shownPart]
  split
  · exact List.take_of_length_le h
  · rfl

theorem newline_mem_clrText (hlen : code.length = 2) (h : 10 ∉ code) :
    10 ∈ clrText on code s ↔ 10 ∈ shownPart on s := by
  have hfive : ([27, 91] ++ code ++ [(109 : UInt8)]).length = 5 := by
    rw [List.length_append, List.length_append, hlen]
    rfl
  rw [clrText, shownPart]
  cases on with
  | false => rfl
  | true =>
      split
      · next hempty =>
          rw [Bool.not_true, Bool.false_or, decide_eq_true_eq] at hempty
          rw [hempty]
          rfl
      · rw [fitted, colored, List.append_assoc, List.take_append, hfive, List.mem_append,
          List.take_of_length_le (by rw [hfive]; decide), or_iff_right (newline_not_mem_start h), List.take_append,
          List.mem_append, if_pos rfl]
        exact or_iff_left fun hreset => absurd (List.mem_of_mem_take hreset) (by decide)

/-- The text at the pointer that `clr` returns for a text that is not empty. -/
theorem Pool.Holds.clr_text {p : Pool} {rs : List Returned} (h : p.Holds rs)
    (hmax : rs.length < maxCalls) (hcode : 0 ∉ code) (hs : 0 ∉ s) (hne : s ≠ []) :
    ∃ ptr p', clr p true code (some s) = pure (ptr, p') ∧ p'.text ptr = clrText true code s := by
  have hlt : rs.length % poolN < p.pool.length := by
    rw [h.pool]
    exact Nat.mod_lt _ (by decide)
  obtain ⟨junk, -, hwrite⟩ := snprintf_pool (h.sized _ (List.getElem_mem hlt)) (colored code s)
  have hnul : 0 ∉ fitted poolSz (colored code s) := by
    intro hmem
    have hmem := List.mem_of_mem_take hmem
    simp only [colored, List.mem_append] at hmem
    rcases hmem with (((hmem | hmem) | hmem) | hmem) | hmem
    · exact absurd hmem (by decide)
    · exact hcode hmem
    · exact absurd hmem (by decide)
    · exact hs hmem
    · exact absurd hmem (by decide)
  have hon : (!true || decide ((some s).getD [] = [])) = false := decide_eq_false hne
  refine ⟨.buf (rs.length % poolN : Nat), ⟨p.pool.set (rs.length % poolN)
    (fitted poolSz (colored code s) ++ 0 :: junk), p.slot + 1⟩, ?_, ?_⟩
  · rw [clr, hon, if_neg Bool.false_ne_true, fill, h.slot, index_eq_mod hmax,
      index_eq (List.getElem?_eq_getElem hlt), pure_bind, Option.getD_some, hwrite, pure_bind,
      store_eq _ rfl hlt]
    rfl
  · have hon' : (!true || decide (s = [])) = false := hon
    rw [clrText, hon', if_neg Bool.false_ne_true, Pool.text, Int.toNat_natCast,
      List.getD_eq_getElem?_getD, List.getElem?_set_self hlt, Option.getD_some, cstr_append_nul,
      cstr_of_noNul hnul]

end Tracep.Common
