import Tracep.Common.Columns
import Tracep.Lib.Clipped

/-!
# What the buffers cut

The C port puts most of what it prints in buffers on the way, and `clr` puts
all that it colours in one. A text comes out of a buffer as it went in or
shorter (`fitted_clips`), and a coloured text is what Go prints for a text
as long or longer: the same exactly when the texts are and the buffer has
room for it (`clrText_clips`). In a column C counts bytes and Go runes, so C
puts as many blanks after a text or fewer (`column_clips`).
-/

namespace Tracep.Common

variable {on : Bool} {code s t : Bytes} {cap : Nat} {p : Prop}

theorem fitted_clips (h : Clips s t p) (cap : Nat) :
    Clips (fitted cap s) t (t.length ≤ cap - 1 ∧ p) := by
  refine ((Clips.take (cap - 1) s).trans h).congr ?_
  refine and_congr_left fun hp => ?_
  rw [h.eq_iff.mpr hp]

theorem length_colored (code s : Bytes) : (colored code s).length = code.length + s.length + 7 := by
  simp only [colored, List.length_append, List.length_cons, List.length_nil]
  omega

theorem colored_clips (code : Bytes) (h : Clips s t p) :
    Clips (colored code s) (colored code t) p :=
  (((Clips.refl _).append h).append (Clips.refl _)).congr (by simp)

/-- The text that `clr` is to colour fits in its buffer. -/
def Colours (on : Bool) (code s : Bytes) : Prop := on = true → code.length + s.length + 7 < poolSz

theorem clrText_clips (on : Bool) (hcode : code.length + 7 < poolSz) (h : Clips s t p) :
    Clips (clrText on code s) (painted on code t) (p ∧ Colours on code t) := by
  unfold clrText painted Colours
  cases on with
  | false => simpa using h
  | true =>
      have hle := h.clipped.length_le
      by_cases ht : t = []
      · have hs : s = [] := List.eq_nil_of_length_eq_zero (by simpa [ht] using hle)
        have hp : p := h.eq_iff.mp (hs.trans ht.symm)
        subst ht hs
        refine (Clips.refl _).congr ?_
        simpa [hp] using hcode
      by_cases hs : s = []
      · have hp : ¬p := fun hp => ht ((h.eq_iff.mpr hp).symm.trans hs)
        subst hs
        have hlen := length_colored code t
        simp only [Bool.not_true, Bool.false_or, decide_true, if_true, decide_eq_true_eq, if_neg ht]
        exact (Clips.of_lt (by rw [hlen, List.length_nil]; omega)).congr (by simp [hp])
      · simp only [Bool.not_true, Bool.false_or, decide_eq_true_eq, if_neg ht, if_neg hs]
        refine (fitted_clips (colored_clips code h) poolSz).congr ?_
        rw [length_colored, and_comm]
        refine and_congr_right fun _ => ?_
        unfold poolSz
        constructor
        · intro hfit _
          omega
        · intro hfit
          have := hfit trivial
          omega

/-! ## Columns -/

/-- A text has as many runes as bytes, or fills its column with its runes. -/
def Aligned (width : Nat) (s : Bytes) : Prop :=
  width ≤ (Utf8.runes s).length ∨ (Utf8.runes s).length = s.length

/-- C puts no more blanks after a text than Go, and as many if the text is aligned. -/
theorem column_clips (width : Nat) (s : Bytes) :
    Clips (cColumn width s) (goColumn width s) (Aligned width s) := by
  have hle := Utf8.length_runes_le s
  have hblanks := Clips.replicate (n := width - s.length) (m := width - (Utf8.runes s).length)
    (by omega) (32 : UInt8)
  refine ((Clips.refl s).append hblanks).congr ?_
  rw [true_and, Aligned]
  omega

theorem aligned_ascii (width : Nat) (h : Utf8.Ascii s) : Aligned width s :=
  Or.inr (Utf8.length_runes_of_ascii h)

end Tracep.Common
