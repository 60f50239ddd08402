import Tracep.Lib.Utf8

/-!
# Lines that are written

A program that writes a record a line has to keep newlines out of what it
writes. `OneLine` says that a text is one line, with its newline; a text
with a newline put after it is one exactly when it has none of its own
(`oneLine_snoc`). Columns are filled up with blanks, which are none
(`newline_mem_padRight`, `newline_mem_padLeft`), and neither is any
character but the newline itself (`newline_mem_encode`).

What is written of records that are one line each has as many lines as
there are records (`count_flatten`), so nobody has added a line.
-/

namespace Tracep

/-- A newline at the end, and no other. -/
structure OneLine (s : Bytes) : Prop where
  once : s.count 10 = 1
  last : s.getLast? = some 10

variable {s t : Bytes} {width len : Nat}

theorem oneLine_snoc : OneLine (t ++ [10]) ↔ 10 ∉ t := by
  constructor
  · intro h
    have hcount := h.once
    rw [List.count_append, List.count_singleton_self] at hcount
    exact List.count_eq_zero.mp (Nat.succ.inj hcount)
  · intro h
    refine ⟨?_, List.getLast?_concat⟩
    rw [List.count_append, List.count_eq_zero.mpr h, List.count_singleton_self]

theorem count_flatten {records : List Bytes} (h : ∀ r ∈ records, OneLine r) :
    records.flatten.count 10 = records.length := by
  induction records with
  | nil => rfl
  | cons r records ih =>
      obtain ⟨hr, hrecords⟩ := List.forall_mem_cons.mp h
      rw [List.flatten_cons, List.count_append, hr.once, ih hrecords, List.length_cons, Nat.add_comm]

/-! ## Columns -/

/-- A text of so many units at the left of a column. -/
def padRight (width len : Nat) (s : Bytes) : Bytes := s ++ List.replicate (width - len) 32

/-- A text at the right of a column. -/
def padLeft (width len : Nat) (s : Bytes) : Bytes := List.replicate (width - len) 32 ++ s

theorem newline_not_mem_blanks (n : Nat) : 10 ∉ List.replicate n (32 : UInt8) := by
  intro h
  exact absurd (List.eq_of_mem_replicate h) (by decide)

@[simp] theorem newline_mem_padRight : 10 ∈ padRight width len s ↔ 10 ∈ s := by
  rw [padRight, List.mem_append, or_iff_left (newline_not_mem_blanks _)]

@[simp] theorem newline_mem_padLeft : 10 ∈ padLeft width len s ↔ 10 ∈ s := by
  rw [padLeft, List.mem_append, or_iff_right (newline_not_mem_blanks _)]

/-! ## Characters -/

theorem newline_mem_encodeRune {c : Char} : 10 ∈ Utf8.encodeRune c ↔ c = '\n' := by
  constructor
  · intro h
    by_cases hascii : c.val ≤ 127
    · rw [Utf8.encodeRune_ascii hascii, List.mem_singleton] at h
      have hval : c.val.toNat = 10 := by
        have hlt : c.val.toNat < 256 := Nat.lt_of_le_of_lt (UInt32.le_iff_toNat_le.mp hascii) (by decide)
        have hbyte := congrArg UInt8.toNat h
        rw [UInt32.toNat_toUInt8, Nat.mod_eq_of_lt hlt] at hbyte
        exact hbyte.symm
      exact Char.ext (UInt32.toNat_inj.mp hval)
    · exact absurd (Utf8.le_of_mem_encodeRune hascii h) (by decide)
  · rintro rfl
    exact List.mem_singleton_self _

@[simp] theorem newline_mem_encode {cs : List Char} : 10 ∈ Utf8.encode cs ↔ '\n' ∈ cs := by
  rw [Utf8.encode, List.mem_flatMap]
  constructor
  · rintro ⟨c, hc, h⟩
    exact newline_mem_encodeRune.mp h ▸ hc
  · intro h
    exact ⟨'\n', h, newline_mem_encodeRune.mpr rfl⟩

end Tracep
