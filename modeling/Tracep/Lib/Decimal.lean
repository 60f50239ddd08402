import Tracep.Lib.Address

/-!
# Decimal numbers as text

What Go's `strconv.Atoi` and `strconv.ParseUint` and C's `atoi` and
`strtoul` make of a text. Go's functions take nothing but a number, and say
whether it was one that fits; C's take the number the text begins with. Go's
read the text of a number back (`parseUint_digits`, `atoi_digits`).
-/

namespace Tracep

def isDigit (b : UInt8) : Bool := 48 ≤ b && b ≤ 57

theorem isDigit_iff {b : UInt8} : isDigit b ↔ 48 ≤ b ∧ b ≤ 57 := by
  rw [isDigit, Bool.and_eq_true, decide_eq_true_eq, decide_eq_true_eq]

theorem visible_of_isDigit {b : UInt8} (h : isDigit b) : 32 < b ∧ b < 127 := by
  obtain ⟨hlo, hhi⟩ := isDigit_iff.mp h
  exact ⟨UInt8.lt_of_lt_of_le (by decide) hlo, UInt8.lt_of_le_of_lt hhi (by decide)⟩

/-- The value of the digits, after that of the digits before. -/
def digitsValue (n : Nat) (s : Bytes) : Nat := s.foldl (fun n b => n * 10 + (b.toNat - 48)) n

/-- A number, with its sign if it is negative. -/
def intText (n : Int) : Bytes := if n < 0 then 45 :: digits 10 n.natAbs else digits 10 n.natAbs

/-! ## Go -/

namespace Strconv

inductive Number where
  | ok (n : Nat)
  | invalid
  | range
deriving Repr, DecidableEq

/-- Read digits up to the end, or up to where the number is too large. -/
def readDigits (maxVal : Nat) : Nat → Bytes → Number
  | n, [] => .ok n
  | n, b :: s =>
      if !isDigit b then .invalid
      else if maxVal < n * 10 + (b.toNat - 48) then .range
      else readDigits maxVal (n * 10 + (b.toNat - 48)) s

/-- `ParseUint` in base 10. -/
def parseUint (maxVal : Nat) (s : Bytes) : Number :=
  if s = [] then .invalid else readDigits maxVal 0 s

/-- Whether there is a minus sign, and the text after the sign. -/
def signed : Bytes → Bool × Bytes
  | 43 :: s => (false, s)
  | 45 :: s => (true, s)
  | s => (false, s)

/-- `Atoi`: the number, and whether there was no error. -/
def atoi (s : Bytes) : Int × Bool :=
  let (neg, s) := signed s
  match parseUint (2 ^ 64 - 1) s with
  | .invalid => (0, false)
  | .range => (if neg then -2 ^ 63 else 2 ^ 63 - 1, false)
  | .ok n =>
      if !neg && 2 ^ 63 ≤ n then (2 ^ 63 - 1, false)
      else if neg && 2 ^ 63 < n then (-2 ^ 63, false)
      else (if neg then -n else n, true)

/-- `ParseInt` in base 10: the number of so many bits, if there was no error. -/
def parseInt (bits : Nat) (s : Bytes) : Option Int :=
  let (neg, s) := signed s
  match parseUint (2 ^ bits - 1) s with
  | .ok n =>
      if !neg && 2 ^ (bits - 1) ≤ n then none
      else if neg && 2 ^ (bits - 1) < n then none
      else some (if neg then -n else n)
  | _ => none

end Strconv

/-! ## C -/

namespace Libc

open Strconv (signed)

/-- `isspace`. -/
def isSpace (b : UInt8) : Bool := b == 32 || 9 ≤ b && b ≤ 13

/-- The sign and the value of the number that a text begins with. -/
def leading (s : Bytes) : Bool × Nat :=
  let (neg, s) := signed (s.dropWhile isSpace)
  (neg, digitsValue 0 (s.takeWhile isDigit))

def strtol (s : Bytes) : Int :=
  let (neg, n) := leading s
  if neg then max (-n) (-2 ^ 63) else min n (2 ^ 63 - 1)

def atoi (s : Bytes) : Int := int32 (strtol s)

def strtoul (s : Bytes) : UInt64 :=
  let (neg, n) := leading s
  if 2 ^ 64 ≤ n then 18446744073709551615 else if neg then -(UInt64.ofNat n) else UInt64.ofNat n

/-- Whether `strtol` says that the number does not fit. -/
def strtolRange (s : Bytes) : Bool :=
  let (neg, n) := leading s
  if neg then 2 ^ 63 < n else 2 ^ 63 ≤ n

/-- Where the number ends: at the beginning of the text if there is none. -/
def numberEnd (s : Bytes) : Bytes :=
  let t := (signed (s.dropWhile isSpace)).2
  if t.takeWhile isDigit = [] then s else t.dropWhile isDigit

end Libc

/-! ## Reading a number back -/

namespace Strconv

theorem le_digitsValue (n : Nat) (s : Bytes) : n ≤ digitsValue n s := by
  induction s generalizing n with
  | nil => exact Nat.le_refl n
  | cons b s ih =>
      have hstep : n ≤ n * 10 + (b.toNat - 48) := by omega
      exact hstep.trans (ih _)

theorem readDigits_eq {maxVal n : Nat} {s : Bytes} (hdigits : ∀ b ∈ s, isDigit b)
    (hmax : digitsValue n s ≤ maxVal) : readDigits maxVal n s = .ok (digitsValue n s) := by
  induction s generalizing n with
  | nil => rfl
  | cons b s ih =>
      have hb : isDigit b = true := hdigits b List.mem_cons_self
      have hle : n * 10 + (b.toNat - 48) ≤ maxVal := (le_digitsValue _ s).trans hmax
      rw [readDigits, hb, if_neg (by decide), if_neg (Nat.not_lt.mpr hle)]
      exact ih (fun c hc => hdigits c (List.mem_cons_of_mem b hc)) hmax

/-- The bytes of the digits are those of `0` to `9`. -/
theorem digit_bounds {n : Nat} {c : Char} (hc : c ∈ Nat.toDigits 10 n) :
    48 ≤ c.toNat ∧ c.toNat ≤ 57 := by
  have hdigit := Nat.isDigit_of_mem_toDigits (by decide) (by decide) hc
  rw [Char.isDigit, Bool.and_eq_true, decide_eq_true_eq, decide_eq_true_eq] at hdigit
  exact ⟨UInt32.le_iff_toNat_le.mp hdigit.1, UInt32.le_iff_toNat_le.mp hdigit.2⟩

theorem digit_toNat {n : Nat} {c : Char} (hc : c ∈ Nat.toDigits 10 n) :
    (UInt8.ofNat c.toNat).toNat = c.toNat := by
  have := (digit_bounds hc).2
  rw [UInt8.toNat_ofNat']
  omega

theorem digits_isDigit (n : Nat) : ∀ b ∈ digits 10 n, isDigit b := by
  intro b hb
  obtain ⟨c, hc, rfl⟩ := List.mem_map.mp hb
  obtain ⟨hlo, hhi⟩ := digit_bounds hc
  rw [isDigit, Bool.and_eq_true, decide_eq_true_eq, decide_eq_true_eq, UInt8.le_iff_toNat_le,
    UInt8.le_iff_toNat_le, digit_toNat hc]
  exact ⟨hlo, hhi⟩

theorem not_mem_digits {b : UInt8} (hb : isDigit b = false) (n : Nat) : b ∉ digits 10 n := by
  intro hmem
  rw [digits_isDigit n b hmem] at hb
  cases hb

theorem intText_natCast (n : Nat) : intText n = digits 10 n := if_neg (by omega)

theorem not_mem_intText {b : UInt8} (hb : isDigit b = false) (hsign : b ≠ 45) (n : Int) :
    b ∉ intText n := by
  unfold intText
  split
  · exact fun hmem => (List.mem_cons.mp hmem).elim hsign (not_mem_digits hb _)
  · exact not_mem_digits hb _

theorem length_digits_le {n k : Nat} (hk : 0 < k) (h : n < 10 ^ k) : (digits 10 n).length ≤ k := by
  rw [digits, List.length_map, Nat.length_toDigits_le_iff (by decide) hk]
  exact h

/-- The text of an `int`. -/
theorem length_intText_le {n : Int} (h : -2 ^ 31 ≤ n ∧ n < 2 ^ 31) : (intText n).length ≤ 11 := by
  have hdigits := length_digits_le (n := n.natAbs) (by decide : 0 < 10) (by omega)
  unfold intText
  split
  · rw [List.length_cons]
    omega
  · omega

theorem digitsValue_digits (n : Nat) : digitsValue 0 (digits 10 n) = n := by
  rw [digitsValue, digits, List.foldl_map]
  refine Eq.trans (List.foldl_ext _ _ _ ?_)
    (Nat.ofDigitChars_toDigits (n := n) (by decide) (Nat.le_refl 10))
  intro m c hc
  rw [digit_toNat hc, Nat.mul_comm]
  rfl

theorem digits_injective : Function.Injective (digits 10) := by
  intro n m h
  rw [← digitsValue_digits n, h, digitsValue_digits]

theorem digits_ne_nil (n : Nat) : digits 10 n ≠ [] := by
  rw [digits, Ne, List.map_eq_nil_iff]
  exact Nat.toDigits_ne_nil

/-- No zeros stand before a number. -/
theorem head?_digits {n : Nat} (h : 0 < n) : (digits 10 n).head? ≠ some 48 := by
  induction n using Nat.strongRecOn with
  | _ n ih =>
      rw [digits, Nat.toDigits_eq_if (by decide)]
      split
      · next hlt =>
          interval_cases n <;> decide
      · next hle =>
          have hhead := ih (n / 10) (by omega) (by omega)
          rw [List.map_append, ← digits, List.head?_append_of_ne_nil _ (digits_ne_nil (n / 10))]
          exact hhead

theorem parseUint_digits {maxVal n : Nat} (h : n ≤ maxVal) :
    parseUint maxVal (digits 10 n) = .ok n := by
  rw [parseUint, if_neg (digits_ne_nil n), readDigits_eq (digits_isDigit n), digitsValue_digits]
  rw [digitsValue_digits]
  exact h

/-- A digit is no sign. -/
theorem signed_of_isDigit {s : Bytes} (h : ∀ b ∈ s, isDigit b) : signed s = (false, s) := by
  unfold signed
  split
  · exact absurd (h 43 List.mem_cons_self) (by decide)
  · exact absurd (h 45 List.mem_cons_self) (by decide)
  · rfl

theorem signed_digits (n : Nat) : signed (digits 10 n) = (false, digits 10 n) :=
  signed_of_isDigit (digits_isDigit n)

theorem atoi_digits {n : Nat} (h : n < 2 ^ 63) : atoi (digits 10 n) = ((n : Int), true) := by
  have hok : parseUint (2 ^ 64 - 1) (digits 10 n) = .ok n := parseUint_digits (by omega)
  have hfits : decide (2 ^ 63 ≤ n) = false := decide_eq_false (by omega)
  simp only [atoi, signed_digits, hok, hfits, Bool.and_false, Bool.false_and, Bool.false_eq_true,
    if_false]

theorem parseInt_digits {bits n : Nat} (hbits : 0 < bits) (h : n < 2 ^ (bits - 1)) :
    parseInt bits (digits 10 n) = some (n : Int) := by
  have hdouble : 2 ^ bits = 2 ^ (bits - 1) * 2 := by
    rw [← Nat.pow_succ, Nat.succ_eq_add_one, Nat.sub_add_cancel hbits]
  have hok : parseUint (2 ^ bits - 1) (digits 10 n) = .ok n := parseUint_digits (by omega)
  have hfits : decide (2 ^ (bits - 1) ≤ n) = false := decide_eq_false (Nat.not_le.mpr h)
  simp only [parseInt, signed_digits, hok, hfits, Bool.and_false, Bool.false_and,
    Bool.false_eq_true, if_false]

/-! ## The same number in C -/

theorem readDigits_ok {maxVal n v : Nat} {s : Bytes} (h : readDigits maxVal n s = .ok v) :
    (∀ b ∈ s, isDigit b) ∧ digitsValue n s = v := by
  induction s generalizing n with
  | nil => exact ⟨fun b hb => absurd hb List.not_mem_nil, Number.ok.inj h⟩
  | cons b s ih =>
      rw [readDigits] at h
      split at h
      · cases h
      · next hb =>
          split at h
          · cases h
          · obtain ⟨hs, hv⟩ := ih h
            rw [Bool.not_eq_true, Bool.not_eq_false'] at hb
            exact ⟨List.forall_mem_cons.mpr ⟨hb, hs⟩, hv⟩

theorem parseUint_ok {maxVal v : Nat} {s : Bytes} (h : parseUint maxVal s = .ok v) :
    s ≠ [] ∧ (∀ b ∈ s, isDigit b) ∧ digitsValue 0 s = v := by
  rw [parseUint] at h
  split at h
  · cases h
  · next hne => exact ⟨hne, readDigits_ok h⟩

theorem atoi_ok {s : Bytes} {v : Int} (h : atoi s = (v, true)) :
    (signed s).2 ≠ [] ∧ (∀ b ∈ (signed s).2, isDigit b)
      ∧ v = (if (signed s).1 then -(digitsValue 0 (signed s).2 : Int) else digitsValue 0 (signed s).2)
      ∧ -2 ^ 63 ≤ v ∧ v < 2 ^ 63 := by
  unfold atoi at h
  generalize signed s = t at h ⊢
  obtain ⟨neg, ds⟩ := t
  simp only [] at h ⊢
  split at h
  · cases (Prod.mk.inj h).2
  · cases (Prod.mk.inj h).2
  · next n hok =>
      obtain ⟨hne, hdigits, rfl⟩ := parseUint_ok hok
      split at h
      · cases (Prod.mk.inj h).2
      · next hpos =>
          split at h
          · cases (Prod.mk.inj h).2
          · next hneg =>
              obtain ⟨rfl, -⟩ := Prod.mk.inj h
              refine ⟨hne, hdigits, rfl, ?_⟩
              cases neg with
              | false =>
                  simp at hpos
                  simp
                  omega
              | true =>
                  simp at hneg
                  simp
                  omega

end Strconv

namespace Libc

open Strconv

/-- A visible character is no white space. -/
theorem isSpace_of_visible {b : UInt8} (h : 32 < b) : isSpace b = false := by
  have hb : 32 < b.toNat := h
  simp only [isSpace, Bool.or_eq_false_iff, beq_eq_false_iff_ne, Bool.and_eq_false_iff,
    decide_eq_false_iff_not, UInt8.le_iff_toNat_le]
  refine ⟨fun heq => absurd hb (by rw [heq]; decide), Or.inr (Nat.not_le.mpr ?_)⟩
  exact lt_of_le_of_lt (by decide) hb

theorem isSpace_of_isDigit {b : UInt8} (h : isDigit b) : isSpace b = false :=
  isSpace_of_visible (visible_of_isDigit h).1

/-- Digits, after a sign or not. -/
def Number (s : Bytes) : Prop := (signed s).2 ≠ [] ∧ ∀ b ∈ (signed s).2, isDigit b = true

/-- A number does not begin with white space. -/
theorem number_cons {s : Bytes} (h : Number s) : ∃ b t, s = b :: t ∧ isSpace b = false := by
  obtain ⟨hne, hdigits⟩ := h
  cases s with
  | nil => exact absurd rfl hne
  | cons b t =>
      refine ⟨b, t, rfl, ?_⟩
      unfold signed at hdigits
      split at hdigits
      · next heq =>
          obtain ⟨rfl, -⟩ := List.cons.inj heq
          rfl
      · next heq =>
          obtain ⟨rfl, -⟩ := List.cons.inj heq
          rfl
      · exact isSpace_of_isDigit (hdigits b List.mem_cons_self)

/-- The number that Go reads begins the text. -/
theorem leading_eq {s : Bytes} (hne : (signed s).2 ≠ []) (h : ∀ b ∈ (signed s).2, isDigit b) :
    leading s = ((signed s).1, digitsValue 0 (signed s).2) := by
  have hdrop : s.dropWhile isSpace = s := by
    obtain ⟨b, t, rfl, hb⟩ := number_cons ⟨hne, h⟩
    exact List.dropWhile_cons_of_neg (Bool.not_eq_true _ ▸ hb)
  rw [leading, hdrop]
  simp only [List.takeWhile_eq_self_iff.mpr h]

theorem leading_digits (n : Nat) : leading (digits 10 n) = (false, n) := by
  have hsigned := signed_digits n
  rw [leading_eq (s := digits 10 n) (by rw [hsigned]; exact digits_ne_nil n)
    (by rw [hsigned]; exact digits_isDigit n), hsigned, digitsValue_digits]

theorem strtol_digits {n : Nat} (h : n < 2 ^ 63) : strtol (digits 10 n) = n := by
  rw [strtol, leading_digits]
  change min (n : Int) (2 ^ 63 - 1) = n
  omega

theorem strtolRange_digits {n : Nat} (h : n < 2 ^ 63) : strtolRange (digits 10 n) = false := by
  rw [strtolRange, leading_digits]
  exact decide_eq_false (Nat.not_le.mpr h)

theorem dropWhile_isSpace_digits (n : Nat) : (digits 10 n).dropWhile isSpace = digits 10 n := by
  have hdigit := digits_isDigit n
  cases hs : digits 10 n with
  | nil => rfl
  | cons b s =>
      rw [hs] at hdigit
      exact List.dropWhile_cons_of_neg
        (Bool.not_eq_true _ ▸ isSpace_of_isDigit (hdigit b List.mem_cons_self))

/-- All of a number is read. -/
theorem numberEnd_digits (n : Nat) : numberEnd (digits 10 n) = [] := by
  have hall : (digits 10 n).takeWhile isDigit = digits 10 n :=
    List.takeWhile_eq_self_iff.mpr (digits_isDigit n)
  rw [numberEnd, dropWhile_isSpace_digits, signed_digits]
  simp only [hall, if_neg (digits_ne_nil n)]
  exact List.dropWhile_eq_nil_iff.mpr (digits_isDigit n)

theorem atoi_of_strconv {s : Bytes} {v : Int} (h : Strconv.atoi s = (v, true)) :
    atoi s = int32 v := by
  obtain ⟨hne, hdigits, hv, hlo, hhi⟩ := atoi_ok h
  have hstrtol : strtol s = v := by
    rw [strtol, leading_eq hne hdigits]
    generalize signed s = t at hv ⊢
    obtain ⟨neg, ds⟩ := t
    cases neg with
    | false =>
        have hv : v = digitsValue 0 ds := hv
        change min ((digitsValue 0 ds : Nat) : Int) (2 ^ 63 - 1) = v
        omega
    | true =>
        have hv : v = -(digitsValue 0 ds : Int) := hv
        change max (-(digitsValue 0 ds : Int)) (-2 ^ 63) = v
        omega
  rw [atoi, hstrtol]

/-! ## All that is a number -/

theorem number_of_digits {s : Bytes} (hne : s ≠ []) (h : ∀ b ∈ s, isDigit b = true) : Number s := by
  rw [Number, signed_of_isDigit h]
  exact ⟨hne, h⟩

theorem number_intText (n : Int) : Number (intText n) := by
  unfold intText
  split
  · exact ⟨Strconv.digits_ne_nil _, Strconv.digits_isDigit _⟩
  · exact number_of_digits (Strconv.digits_ne_nil _) (Strconv.digits_isDigit _)

theorem signed_append {s rest : Bytes} (hne : (signed s).2 ≠ []) :
    signed (s ++ rest) = ((signed s).1, (signed s).2 ++ rest) := by
  unfold signed at hne ⊢
  split at hne
  · rfl
  · rfl
  · next hplus hminus =>
      cases s with
      | nil => exact absurd rfl hne
      | cons b s =>
          rw [List.cons_append]
          split
          · next heq => exact absurd (congrArg (· :: s) (List.cons.inj heq).1) (hplus s)
          · next heq => exact absurd (congrArg (· :: s) (List.cons.inj heq).1) (hminus s)
          · rfl

/-- A number is read up to where it ends. -/
theorem leading_append {s rest : Bytes} (h : Number s) (hrest : ∀ b ∈ rest.head?, isDigit b = false) :
    leading (s ++ rest) = leading s := by
  obtain ⟨b, t, rfl, hb⟩ := number_cons h
  obtain ⟨hne, hdigits⟩ := h
  have hdrop : (b :: t ++ rest).dropWhile isSpace = b :: t ++ rest :=
    List.dropWhile_cons_of_neg (Bool.not_eq_true _ ▸ hb)
  have hend : rest.takeWhile isDigit = [] := by
    cases rest with
    | nil => rfl
    | cons b rest => exact List.takeWhile_cons_of_neg (Bool.not_eq_true _ ▸ hrest b rfl)
  rw [leading_eq hne hdigits, leading, hdrop, signed_append hne]
  simp only [List.takeWhile_append_of_pos hdigits, hend, List.append_nil]

theorem atoi_append {s rest : Bytes} (h : Number s) (hrest : ∀ b ∈ rest.head?, isDigit b = false) :
    atoi (s ++ rest) = atoi s := by
  rw [atoi, atoi, strtol, strtol, leading_append h hrest]

theorem atoi_intText {n : Int} (hlo : -2 ^ 31 ≤ n) (hhi : n < 2 ^ 31) : atoi (intText n) = n := by
  have hstrtol : strtol (intText n) = n := by
    obtain ⟨hne, hdigits⟩ := number_intText n
    rw [strtol, leading_eq hne hdigits]
    unfold intText
    by_cases hneg : n < 0
    · rw [if_pos hneg]
      change max (-((digitsValue 0 (digits 10 n.natAbs) : Nat) : Int)) (-2 ^ 63) = n
      rw [Strconv.digitsValue_digits]
      omega
    · rw [if_neg hneg, Strconv.signed_digits, Strconv.digitsValue_digits]
      change min ((n.natAbs : Nat) : Int) (2 ^ 63 - 1) = n
      omega
  rw [atoi, hstrtol, int32_eq hlo hhi]

/-- Digits are read as the number they are exactly when it is an `int`. -/
theorem atoi_eq_digitsValue_iff {s : Bytes} (hne : s ≠ []) (h : ∀ b ∈ s, isDigit b = true) :
    atoi s = digitsValue 0 s ↔ digitsValue 0 s < 2 ^ 31 := by
  have hsigned := signed_of_isDigit h
  have hleading := leading_eq (s := s) (by rwa [hsigned]) (by rwa [hsigned])
  have hstrtol : strtol s = min ((digitsValue 0 s : Nat) : Int) (2 ^ 63 - 1) := by
    rw [strtol, hleading, hsigned]
    rfl
  rw [atoi, hstrtol]
  constructor
  · intro heq
    have := (int32_bounds (min ((digitsValue 0 s : Nat) : Int) (2 ^ 63 - 1))).2
    omega
  · intro hlt
    rw [int32_eq] <;> omega

theorem number_of_atoi {s : Bytes} (h : (Strconv.atoi s).2 = true) : Number s := by
  obtain ⟨hne, hdigits, -⟩ := @atoi_ok s (Strconv.atoi s).1 (Prod.ext rfl h)
  exact ⟨hne, hdigits⟩

theorem readDigits_range {maxVal n : Nat} {s : Bytes} (hdigits : ∀ b ∈ s, isDigit b = true)
    (hn : n ≤ maxVal) (h : maxVal < digitsValue n s) : readDigits maxVal n s = .range := by
  induction s generalizing n with
  | nil => exact absurd hn (Nat.not_le.mpr h)
  | cons b s ih =>
      have hb : isDigit b = true := hdigits b List.mem_cons_self
      rw [readDigits, hb, if_neg (by decide)]
      split
      · rfl
      · next hle =>
          exact ih (fun c hc => hdigits c (List.mem_cons_of_mem b hc)) (Nat.not_lt.mp hle) h

/-- Both read a number that is small the same, as far as it is above zero. -/
theorem atoi_of_number {s : Bytes} (h : Number s) (hsmall : (Strconv.atoi s).1 < 2 ^ 31) :
    (0 < strtol s → Strconv.atoi s = (strtol s, true))
      ∧ (strtol s ≤ 0 → (Strconv.atoi s).1 ≤ 0) := by
  obtain ⟨hne, hdigits⟩ := h
  rw [strtol, leading_eq hne hdigits]
  unfold Strconv.atoi at hsmall ⊢
  generalize signed s = t at hne hdigits hsmall ⊢
  obtain ⟨neg, ds⟩ := t
  have hne : ds ≠ [] := hne
  have hdigits : ∀ b ∈ ds, isDigit b = true := hdigits
  simp only [] at hsmall ⊢
  rw [parseUint, if_neg hne] at hsmall ⊢
  rcases Nat.lt_or_ge (2 ^ 64 - 1) (digitsValue 0 ds) with hbig | hfits
  · rw [readDigits_range hdigits (Nat.zero_le _) hbig] at hsmall ⊢
    cases neg with
    | false => exact absurd hsmall (by decide)
    | true =>
        simp only [if_true]
        omega
  · rw [readDigits_eq hdigits hfits] at hsmall ⊢
    simp only [] at hsmall ⊢
    cases neg with
    | false =>
        simp only [Bool.not_false, Bool.true_and, Bool.false_and, decide_eq_true_eq,
          Bool.false_eq_true, if_false] at hsmall ⊢
        split at hsmall
        · exact absurd hsmall (by decide)
        · next hlt =>
            have hmin : min ((digitsValue 0 ds : Nat) : Int) (2 ^ 63 - 1) = digitsValue 0 ds := by
              omega
            rw [if_neg hlt, hmin]
            exact ⟨fun _ => rfl, id⟩
    | true =>
        simp only [Bool.not_true, Bool.false_and, Bool.true_and, Bool.false_eq_true, if_false,
          if_true, decide_eq_true_eq]
        split <;> omega

theorem numberEnd_eq_nil_iff {s : Bytes} (hne : s ≠ []) :
    numberEnd s = [] ↔ Number (s.dropWhile isSpace) := by
  rw [numberEnd, Number]
  generalize (signed (s.dropWhile isSpace)).2 = t
  split
  · next hnone =>
      refine iff_of_false hne fun ⟨ht, hdigits⟩ => ht ?_
      rwa [← List.takeWhile_eq_self_iff.mpr hdigits]
  · next hsome =>
      rw [List.dropWhile_eq_nil_iff]
      refine ⟨fun hdigits => ⟨fun ht => hsome ?_, hdigits⟩, And.right⟩
      rw [ht, List.takeWhile_nil]

theorem strtoul_of_parseUint {maxVal n : Nat} {s : Bytes} (h : parseUint maxVal s = .ok n)
    (hn : n < 2 ^ 64) : strtoul s = UInt64.ofNat n := by
  obtain ⟨hne, hdigits, rfl⟩ := parseUint_ok h
  have hsigned := signed_of_isDigit hdigits
  have hleading := leading_eq (s := s) (by rwa [hsigned]) (by rwa [hsigned])
  rw [hsigned] at hleading
  rw [strtoul, hleading]
  exact if_neg (Nat.not_le.mpr hn)

end Libc

end Tracep
