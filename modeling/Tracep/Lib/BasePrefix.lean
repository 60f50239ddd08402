import Tracep.Lib.Decimal
import Mathlib.Data.Nat.Digits.Lemmas

/-!
# Numbers with a prefix for their base

What Go's `strconv.ParseInt` makes of a text if it is to find the base
itself: `0x`, `0o`, `0b` and a mere `0` begin a number of another base than
ten, and an underscore may stand between digits. C's `strtol` in base ten
knows none of this. `int_strtol_eq_iff` says which numbers an `int` of C and
an `int` of Go take for the same.
-/

namespace Tracep

namespace Strconv

/-! ## The text of a number -/

/-- `lower`: a capital letter as a small one. -/
def lowerByte (b : UInt8) : UInt8 := b ||| 32

/-- The value of a digit or a letter. -/
def digitOf (b : UInt8) : Option Nat :=
  if isDigit b then some (b.toNat - 48)
  else if 97 ≤ lowerByte b ∧ lowerByte b ≤ 122 then some ((lowerByte b).toNat - 97 + 10)
  else none

/-- The base, and the text after the prefix. -/
def splitBase (s : Bytes) : Nat × Bytes :=
  if s.head? = some 48 then
    let letter := s[1]?.map lowerByte
    if 3 ≤ s.length ∧ letter = some 98 then (2, s.drop 2)
    else if 3 ≤ s.length ∧ letter = some 111 then (8, s.drop 2)
    else if 3 ≤ s.length ∧ letter = some 120 then (16, s.drop 2)
    else (8, s.drop 1)
  else (10, s)

/-- Read digits of a base, and pass over underscores. -/
def readBase (base maxVal : Nat) : Nat → Bytes → Number
  | n, [] => .ok n
  | n, b :: s =>
      if b = 95 then readBase base maxVal n s
      else
        match digitOf b with
        | none => .invalid
        | some d =>
            if base ≤ d then .invalid
            else if maxVal < n * base + d then .range
            else readBase base maxVal (n * base + d) s

/-- What was seen last. -/
inductive Saw where
  | start
  | digit
  | underscore
  | other
deriving DecidableEq

/-- Each underscore is after a digit, and none is before anything but a digit. -/
def underscoresOK (hex : Bool) : Saw → Bytes → Bool
  | saw, [] => saw ≠ .underscore
  | saw, b :: s =>
      if isDigit b || hex && 97 ≤ lowerByte b && lowerByte b ≤ 102 then underscoresOK hex .digit s
      else if b = 95 then saw = .digit && underscoresOK hex .underscore s
      else saw ≠ .underscore && underscoresOK hex .other s

/-- `underscoreOK`: the prefix counts as a digit. -/
def underscoreOK (s : Bytes) : Bool :=
  let s := (signed s).2
  let letter := s[1]?.map lowerByte
  if s.head? = some 48 ∧ (letter = some 98 ∨ letter = some 111 ∨ letter = some 120) then
    underscoresOK (letter = some 120) .digit (s.drop 2)
  else underscoresOK false .start s

/-- `ParseUint` in base 0. -/
def parseUintBase (maxVal : Nat) (s : Bytes) : Number :=
  if s = [] then .invalid
  else
    match readBase (splitBase s).1 maxVal 0 (splitBase s).2 with
    | .ok n => if 95 ∈ s ∧ !underscoreOK s then .invalid else .ok n
    | e => e

/-- `ParseInt` in base 0: the number of so many bits, if there was no error. -/
def parseIntBase (bits : Nat) (s : Bytes) : Option Int :=
  let (neg, s) := signed s
  match parseUintBase (2 ^ bits - 1) s with
  | .ok n =>
      if !neg && 2 ^ (bits - 1) ≤ n then none
      else if neg && 2 ^ (bits - 1) < n then none
      else some (if neg then -n else n)
  | _ => none

/-! ## Octal digits read as decimal ones -/

/-- The digits of a number in base eight, as those of one in base ten. -/
def decimalOfOctal (v : Nat) : Nat := Nat.ofDigits 10 (Nat.digits 8 v)

theorem decimalOfOctal_step (q : Nat) {r : Nat} (hr : r < 8) :
    decimalOfOctal (q * 8 + r) = decimalOfOctal q * 10 + r := by
  unfold decimalOfOctal
  rcases Nat.eq_zero_or_pos (q * 8 + r) with h | h
  · obtain ⟨rfl, rfl⟩ : q = 0 ∧ r = 0 := by omega
    rfl
  · have hmod : (q * 8 + r) % 8 = r := by omega
    have hdiv : (q * 8 + r) / 8 = q := by omega
    rw [Nat.digits_def' (by decide) h, Nat.ofDigits_cons, hmod, hdiv, Nat.add_comm, Nat.mul_comm]

theorem decimalOfOctal_small {v : Nat} (h : v < 8) : decimalOfOctal v = v := by
  have hzero : decimalOfOctal 0 = 0 := rfl
  have hstep := decimalOfOctal_step 0 h
  rwa [Nat.zero_mul, Nat.zero_add, hzero, Nat.zero_mul, Nat.zero_add] at hstep

theorem decimalOfOctal_succ (v : Nat) : decimalOfOctal v + 1 ≤ decimalOfOctal (v + 1) := by
  induction v using Nat.strong_induction_on with
  | _ v ih =>
      obtain ⟨q, r, hr, rfl⟩ : ∃ q r, r < 8 ∧ v = q * 8 + r :=
        ⟨v / 8, v % 8, Nat.mod_lt _ (by decide), (Nat.div_add_mod' v 8).symm⟩
      rw [decimalOfOctal_step q hr]
      rcases Nat.lt_or_ge (r + 1) 8 with hlt | hge
      · rw [Nat.add_assoc, Nat.add_assoc, decimalOfOctal_step q hlt]
      · have hnext : q * 8 + r + 1 = (q + 1) * 8 + 0 := by omega
        rw [hnext, decimalOfOctal_step (q + 1) (by decide)]
        rcases Nat.eq_zero_or_pos q with rfl | hq
        · rw [decimalOfOctal_small (by decide : 0 < 8), decimalOfOctal_small (by decide : 0 + 1 < 8)]
          omega
        · have := ih q (by omega)
          omega

/-- The difference to the number itself only grows. -/
theorem decimalOfOctal_le {v w : Nat} (h : v ≤ w) :
    decimalOfOctal v + (w - v) ≤ decimalOfOctal w := by
  induction h with
  | refl => exact Nat.le_of_eq (by rw [Nat.sub_self, Nat.add_zero])
  | @step w h ih =>
      have hstep := decimalOfOctal_succ w
      have hle : v ≤ w := h
      change _ ≤ decimalOfOctal (w + 1)
      omega

theorem le_decimalOfOctal (v : Nat) : v ≤ decimalOfOctal v := by
  have hle := decimalOfOctal_le (Nat.zero_le v)
  omega

/-- Between numbers for which the difference is between two multiples it is none. -/
theorem not_dvd_between {a b v da db : Nat} (m : Nat) (ha : decimalOfOctal a = da)
    (hb : decimalOfOctal b = db) (hlo : m * 2 ^ 32 < da - a) (hhi : db - b < (m + 1) * 2 ^ 32)
    (hv : a ≤ v) (hv' : v ≤ b) : ¬2 ^ 32 ∣ decimalOfOctal v - v := by
  rintro ⟨k, hk⟩
  have hle := decimalOfOctal_le hv
  have hle' := decimalOfOctal_le hv'
  omega

/-- No number of 32 bits is the same modulo `2 ^ 32` for both readings, but a single digit. -/
theorem small_of_dvd {v : Nat} (hv : v ≤ 2 ^ 31) (h : 2 ^ 32 ∣ decimalOfOctal v - v) : v < 8 := by
  by_contra hge
  have heval : decimalOfOctal 8 = 10 ∧ decimalOfOctal 671088639 = 4777777777
      ∧ decimalOfOctal 671088640 = 5000000000 ∧ decimalOfOctal 1073741823 = 7777777777
      ∧ decimalOfOctal 1073741824 = 10000000000 ∧ decimalOfOctal 1711276031 = 14577777777
      ∧ decimalOfOctal 1711276032 = 14600000000 ∧ decimalOfOctal 2147483647 = 17777777777
      ∧ decimalOfOctal 2147483648 = 20000000000 := by
    norm_num [decimalOfOctal, Nat.ofDigits]
  obtain ⟨h1, h2, h3, h4, h5, h6, h7, h8, h9⟩ := heval
  have hge : 8 ≤ v := Nat.le_of_not_lt hge
  rcases Nat.lt_or_ge v 671088640 with hlt | hge1
  · exact not_dvd_between 0 h1 h2 (by norm_num) (by norm_num) hge (Nat.le_of_lt_succ hlt) h
  rcases Nat.lt_or_ge v 1073741824 with hlt | hge2
  · exact not_dvd_between 1 h3 h4 (by norm_num) (by norm_num) hge1 (Nat.le_of_lt_succ hlt) h
  rcases Nat.lt_or_ge v 1711276032 with hlt | hge3
  · exact not_dvd_between 2 h5 h6 (by norm_num) (by norm_num) hge2 (Nat.le_of_lt_succ hlt) h
  rcases Nat.lt_or_ge v 2147483648 with hlt | hge4
  · exact not_dvd_between 3 h7 h8 (by norm_num) (by norm_num) hge3 (Nat.le_of_lt_succ hlt) h
  · exact not_dvd_between 4 h9 h9 (by norm_num) (by norm_num) hge4 hv h

/-! ## Decimal digits -/

/-- The value of the digits in a base, after that of the digits before. -/
def valueIn (base n : Nat) (s : Bytes) : Nat := s.foldl (fun n b => n * base + (b.toNat - 48)) n

theorem digitOf_digit {b : UInt8} (h : isDigit b = true) : digitOf b = some (b.toNat - 48) :=
  if_pos h

theorem ne_underscore_of_isDigit {b : UInt8} (h : isDigit b = true) : b ≠ 95 := by
  rintro rfl
  cases h

theorem readBase_digits {base maxVal n v : Nat} {s : Bytes} (hdigits : ∀ b ∈ s, isDigit b = true)
    (h : readBase base maxVal n s = .ok v) :
    v = valueIn base n s ∧ ∀ b ∈ s, b.toNat - 48 < base := by
  induction s generalizing n with
  | nil => exact ⟨(Number.ok.inj h).symm, List.forall_mem_nil _⟩
  | cons b s ih =>
      obtain ⟨hb, hs⟩ := List.forall_mem_cons.mp hdigits
      rw [readBase, if_neg (ne_underscore_of_isDigit hb), digitOf_digit hb] at h
      dsimp only at h
      split at h
      · cases h
      · next hbase =>
          split at h
          · cases h
          · obtain ⟨hv, hall⟩ := ih hs h
            exact ⟨hv, List.forall_mem_cons.mpr ⟨Nat.lt_of_not_le hbase, hall⟩⟩

/-- Digits below eight are those of a number in base eight, and then of another in base ten. -/
theorem digitsValue_octal {s : Bytes} (h : ∀ b ∈ s, b.toNat - 48 < 8) :
    digitsValue 0 s = decimalOfOctal (valueIn 8 0 s) := by
  induction s using List.reverseRecOn with
  | nil => rfl
  | append_singleton s b ih =>
      obtain ⟨hs, hb⟩ := List.forall_mem_append.mp h
      have hstep := decimalOfOctal_step (valueIn 8 0 s) (hb b List.mem_cons_self)
      rw [← ih hs] at hstep
      rw [digitsValue, List.foldl_append, valueIn, List.foldl_append]
      exact hstep.symm

/-- A digit has the bit that capital letters are without. -/
theorem lowerByte_of_isDigit {b : UInt8} (h : isDigit b = true) : lowerByte b = b := by
  obtain ⟨hlo, hhi⟩ := isDigit_iff.mp h
  have hlo : 48 ≤ b.toNat := hlo
  have hhi : b.toNat ≤ 57 := hhi
  refine UInt8.toNat_inj.mp ?_
  rw [lowerByte, UInt8.toNat_or]
  change b.toNat ||| 32 = b.toNat
  interval_cases b.toNat <;> rfl

/-- A digit after a zero is no letter for a base. -/
theorem splitBase_zero {s : Bytes} (h : ∀ b ∈ s, isDigit b = true) :
    splitBase (48 :: s) = (8, s) := by
  have hletter : ∀ l ∈ ([98, 111, 120] : Bytes), (48 :: s)[1]?.map lowerByte ≠ some l := by
    intro l hl heq
    obtain ⟨b, hb, hlower⟩ := Option.map_eq_some_iff.mp heq
    have hs : s[0]? = some b := hb
    have hdigit := h b (List.mem_of_getElem? hs)
    have hsame : lowerByte b = b := lowerByte_of_isDigit hdigit
    rw [← hlower, hsame] at hl
    simp only [List.mem_cons, List.not_mem_nil, or_false] at hl
    rcases hl with rfl | rfl | rfl <;> cases hdigit
  have hhead : (48 :: s).head? = some 48 := rfl
  rw [splitBase, if_pos hhead]
  simp only []
  rw [if_neg fun h => hletter 98 (by decide) h.2, if_neg fun h => hletter 111 (by decide) h.2,
    if_neg fun h => hletter 120 (by decide) h.2]
  rfl

theorem parseUintBase_digits {maxVal v : Nat} {s : Bytes} (hdigits : ∀ b ∈ s, isDigit b = true)
    (h : parseUintBase maxVal s = .ok v) :
    if s.head? = some 48 then digitsValue 0 s = decimalOfOctal v else digitsValue 0 s = v := by
  have hread : readBase (splitBase s).1 maxVal 0 (splitBase s).2 = .ok v := by
    have hplain : ¬(95 ∈ s ∧ (!underscoreOK s) = true) := fun hmem =>
      ne_underscore_of_isDigit (hdigits 95 hmem.1) rfl
    simp only [parseUintBase, if_neg hplain] at h
    split at h
    · cases h
    · split at h
      · next hread => rw [hread, h]
      · exact h
  cases s with
  | nil => exact (Number.ok.inj hread)
  | cons b s =>
      by_cases hb : b = 48
      · subst hb
        have hs := (List.forall_mem_cons.mp hdigits).2
        rw [splitBase_zero hs] at hread
        obtain ⟨rfl, hall⟩ := readBase_digits hs hread
        have hzero : digitsValue 0 (48 :: s) = digitsValue 0 s := rfl
        rw [if_pos (show (48 :: s).head? = some 48 from rfl), hzero]
        exact digitsValue_octal hall
      · have hhead : ¬(b :: s).head? = some 48 := fun heq => hb (Option.some.inj heq)
        rw [splitBase, if_neg hhead] at hread
        rw [if_neg hhead]
        exact (readBase_digits hdigits hread).1.symm

/-- A number of 32 bits, and of one digit if it begins with a zero. -/
def IsSmall (s : Bytes) : Prop :=
  digitsValue 0 (signed s).2 < (if (signed s).1 then 2 ^ 31 + 1 else 2 ^ 31)
    ∧ ((signed s).2.head? = some 48 → digitsValue 0 (signed s).2 < 8)

theorem parseIntBase_some {s : Bytes} {n : Int} (h : parseIntBase 64 s = some n) :
    ∃ v : Nat, parseUintBase (2 ^ 64 - 1) (signed s).2 = .ok v
      ∧ n = (if (signed s).1 then -(v : Int) else v)
      ∧ v < (if (signed s).1 then 2 ^ 63 + 1 else 2 ^ 63) := by
  rw [parseIntBase] at h
  generalize signed s = t at h ⊢
  obtain ⟨neg, ds⟩ := t
  simp only [] at h ⊢
  split at h
  · next v hv =>
      refine ⟨v, hv, ?_⟩
      cases neg with
      | false =>
          simp only [Bool.not_false, Bool.true_and, Bool.false_and, decide_eq_true_eq,
            Bool.false_eq_true, if_false] at h ⊢
          split at h
          · cases h
          · exact ⟨(Option.some.inj h).symm, by omega⟩
      | true =>
          simp only [Bool.not_true, Bool.false_and, Bool.true_and, decide_eq_true_eq,
            Bool.false_eq_true, if_false, if_true] at h ⊢
          split at h
          · cases h
          · exact ⟨(Option.some.inj h).symm, by omega⟩
  · cases h

end Strconv

namespace Libc

open Strconv

/-- Only C passes over white space. -/
theorem parseIntBase_space {bits : Nat} {b : UInt8} (h : isSpace b = true) (s : Bytes) :
    parseIntBase bits (b :: s) = none := by
  have hb : b = 32 ∨ b = 9 ∨ b = 10 ∨ b = 11 ∨ b = 12 ∨ b = 13 := by
    rw [isSpace, Bool.or_eq_true, beq_iff_eq, Bool.and_eq_true, decide_eq_true_eq,
      decide_eq_true_eq] at h
    refine h.imp_right ?_
    rintro ⟨hlo, hhi⟩
    have hlo : 9 ≤ b.toNat := hlo
    have hhi : b.toNat ≤ 13 := hhi
    simp only [← UInt8.toNat_inj, UInt8.reduceToNat]
    omega
  rcases hb with rfl | rfl | rfl | rfl | rfl | rfl <;> rfl

/-- What Go takes, and C to the end, is a number. -/
theorem number_of_both {s : Bytes} {n : Int} (hne : s ≠ [])
    (hgo : parseIntBase 64 s = some n) (hc : numberEnd s = []) : Number s := by
  have hnumber := (numberEnd_eq_nil_iff hne).mp hc
  cases s with
  | nil => exact absurd rfl hne
  | cons b s =>
      by_cases hspace : isSpace b = true
      · rw [parseIntBase_space hspace] at hgo
        cases hgo
      · rwa [List.dropWhile_cons_of_neg hspace] at hnumber

theorem strtol_number {s : Bytes} (h : Number s) :
    strtol s = if (signed s).1 then max (-(digitsValue 0 (signed s).2 : Int)) (-2 ^ 63)
      else min (digitsValue 0 (signed s).2 : Int) (2 ^ 63 - 1) := by
  rw [strtol, leading_eq h.1 h.2]

theorem dvd_sub_int32 (x : Int) : (2 ^ 32 : Int) ∣ x - int32 x := by
  rw [int32, BitVec.toInt_ofInt]
  exact Int.dvd_self_sub_bmod

/-- A number that is read as the same one of 64 bits is cut to 32. -/
theorem int_clamp_eq_iff {neg : Bool} {v : Nat} (h : v < if neg then 2 ^ 63 + 1 else 2 ^ 63) :
    (if neg then -(v : Int) else v)
        = int32 (if neg then max (-(v : Int)) (-2 ^ 63) else min (v : Int) (2 ^ 63 - 1))
      ↔ v < if neg then 2 ^ 31 + 1 else 2 ^ 31 := by
  have hclamp : (if neg then max (-(v : Int)) (-2 ^ 63) else min (v : Int) (2 ^ 63 - 1))
      = if neg then -(v : Int) else v := by
    split at h <;> split <;> omega
  rw [hclamp]
  have hbounds := int32_bounds (if neg then -(v : Int) else v)
  constructor
  · intro heq
    rw [← heq] at hbounds
    split at hbounds <;> split <;> omega
  · intro hlt
    refine (int32_eq ?_ ?_).symm
    · split at hlt <;> split <;> omega
    · split at hlt <;> split <;> omega

theorem lt_eight_of_octal {neg : Bool} {v : Nat}
    (h : (if neg then -(v : Int) else v) = int32 (if neg then max (-(decimalOfOctal v : Int)) (-2 ^ 63)
      else min (decimalOfOctal v : Int) (2 ^ 63 - 1))) : v < 8 := by
  have hbounds := int32_bounds (if neg then max (-(decimalOfOctal v : Int)) (-2 ^ 63)
    else min (decimalOfOctal v : Int) (2 ^ 63 - 1))
  have hdvd := dvd_sub_int32 (if neg then max (-(decimalOfOctal v : Int)) (-2 ^ 63)
    else min (decimalOfOctal v : Int) (2 ^ 63 - 1))
  rw [← h] at hbounds hdvd
  have hv : v ≤ 2 ^ 31 := by
    split at hbounds <;> omega
  have hsmall := decimalOfOctal_le hv
  have heval : decimalOfOctal (2 ^ 31) = 20000000000 := by norm_num [decimalOfOctal, Nat.ofDigits]
  have hle := le_decimalOfOctal v
  rw [heval] at hsmall
  refine small_of_dvd hv ?_
  cases neg with
  | false =>
      simp only [Bool.false_eq_true, if_false] at hdvd
      omega
  | true =>
      simp only [if_true] at hdvd
      omega

/-- Go and C read a number as the same `int` exactly when it is small. -/
theorem int_strtol_eq_iff {s : Bytes} {n : Int} (hnumber : Number s)
    (hgo : parseIntBase 64 s = some n) : n = int32 (strtol s) ↔ IsSmall s := by
  obtain ⟨v, hv, rfl, hfits⟩ := parseIntBase_some hgo
  have hvalue := parseUintBase_digits hnumber.2 hv
  rw [strtol_number hnumber, IsSmall]
  generalize signed s = t at hfits hvalue ⊢
  obtain ⟨neg, ds⟩ := t
  simp only [] at hfits hvalue ⊢
  generalize digitsValue 0 ds = d at hvalue ⊢
  by_cases hzero : ds.head? = some 48
  · rw [if_pos hzero] at hvalue
    subst hvalue
    rw [imp_iff_right hzero]
    constructor
    · intro h
      have hsmall := lt_eight_of_octal h
      rw [decimalOfOctal_small hsmall]
      exact ⟨by split <;> omega, hsmall⟩
    · rintro ⟨-, hlt⟩
      have hv := le_decimalOfOctal v
      rw [decimalOfOctal_small (by omega)] at hlt ⊢
      exact (int_clamp_eq_iff (by split <;> omega)).mpr (by split <;> omega)
  · rw [if_neg hzero] at hvalue
    subst hvalue
    rw [and_iff_left (fun h => absurd h hzero)]
    exact int_clamp_eq_iff hfits

end Libc

end Tracep
