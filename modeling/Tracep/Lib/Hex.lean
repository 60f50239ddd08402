import Mathlib.Data.Nat.Log
import Tracep.Lib.Decimal

/-!
# Hexadecimal numbers as text

The digits that `%08X` and `%04x` and their like print, and what Go's
`strconv.ParseUint` and `hex.DecodeString` and C's `strtoul` make of a text
in base 16. All of them read a printed number back (`parseHex_hexDigits`,
`strtoulHex_hexDigits`).
-/

namespace Tracep

/-- An upper-case digit. -/
def hexDigit (n : Nat) : UInt8 := UInt8.ofNat (if n < 10 then 48 + n else 55 + n)

/-- The last `k` digits of a number. -/
def hexDigits : Nat → Nat → Bytes
  | 0, _ => []
  | k + 1, n => hexDigits k (n / 16) ++ [hexDigit (n % 16)]

/-- A number with leading zeros up to `w` digits. -/
def hexPad (w n : Nat) : Bytes := hexDigits (max w (Nat.log 16 n + 1)) n

/-- A digit in lower case. -/
def lowerHex (b : UInt8) : UInt8 := if 65 ≤ b then b + 32 else b

/-- The number with lower-case digits, as `%04x` and its like print it. -/
def lowerPad (w n : Nat) : Bytes := (hexPad w n).map lowerHex

/-- Bytes of two digits each. -/
def hexBytes (bs : Bytes) : Bytes := bs.flatMap fun b => hexDigits 2 b.toNat

/-- The value of a digit of either case. -/
def hexValue (b : UInt8) : Option Nat :=
  if 48 ≤ b ∧ b ≤ 57 then some (b.toNat - 48)
  else if 65 ≤ b ∧ b ≤ 70 then some (b.toNat - 55)
  else if 97 ≤ b ∧ b ≤ 102 then some (b.toNat - 87)
  else none

def isHex (b : UInt8) : Bool := (hexValue b).isSome

/-- The value of the digits, after that of the digits before. -/
def hexNumber (n : Nat) (s : Bytes) : Nat := s.foldl (fun n b => n * 16 + (hexValue b).getD 0) n

/-! ## Go -/

namespace Strconv

/-- What is returned, with or without an error. -/
def Number.value (maxVal : Nat) : Number → Nat
  | .ok n => n
  | .invalid => 0
  | .range => maxVal

/-- Read digits up to the end, or up to where the number is too large. -/
def readHex (maxVal : Nat) : Nat → Bytes → Number
  | n, [] => .ok n
  | n, b :: s =>
      match hexValue b with
      | none => .invalid
      | some d => if maxVal < n * 16 + d then .range else readHex maxVal (n * 16 + d) s

/-- `ParseUint` in base 16. -/
def parseHex (maxVal : Nat) (s : Bytes) : Number :=
  if s = [] then .invalid else readHex maxVal 0 s

end Strconv

/-- `hex.DecodeString`. -/
def decodeHex : Bytes → Option Bytes
  | [] => some []
  | [_] => none
  | a :: b :: s => do
      let hi ← hexValue a
      let lo ← hexValue b
      let rest ← decodeHex s
      return UInt8.ofNat (hi * 16 + lo) :: rest

/-! ## C -/

namespace Libc

open Strconv (signed)

/-- The text without `0x`, if a digit follows that. -/
def dropOx : Bytes → Bytes
  | 48 :: x :: b :: s => if (x = 120 ∨ x = 88) ∧ isHex b then b :: s else 48 :: x :: b :: s
  | s => s

/-- `strtoul` in base 16. -/
def strtoulHex (s : Bytes) : UInt64 :=
  let (neg, t) := signed (s.dropWhile isSpace)
  let n := hexNumber 0 ((dropOx t).takeWhile isHex)
  if 2 ^ 64 ≤ n then 18446744073709551615 else if neg then -(UInt64.ofNat n) else UInt64.ofNat n

/-- Where the number ends: at the beginning of the text if there is none. -/
def hexEnd (s : Bytes) : Bytes :=
  let t := dropOx (signed (s.dropWhile isSpace)).2
  if t.takeWhile isHex = [] then s else t.dropWhile isHex

end Libc

/-! ## Printed numbers -/

section Printed

variable {k n m : Nat} {b : UInt8} {s : Bytes}

theorem hexValue_hexDigit (h : n < 16) : hexValue (hexDigit n) = some n := by
  have hall : ∀ n : Fin 16, hexValue (hexDigit n) = some n.val := by decide
  exact hall ⟨n, h⟩

@[simp] theorem length_hexDigits (k n : Nat) : (hexDigits k n).length = k := by
  induction k generalizing n with
  | zero => rfl
  | succ k ih => rw [hexDigits, List.length_append, ih, List.length_singleton]

theorem hexDigits_ne_nil (h : 0 < k) : hexDigits k n ≠ [] := by
  intro hnil
  have hlen := length_hexDigits k n
  rw [hnil, List.length_nil] at hlen
  omega

theorem exists_of_mem_hexDigits (h : b ∈ hexDigits k n) : ∃ d < 16, b = hexDigit d := by
  induction k generalizing n with
  | zero => exact absurd h List.not_mem_nil
  | succ k ih =>
      rcases List.mem_append.mp h with h | h
      · exact ih h
      · exact ⟨n % 16, Nat.mod_lt _ (by decide), List.mem_singleton.mp h⟩

theorem isHex_of_mem_hexDigits (h : b ∈ hexDigits k n) : isHex b = true := by
  obtain ⟨d, hd, rfl⟩ := exists_of_mem_hexDigits h
  rw [isHex, hexValue_hexDigit hd]
  rfl

theorem hexNumber_hexDigits (h : n < 16 ^ k) (m : Nat) :
    hexNumber m (hexDigits k n) = m * 16 ^ k + n := by
  induction k generalizing n with
  | zero =>
      have hn : n = 0 := by simpa using h
      rw [hn]
      simp [hexDigits, hexNumber]
  | succ k ih =>
      have hdiv : n / 16 < 16 ^ k := Nat.div_lt_of_lt_mul (by rwa [Nat.pow_succ'] at h)
      have hlast : (hexValue (hexDigit (n % 16))).getD 0 = n % 16 := by
        rw [hexValue_hexDigit (Nat.mod_lt _ (by decide))]
        rfl
      have hrest := ih hdiv
      rw [hexNumber] at hrest
      rw [hexDigits, hexNumber, List.foldl_append, hrest, List.foldl_cons, List.foldl_nil, hlast,
        Nat.pow_succ, ← Nat.mul_assoc]
      omega

theorem hexDigits_injective (hn : n < 16 ^ k) (hm : m < 16 ^ k) (h : hexDigits k n = hexDigits k m) :
    n = m := by
  have hvalue := hexNumber_hexDigits hn 0
  rw [h, hexNumber_hexDigits hm 0] at hvalue
  omega

theorem hexPad_eq (hk : 0 < k) (h : n < 16 ^ k) : hexPad k n = hexDigits k n := by
  have hlog : Nat.log 16 n + 1 ≤ k := by
    rcases Nat.eq_zero_or_pos n with rfl | hn
    · rw [Nat.log_zero_right]
      exact hk
    · exact Nat.log_lt_of_lt_pow (Nat.pos_iff_ne_zero.mp hn) h
  rw [hexPad, Nat.max_eq_left hlog]

/-! ### In lower case -/

theorem hexValue_lowerHex (h : n < 16) : hexValue (lowerHex (hexDigit n)) = some n := by
  have hall : ∀ n : Fin 16, hexValue (lowerHex (hexDigit n)) = some n.val := by decide
  exact hall ⟨n, h⟩

theorem length_lowerPad (hk : 0 < k) (h : n < 16 ^ k) : (lowerPad k n).length = k := by
  rw [lowerPad, List.length_map, hexPad_eq hk h, length_hexDigits]

theorem isHex_of_mem_lowerPad (hk : 0 < k) (h : n < 16 ^ k) (hb : b ∈ lowerPad k n) :
    isHex b = true := by
  rw [lowerPad, hexPad_eq hk h] at hb
  obtain ⟨c, hc, rfl⟩ := List.mem_map.mp hb
  obtain ⟨d, hd, rfl⟩ := exists_of_mem_hexDigits hc
  rw [isHex, hexValue_lowerHex hd]
  rfl

/-- The number is read back whatever the case of its digits. -/
theorem hexNumber_lowerPad (hk : 0 < k) (h : n < 16 ^ k) : hexNumber 0 (lowerPad k n) = n := by
  have hsame : hexNumber 0 (lowerPad k n) = hexNumber 0 (hexDigits k n) := by
    rw [lowerPad, hexPad_eq hk h, hexNumber, hexNumber, List.foldl_map]
    refine List.foldl_ext _ _ _ fun m b hb => ?_
    obtain ⟨d, hd, rfl⟩ := exists_of_mem_hexDigits hb
    rw [hexValue_lowerHex hd, hexValue_hexDigit hd]
  rw [hsame, hexNumber_hexDigits h]
  omega

theorem isHex_iff : isHex b = true ↔ 48 ≤ b ∧ b ≤ 57 ∨ 65 ≤ b ∧ b ≤ 70 ∨ 97 ≤ b ∧ b ≤ 102 := by
  unfold isHex hexValue
  split
  · next h => exact iff_of_true rfl (Or.inl h)
  · next h =>
      split
      · next h' => exact iff_of_true rfl (Or.inr (Or.inl h'))
      · next h' =>
          split
          · next h'' => exact iff_of_true rfl (Or.inr (Or.inr h''))
          · next h'' => exact iff_of_false Bool.false_ne_true (by tauto)

theorem visible_of_isHex (h : isHex b = true) : 32 < b ∧ b < 127 := by
  rcases isHex_iff.mp h with ⟨hlo, hhi⟩ | ⟨hlo, hhi⟩ | ⟨hlo, hhi⟩ <;>
    exact ⟨UInt8.lt_of_lt_of_le (by decide) hlo, UInt8.lt_of_le_of_lt hhi (by decide)⟩

end Printed

theorem hexDigits_byte (k n : Nat) (b : UInt8) :
    hexDigits (k + 2) (n * 256 + b.toNat) = hexDigits k n ++ hexDigits 2 b.toNat := by
  have hb := b.toNat_lt
  have hlow : (n * 256 + b.toNat) % 16 = b.toNat % 16 := by omega
  have hhigh : (n * 256 + b.toNat) / 16 % 16 = b.toNat / 16 % 16 := by omega
  have hrest : (n * 256 + b.toNat) / 16 / 16 = n := by omega
  simp only [hexDigits, hlow, hhigh, hrest, List.nil_append, List.append_assoc]

/-- The digits of a little-endian word are those of its bytes from the last one on. -/
theorem hexDigits_le32 (b0 b1 b2 b3 : UInt8) :
    hexDigits 8 (le32 b0 b1 b2 b3).toNat = hexBytes [b3, b2, b1, b0] := by
  have hword : (le32 b0 b1 b2 b3).toNat
      = ((b3.toNat * 256 + b2.toNat) * 256 + b1.toNat) * 256 + b0.toNat := by
    rw [le32_toNat]
    omega
  rw [hword, hexDigits_byte, hexDigits_byte, hexDigits_byte]
  simp only [hexBytes, List.flatMap_cons, List.flatMap_nil, List.append_assoc, List.append_nil]

/-- The two digits of a byte. -/
theorem exists_hexDigits_two (b : UInt8) :
    ∃ hi < 16, ∃ lo < 16, hexDigits 2 b.toNat = [hexDigit hi, hexDigit lo]
      ∧ UInt8.ofNat (hi * 16 + lo) = b := by
  have hb := b.toNat_lt
  refine ⟨b.toNat / 16, by omega, b.toNat % 16, by omega, ?_, ?_⟩
  · rw [hexDigits, hexDigits, hexDigits, Nat.mod_eq_of_lt (a := b.toNat / 16) (by omega)]
    rfl
  · rw [Nat.div_add_mod' b.toNat 16, UInt8.ofNat_toNat]

theorem decodeHex_hexBytes (bs : Bytes) : decodeHex (hexBytes bs) = some bs := by
  induction bs with
  | nil => rfl
  | cons b bs ih =>
      obtain ⟨hi, hhi, lo, hlo, htwo, hbyte⟩ := exists_hexDigits_two b
      rw [hexBytes] at ih
      simp only [hexBytes, List.flatMap_cons, htwo, List.cons_append, List.nil_append, decodeHex,
        hexValue_hexDigit hhi, hexValue_hexDigit hlo, ih]
      change some (UInt8.ofNat (hi * 16 + lo) :: bs) = _
      rw [hbyte]

theorem length_hexBytes (bs : Bytes) : (hexBytes bs).length = 2 * bs.length := by
  induction bs with
  | nil => rfl
  | cons b bs ih =>
      rw [hexBytes] at ih
      rw [hexBytes, List.flatMap_cons, List.length_append, length_hexDigits, ih, List.length_cons]
      omega

/-! ## Reading a number back -/

namespace Strconv

variable {maxVal k n : Nat} {s : Bytes}

theorem le_hexNumber (n : Nat) (s : Bytes) : n ≤ hexNumber n s := by
  induction s generalizing n with
  | nil => exact Nat.le_refl n
  | cons b s ih =>
      have hstep : n ≤ n * 16 + (hexValue b).getD 0 := by omega
      exact hstep.trans (ih _)

theorem readHex_eq (hdigits : ∀ b ∈ s, isHex b) (hmax : hexNumber n s ≤ maxVal) :
    readHex maxVal n s = .ok (hexNumber n s) := by
  induction s generalizing n with
  | nil => rfl
  | cons b s ih =>
      obtain ⟨hb, hs⟩ := List.forall_mem_cons.mp hdigits
      obtain ⟨d, hd⟩ := Option.isSome_iff_exists.mp hb
      have hnumber : hexNumber n (b :: s) = hexNumber (n * 16 + d) s := by
        rw [hexNumber, List.foldl_cons, hd]
        rfl
      rw [hnumber] at hmax ⊢
      have hle : n * 16 + d ≤ maxVal := (le_hexNumber _ s).trans hmax
      simp only [readHex, hd, if_neg (Nat.not_lt.mpr hle)]
      exact ih hs hmax

theorem parseHex_hexDigits (hk : 0 < k) (hn : n < 16 ^ k) (hmax : n ≤ maxVal) :
    parseHex maxVal (hexDigits k n) = .ok n := by
  have hnumber : hexNumber 0 (hexDigits k n) = n := by
    rw [hexNumber_hexDigits hn, Nat.zero_mul, Nat.zero_add]
  rw [parseHex, if_neg (hexDigits_ne_nil hk), readHex_eq (fun b => isHex_of_mem_hexDigits), hnumber]
  rwa [hnumber]

end Strconv

namespace Libc

open Strconv (signed)

variable {k n : Nat} {s : Bytes}

theorem dropOx_eq (h : ∀ b ∈ s, isHex b) : dropOx s = s := by
  unfold dropOx
  split
  · next x b t =>
      obtain ⟨hx, -⟩ := List.forall_mem_cons.mp (List.forall_mem_cons.mp h).2
      refine if_neg ?_
      rintro ⟨rfl | rfl, -⟩
      · cases hx
      · cases hx
  · rfl

/-- A text of digits has nothing before the digits. -/
theorem digits_begin (h : ∀ b ∈ s, isHex b) :
    dropOx (signed (s.dropWhile isSpace)).2 = s ∧ (signed (s.dropWhile isSpace)).1 = false := by
  have hspace : s.dropWhile isSpace = s := by
    cases s with
    | nil => rfl
    | cons b s =>
        have hb := isSpace_of_visible (visible_of_isHex (h b List.mem_cons_self)).1
        exact List.dropWhile_cons_of_neg (by rw [hb]; exact Bool.false_ne_true)
  have hsign : signed s = (false, s) := by
    unfold signed
    split
    · cases h 43 List.mem_cons_self
    · cases h 45 List.mem_cons_self
    · rfl
  rw [hspace, hsign]
  exact ⟨dropOx_eq h, rfl⟩

theorem strtoulHex_hexDigits (hn : n < 16 ^ k) (h64 : n < 2 ^ 64) :
    strtoulHex (hexDigits k n) = UInt64.ofNat n := by
  obtain ⟨hdrop, hsign⟩ := digits_begin (s := hexDigits k n) fun b => isHex_of_mem_hexDigits
  have hall : (hexDigits k n).takeWhile isHex = hexDigits k n :=
    List.takeWhile_eq_self_iff.mpr fun b => isHex_of_mem_hexDigits
  have hnumber : hexNumber 0 (hexDigits k n) = n := by
    rw [hexNumber_hexDigits hn, Nat.zero_mul, Nat.zero_add]
  rw [strtoulHex]
  simp only [hdrop, hsign, hall, hnumber, if_neg (Nat.not_le.mpr h64), Bool.false_eq_true, if_false]

/-- All of a number is read. -/
theorem hexEnd_hexDigits (hk : 0 < k) : hexEnd (hexDigits k n) = [] := by
  obtain ⟨hdrop, -⟩ := digits_begin (s := hexDigits k n) fun b => isHex_of_mem_hexDigits
  have hdigits : ∀ b ∈ hexDigits k n, isHex b = true := fun b => isHex_of_mem_hexDigits
  have hall : (hexDigits k n).takeWhile isHex = hexDigits k n :=
    List.takeWhile_eq_self_iff.mpr hdigits
  rw [hexEnd]
  simp only [hdrop, hall, if_neg (hexDigits_ne_nil hk)]
  exact List.dropWhile_eq_nil_iff.mpr hdigits

end Libc

end Tracep
