import Tracep.Lib.Bytes

/-!
# Texts read by runes

A text of bytes is read rune by rune: where a character begins in UTF-8 it is
the rune, and the next one begins after its bytes; a byte where none begins
counts as the replacement character, and the next rune begins after that
byte. Written out again the runes give the text back if it is valid, and
more bytes than it has if it is not (`replaced_eq_or_longer`).

Proofs about the runes of a text go by `runes_induction`, one case for each
way the first rune is found.
-/

namespace Tracep.Utf8

abbrev encodeRune (c : Char) : Bytes := String.utf8EncodeChar c

/-- The character whose bytes the text begins with. -/
def decodeRune (s : Bytes) : Option Char := s.toByteArray.utf8DecodeChar? 0

def runeError : Char := '\ufffd'

/-- The runes of a text, after so many bytes of a rune that has been read. -/
def runesAfter : Nat → Bytes → List Char
  | _, [] => []
  | k + 1, _ :: s => runesAfter k s
  | 0, b :: s =>
      match decodeRune (b :: s) with
      | some c => c :: runesAfter (c.utf8Size - 1) s
      | none => runeError :: runesAfter 0 s

def runes (s : Bytes) : List Char := runesAfter 0 s

def encode (cs : List Char) : Bytes := cs.flatMap encodeRune

/-- A text is valid if it is what its runes are written as. -/
def Valid (s : Bytes) : Prop := encode (runes s) = s

instance decidableValid (s : Bytes) : Decidable (Valid s) :=
  inferInstanceAs (Decidable (encode (runes s) = s))

variable {s t : Bytes} {b : UInt8} {c : Char} {cs : List Char}

/-! ## One rune -/

theorem encodeRune_ne_nil (c : Char) : encodeRune c ≠ [] := String.utf8EncodeChar_ne_nil

@[simp] theorem decodeRune_encode (c : Char) (s : Bytes) : decodeRune (encodeRune c ++ s) = some c := by
  rw [decodeRune, List.toByteArray_append]
  exact ByteArray.utf8DecodeChar?_utf8EncodeChar_append

theorem decodeRune_eq_some (h : decodeRune s = some c) : ∃ t, s = encodeRune c ++ t := by
  obtain ⟨l, hl⟩ := ByteArray.exists_of_utf8DecodeChar?_eq_some h
  refine ⟨l.data.toList, List.toByteArray_inj.mp ?_⟩
  rw [hl, List.toByteArray_append]
  congr 1
  exact ByteArray.ext (by simp [List.data_toByteArray])

theorem encodeRune_ascii (h : c.val ≤ 127) : encodeRune c = [c.val.toUInt8] :=
  String.utf8EncodeChar_eq_singleton (Char.utf8Size_eq_one_iff.mpr h)

theorem toNat_val_ofNat {n : Nat} (h : n < 256) : (Char.ofNat n).val.toNat = n := by
  have hvalid : n.isValidChar := Or.inl (by omega)
  rw [Char.ofNat, dif_pos hvalid]
  rfl

theorem encodeRune_byte (h : b.toNat < 128) : encodeRune (Char.ofNat b.toNat) = [b] := by
  have hval := toNat_val_ofNat b.toNat_lt
  rw [encodeRune_ascii (UInt32.le_iff_toNat_le.mpr (hval.le.trans (Nat.le_of_lt_succ h)))]
  congr 1
  refine UInt8.toNat.inj ?_
  rw [UInt32.toNat_toUInt8, hval]
  omega

theorem le_or {k : Nat} {x y : UInt8} (h : k ≤ y.toNat) : k ≤ (x ||| y).toNat := by
  rw [UInt8.toNat_or]
  exact h.trans Nat.right_le_or

/-- No byte of a character of several bytes is ASCII. -/
theorem le_of_mem_encodeRune (h : ¬c.val ≤ 127) (hb : b ∈ encodeRune c) : 128 ≤ b.toNat := by
  rcases c.utf8Size_eq with hsize | hsize | hsize | hsize
  · exact absurd (Char.utf8Size_eq_one_iff.mp hsize) h
  · rw [encodeRune, String.utf8EncodeChar_eq_cons_cons hsize] at hb
    simp only [List.mem_cons, List.not_mem_nil, or_false] at hb
    rcases hb with rfl | rfl <;> exact le_or (by decide)
  · rw [encodeRune, String.utf8EncodeChar_eq_cons_cons_cons hsize] at hb
    simp only [List.mem_cons, List.not_mem_nil, or_false] at hb
    rcases hb with rfl | rfl | rfl <;> exact le_or (by decide)
  · rw [encodeRune, String.utf8EncodeChar_eq_cons_cons_cons_cons hsize] at hb
    simp only [List.mem_cons, List.not_mem_nil, or_false] at hb
    rcases hb with rfl | rfl | rfl | rfl <;> exact le_or (by decide)

theorem decodeRune_ascii (h : b.toNat < 128) : decodeRune (b :: s) = some (Char.ofNat b.toNat) := by
  rw [← List.singleton_append, ← encodeRune_byte h, decodeRune_encode]

/-! ## All runes -/

theorem runesAfter_eq (k : Nat) (s : Bytes) : runesAfter k s = runes (s.drop k) := by
  induction s generalizing k with
  | nil => cases k <;> rfl
  | cons b s ih =>
      cases k with
      | zero => rfl
      | succ k => exact ih k

@[simp] theorem runes_nil : runes [] = [] := rfl

@[simp] theorem runes_encode (c : Char) (s : Bytes) : runes (encodeRune c ++ s) = c :: runes s := by
  have hdecode := decodeRune_encode c s
  have hlen : (encodeRune c).length = c.utf8Size := String.length_utf8EncodeChar c
  cases hbytes : encodeRune c with
  | nil => exact absurd hbytes (encodeRune_ne_nil c)
  | cons b t =>
      rw [hbytes] at hdecode hlen
      have hsize : c.utf8Size - 1 = t.length := by rw [← hlen, List.length_cons, Nat.add_sub_cancel]
      rw [List.cons_append] at hdecode ⊢
      rw [runes, runesAfter, hdecode]
      simp only [runesAfter_eq, hsize, List.drop_left]

theorem runes_error (h : decodeRune (b :: s) = none) : runes (b :: s) = runeError :: runes s := by
  rw [runes, runesAfter, h]
  rfl

theorem runes_ascii (h : b.toNat < 128) : runes (b :: s) = Char.ofNat b.toNat :: runes s := by
  rw [← List.singleton_append, ← encodeRune_byte h, runes_encode]

/-- A byte that is not ASCII begins no rune that is. -/
theorem runes_not_ascii (h : 128 ≤ b.toNat) (s : Bytes) :
    ∃ c cs, runes (b :: s) = c :: cs ∧ 128 ≤ c.toNat := by
  cases hdecode : decodeRune (b :: s) with
  | none => exact ⟨runeError, runes s, runes_error hdecode, by decide⟩
  | some c =>
      obtain ⟨t, ht⟩ := decodeRune_eq_some hdecode
      refine ⟨c, runes t, by rw [ht, runes_encode], ?_⟩
      by_contra hlow
      have hval : c.toNat < 128 := Nat.not_le.mp hlow
      have hascii : c.val ≤ 127 := UInt32.le_iff_toNat_le.mpr (Nat.le_of_lt_succ hval)
      rw [encodeRune_ascii hascii] at ht
      have hb : b.toNat = c.toNat % 256 := by
        rw [(List.cons.inj ht).1, UInt32.toNat_toUInt8]
        rfl
      omega

/-- Induction over a text by its runes. -/
theorem runes_induction {P : Bytes → Prop} (nil : P [])
    (char : ∀ c s, P s → P (encodeRune c ++ s))
    (error : ∀ b s, decodeRune (b :: s) = none → P s → P (b :: s)) (s : Bytes) : P s := by
  generalize hn : s.length = n
  induction n using Nat.strong_induction_on generalizing s with
  | h n ih =>
      cases s with
      | nil => exact nil
      | cons b s =>
          rw [List.length_cons] at hn
          cases hdecode : decodeRune (b :: s) with
          | none => exact error b s hdecode (ih s.length (by omega) s rfl)
          | some c =>
              obtain ⟨t, ht⟩ := decodeRune_eq_some hdecode
              have hpos := List.length_pos_of_ne_nil (encodeRune_ne_nil c)
              have hlen := congrArg List.length ht
              rw [List.length_cons, List.length_append] at hlen
              rw [ht]
              exact char c t (ih t.length (by omega) t rfl)

/-- A text has no more runes than bytes. -/
theorem length_runes_le (s : Bytes) : (runes s).length ≤ s.length := by
  induction s using runes_induction with
  | nil => exact Nat.le_refl 0
  | char c s ih =>
      have hpos := List.length_pos_of_ne_nil (encodeRune_ne_nil c)
      rw [runes_encode, List.length_cons, List.length_append]
      omega
  | error b s hdecode ih =>
      rw [runes_error hdecode, List.length_cons, List.length_cons]
      omega

def Ascii (s : Bytes) : Prop := ∀ b ∈ s, b.toNat < 128

instance decidableAscii (s : Bytes) : Decidable (Ascii s) := List.decidableBAll _ s

theorem ascii_append {t : Bytes} (hs : Ascii s) (ht : Ascii t) : Ascii (s ++ t) :=
  List.forall_mem_append.mpr ⟨hs, ht⟩

theorem length_runes_of_ascii (h : Ascii s) : (runes s).length = s.length := by
  induction s with
  | nil => rfl
  | cons b s ih =>
      obtain ⟨hb, hs⟩ := List.forall_mem_cons.mp h
      rw [runes_ascii hb, List.length_cons, List.length_cons, ih hs]

/-! ## Valid texts -/

theorem encode_cons (c : Char) (cs : List Char) : encode (c :: cs) = encodeRune c ++ encode cs :=
  List.flatMap_cons

@[simp] theorem runes_encode_list (cs : List Char) : runes (encode cs) = cs := by
  induction cs with
  | nil => rfl
  | cons c cs ih => rw [encode_cons, runes_encode, ih]

/-- What characters are written as is valid. -/
theorem valid_encode (cs : List Char) : Valid (encode cs) := by
  rw [Valid, runes_encode_list]

/-- The runes of a text, written out again, are the text or longer. -/
theorem replaced_eq_or_longer (s : Bytes) : Valid s ∨ s.length < (encode (runes s)).length := by
  unfold Valid
  induction s using runes_induction with
  | nil => exact Or.inl rfl
  | char c s ih =>
      rw [runes_encode, encode_cons, List.length_append, List.length_append]
      rcases ih with h | h
      · exact Or.inl (by rw [h])
      · exact Or.inr (Nat.add_lt_add_left h _)
  | error b s hdecode ih =>
      have hthree : (encodeRune runeError).length = 3 := rfl
      rw [runes_error hdecode, encode_cons, List.length_append, hthree, List.length_cons]
      rcases ih with h | h
      · exact Or.inr (by rw [h]; omega)
      · exact Or.inr (by omega)

end Tracep.Utf8
