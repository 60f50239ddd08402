import Tracep.Common.Shquote
import Tracep.Lib.Utf8

/-!
# Quoting in both ports

The Go tracers quote a text rune by rune into a text as long as it takes,
the C port byte by byte into a buffer of its pool. Whether a text needs
quotes comes out alike, since only ASCII decides it (`isSafe_eq`). A quoted
text differs when it is cut, or when it is not valid UTF-8: Go then writes
replacement characters where C writes the bytes (`written_eq_shQuote_iff`).
-/

namespace Tracep.Exectrace

open Exec Common Utf8

namespace Go

/-- The literal is the one of the C port. -/
def unsafeRunes : List Nat := unsafeBytes.map UInt8.toNat

def isSafe (s : Bytes) : Bool := (runes s).all fun c => ¬(c.toNat ≤ 32 ∨ c.toNat ∈ unsafeRunes)

def escapeRune (c : Char) : Bytes :=
  if c.toNat = 39 then quoteEscape else if c.toNat = 10 then newlineEscape else encodeRune c

/-- `shQuote`, of Linux and of macOS. -/
def shQuote (s : Bytes) : Bytes :=
  if s = [] then [39, 39]
  else if isSafe s then s
  else 39 :: (runes s).flatMap escapeRune ++ [39]

end Go

variable {s t : Bytes} {b : UInt8} {c : Char} {w : Nat}

/-! ## Rune by rune, byte by byte -/

theorem not_unsafe_of_le (h : 128 ≤ b.toNat) : ¬(b ≤ 32 ∨ b ∈ unsafeBytes) := by
  have hascii : unsafeBytes.all (·.toNat < 128) = true := rfl
  rintro (hle | hmem)
  · have := UInt8.le_iff_toNat_le.mp hle
    have h32 : (32 : UInt8).toNat = 32 := rfl
    omega
  · have := of_decide_eq_true (List.all_eq_true.mp hascii b hmem)
    omega

theorem mem_unsafeRunes : b.toNat ∈ Go.unsafeRunes ↔ b ∈ unsafeBytes := by
  rw [Go.unsafeRunes, List.mem_map]
  exact ⟨fun ⟨a, ha, heq⟩ => UInt8.toNat.inj heq ▸ ha, fun h => ⟨b, h, rfl⟩⟩

theorem not_unsafeRune_of_le {n : Nat} (h : 128 ≤ n) : ¬(n ≤ 32 ∨ n ∈ Go.unsafeRunes) := by
  have hascii : Go.unsafeRunes.all (· < 128) = true := rfl
  rintro (hle | hmem)
  · omega
  · have := of_decide_eq_true (List.all_eq_true.mp hascii n hmem)
    omega

/-- A character is one ASCII byte of the same value, or has no ASCII byte. -/
theorem encodeRune_cases (c : Char) : (∃ b : UInt8, encodeRune c = [b] ∧ b.toNat = c.toNat)
    ∨ (128 ≤ c.toNat ∧ ∀ b ∈ encodeRune c, 128 ≤ b.toNat) := by
  by_cases h : c.val ≤ 127
  · refine Or.inl ⟨_, encodeRune_ascii h, ?_⟩
    have hle : c.toNat ≤ 127 := UInt32.le_iff_toNat_le.mp h
    rw [UInt32.toNat_toUInt8]
    exact Nat.mod_eq_of_lt (by change c.toNat < _; omega)
  · refine Or.inr ⟨?_, fun b hb => le_of_mem_encodeRune h hb⟩
    rw [UInt32.le_iff_toNat_le] at h
    exact Nat.lt_of_not_le h

theorem isSafe_encodeRune (c : Char) :
    Common.isSafe (encodeRune c) = decide ¬(c.toNat ≤ 32 ∨ c.toNat ∈ Go.unsafeRunes) := by
  rcases encodeRune_cases c with ⟨b, hone, hval⟩ | ⟨hwide, hbytes⟩
  · have htest : (c.toNat ≤ 32 ∨ c.toNat ∈ Go.unsafeRunes) ↔ (b ≤ 32 ∨ b ∈ unsafeBytes) := by
      rw [← hval, mem_unsafeRunes, UInt8.le_iff_toNat_le]
      rfl
    rw [hone]
    simp only [htest]
    exact Bool.and_true _
  · rw [decide_eq_true (not_unsafeRune_of_le hwide), Common.isSafe, List.all_eq_true]
    exact fun b hb => decide_eq_true (not_unsafe_of_le (hbytes b hb))

theorem isSafe_append : Common.isSafe (s ++ t) = (Common.isSafe s && Common.isSafe t) :=
  List.all_append

/-- Both ports agree on what needs quotes. -/
theorem isSafe_eq (s : Bytes) : Go.isSafe s = Common.isSafe s := by
  unfold Go.isSafe
  induction s using runes_induction with
  | nil => rfl
  | char c s ih => rw [runes_encode, List.all_cons, isSafe_append, isSafe_encodeRune, ih]
  | error b s hdecode ih =>
      have hwide : 128 ≤ b.toNat := by
        by_contra hlt
        rw [decodeRune_ascii (Nat.lt_of_not_le hlt)] at hdecode
        cases hdecode
      have hbyte : Common.isSafe [b] = true :=
        List.all_eq_true.mpr fun a ha => by
          rw [List.mem_singleton.mp ha]
          exact decide_eq_true (not_unsafe_of_le hwide)
      rw [runes_error hdecode, List.all_cons, ih, ← List.singleton_append, isSafe_append, hbyte]
      rfl

theorem flatMap_escape_of_le (h : ∀ b ∈ s, 128 ≤ b.toNat) : s.flatMap escape = s := by
  induction s with
  | nil => rfl
  | cons b s ih =>
      obtain ⟨hb, hs⟩ := List.forall_mem_cons.mp h
      have h39 : b ≠ 39 := fun heq => by rw [heq] at hb; exact absurd hb (by decide)
      have h10 : b ≠ 10 := fun heq => by rw [heq] at hb; exact absurd hb (by decide)
      rw [List.flatMap_cons, ih hs, escape, if_neg h39, if_neg h10]
      rfl

theorem escapeRune_eq (c : Char) : Go.escapeRune c = (encodeRune c).flatMap escape := by
  unfold Go.escapeRune
  rcases encodeRune_cases c with ⟨b, hone, hval⟩ | ⟨hwide, hbytes⟩
  · have h39 : c.toNat = 39 ↔ b = 39 := by rw [← hval]; exact UInt8.toNat_inj (b := 39)
    have h10 : c.toNat = 10 ↔ b = 10 := by rw [← hval]; exact UInt8.toNat_inj (b := 10)
    rw [hone, List.flatMap_singleton, escape]
    simp only [h39, h10]
  · rw [if_neg (by omega), if_neg (by omega), flatMap_escape_of_le hbytes]

theorem flatMap_escapeRune (cs : List Char) :
    cs.flatMap Go.escapeRune = (encode cs).flatMap escape := by
  rw [encode, List.flatMap_assoc]
  exact List.flatMap_congr fun c _ => escapeRune_eq c

/-- What `shQuote` returns, in terms of the bytes. -/
theorem shQuote_eq (s : Bytes) : Go.shQuote s = if s = [] then [39, 39]
    else if Common.isSafe s then s else 39 :: (encode (runes s)).flatMap escape ++ [39] := by
  rw [Go.shQuote, isSafe_eq, flatMap_escapeRune]

/-- Of a valid text, `shQuote` is its quoted form. -/
theorem shQuote_valid (h : Valid s) : Go.shQuote s = quoted s := by
  rw [shQuote_eq, h, quoted]

/-! ## What is cut -/

/-- Nothing of the text is cut. -/
def Fits (s : Bytes) : Prop :=
  if Common.isSafe s then s.length ≤ poolSz - 1
  else 1 + (s.dropLast.flatMap escape).length < poolSz - 8

/-- The loop keeps all if it still goes on before the last byte. -/
theorem kept_eq_iff : kept w s = s ↔ s = [] ∨ w + (s.dropLast.flatMap escape).length < poolSz - 8 := by
  induction s generalizing w with
  | nil => exact ⟨fun _ => Or.inl rfl, fun _ => rfl⟩
  | cons c rest ih =>
      rw [kept]
      cases rest with
      | nil =>
          by_cases hroom : w < poolSz - 8
          · simp [kept, hroom]
          · simp [hroom]
      | cons d rest =>
          rw [List.dropLast_cons_cons, List.flatMap_cons, List.length_append, ← Nat.add_assoc]
          by_cases hroom : w < poolSz - 8
          · rw [if_pos hroom, List.cons.injEq, ih]
            simp
          · rw [if_neg hroom]
            simp only [List.nil_eq, reduceCtorEq, false_or, false_iff]
            omega

theorem flatMap_escape_inj (h : s.flatMap escape = t.flatMap escape) : s = t := by
  have hs := readWord_flatMap s
  rw [h, readWord_flatMap] at hs
  exact (Option.some.inj hs).symm

theorem fitted_eq_iff : fitted poolSz s = s ↔ s.length ≤ poolSz - 1 := List.take_eq_self_iff s

/-- The ports write the same exactly when nothing is cut, and nothing that is not valid UTF-8 is
quoted. -/
theorem written_eq_shQuote_iff (s : Bytes) :
    written s = Go.shQuote s ↔ Fits s ∧ (Common.isSafe s ∨ Valid s) := by
  rw [shQuote_eq, written, Fits]
  by_cases hnil : s = []
  · subst hnil
    exact ⟨fun _ => ⟨Nat.zero_le _, Or.inl rfl⟩, fun _ => rfl⟩
  by_cases hsafe : Common.isSafe s
  · simp only [if_neg hnil, hsafe, if_true, true_or, and_true]
    exact fitted_eq_iff
  simp only [if_neg hnil, if_neg hsafe, or_iff_right hsafe]
  have hbody : 39 :: (kept 1 s).flatMap escape ++ [39]
      = 39 :: (encode (runes s)).flatMap escape ++ [39] ↔ kept 1 s = encode (runes s) := by
    refine ⟨fun h => flatMap_escape_inj ?_, fun h => by rw [h]⟩
    exact List.append_cancel_right (List.cons.inj h).2
  rw [hbody]
  have hfits : kept 1 s = s ↔ 1 + (s.dropLast.flatMap escape).length < poolSz - 8 := by
    rw [kept_eq_iff]
    exact or_iff_right hnil
  rw [← hfits]
  constructor
  · intro heq
    -- what is not valid comes out longer than it is, what is kept does not
    have hvalid : Valid s := by
      refine (replaced_eq_or_longer s).resolve_right fun hlonger => ?_
      have := (kept_begins 1 s).length_le
      rw [heq] at this
      omega
    exact ⟨heq.trans hvalid, hvalid⟩
  · rintro ⟨hkept, hvalid⟩
    rw [hkept, hvalid]

/-- `shquote` and `shQuote` return the same exactly when nothing is cut, and nothing that is not
valid UTF-8 is quoted. -/
theorem shquote_matches_iff {b s : Bytes} (hb : b.length = poolSz) (hs : 0 ∉ s) :
    (∃ b', (shquoteInto b (some s)).Returns b' ∧ cstr b' = Go.shQuote s)
      ↔ Fits s ∧ (Common.isSafe s ∨ Valid s) := by
  obtain ⟨junk, hlen, hret⟩ := shquoteInto_returns hb s
  have htext : cstr (written s ++ 0 :: junk) = written s := by
    rw [cstr_append_nul, cstr_of_noNul (noNul_written hs)]
  rw [← written_eq_shQuote_iff, hret]
  constructor
  · rintro ⟨b', hb', heq⟩
    rwa [returns_pure.mp hb', htext] at heq
  · exact fun heq => ⟨_, returns_pure.mpr rfl, htext.trans heq⟩

theorem shquote_matches_space : (∃ b', (shquoteInto (List.replicate poolSz 0) (some [97, 32])).Returns b'
      ∧ cstr b' = Go.shQuote [97, 32])
    ↔ Fits [97, 32] ∧ (Common.isSafe [97, 32] ∨ Valid [97, 32]) :=
  shquote_matches_iff List.length_replicate (by decide)

/-- A blank and a byte that is not UTF-8. -/
theorem shquote_differs : ¬∃ b', (shquoteInto (List.replicate poolSz 0) (some [32, 255])).Returns b'
    ∧ cstr b' = Go.shQuote [32, 255] := by
  rintro ⟨b', hb', heq⟩
  obtain ⟨junk, -, hret⟩ := shquoteInto_returns (b := List.replicate poolSz 0)
    List.length_replicate [32, 255]
  rw [hret] at hb'
  rw [returns_pure.mp hb', cstr_append_nul, cstr_of_noNul (noNul_written (by decide)),
    written_eq_shQuote_iff] at heq
  exact absurd heq.2 (by decide)

end Tracep.Exectrace
