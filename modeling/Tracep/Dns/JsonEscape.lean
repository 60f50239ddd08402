import Tracep.Lib.Escaping
import Tracep.Lib.Json

/-!
# Names in JSON

The C port prints JSON with `fprintf`, and names and answers come from the
wire with any bytes in them. `json_escape` writes one to a buffer as what may
stand between quotes, and stops eight bytes before the end of the buffer, so
a long one is cut, but never inside an escape (`jsonEscape_eq`). What is
written is read back as a beginning of the text (`jsonEscape_reads`).
-/

namespace Tracep.Dns.C

open Exec

/-! ## The code -/

/-- `"\\u%04x"`. -/
def unicodeEscape (c : UInt8) : Bytes := 92 :: 117 :: lowerPad 4 c.toNat

/-- The loop over the rest of the text, with `w` bytes written. The quote is 34 and the backslash
92. -/
def escapeLoop (cap : Nat) (o : Bytes) (w : Nat) : Bytes → Exec (Bytes × Nat)
  | [] => return (o, w)
  | c :: rest =>
      if (w : Int) < cap - 8 then do
        if c = 34 ∨ c = 92 then
          let o ← store o w 92
          let o ← store o (w + 1) c
          escapeLoop cap o (w + 2) rest
        else if c < 0x20 then
          let o ← snprintfAt o w (cap - w) (unicodeEscape c)
          escapeLoop cap o (w + (unicodeEscape c).length) rest
        else escapeLoop cap (← store o w c) (w + 1) rest
      else return (o, w)

/-- `json_escape`. -/
def jsonEscape (s o : Bytes) (cap : Nat) : Exec Bytes := do
  let (o, w) ← escapeLoop cap o 0 (cstr s)
  store o w 0

/-! ## What is written -/

/-- What a byte becomes between quotes. -/
def jsonByte (c : UInt8) : Bytes :=
  if c = 34 ∨ c = 92 then [92, c] else if c < 0x20 then unicodeEscape c else [c]

/-- The escaped form of a text, however long. -/
def jsonText (s : Bytes) : Bytes := s.flatMap jsonByte

variable {s t r rest o : Bytes} {c : UInt8} {cap w : Nat}

theorem toNat_lt_pow (c : UInt8) : c.toNat < 16 ^ 4 := by
  have := c.toNat_lt
  omega

theorem length_unicodeEscape (c : UInt8) : (unicodeEscape c).length = 6 := by
  rw [unicodeEscape, List.length_cons, List.length_cons,
    length_lowerPad (by decide) (toNat_lt_pow c)]

/-- The three widths. -/
theorem length_jsonByte (c : UInt8) :
    (jsonByte c).length = 2 ∨ (jsonByte c).length = 6 ∨ (jsonByte c).length = 1 := by
  unfold jsonByte
  split_ifs
  · exact Or.inl rfl
  · exact Or.inr (Or.inl (length_unicodeEscape c))
  · exact Or.inr (Or.inr rfl)

theorem jsonByte_pos (c : UInt8) : 0 < (jsonByte c).length := by
  have := length_jsonByte c
  omega

theorem jsonByte_wide (c : UInt8) : (jsonByte c).length ≤ 6 := by
  have := length_jsonByte c
  omega

/-- One turn of the loop writes what the byte becomes, and `snprintf` a NUL after it. -/
theorem escapeLoop_turn (c : UInt8) (rest : Bytes) (hw : t.length < cap - 8)
    (hroom : cap - 8 + 6 < t.length + r.length) :
    ∃ r', Escaping.Left r (jsonByte c).length r' ∧
      escapeLoop cap (t ++ r) t.length (c :: rest) =
        escapeLoop cap (t ++ jsonByte c ++ r') (t.length + (jsonByte c).length) rest := by
  have hguard : (t.length : Int) < cap - 8 := by omega
  rw [escapeLoop, if_pos hguard]
  by_cases hquote : c = 34 ∨ c = 92
  · have hbyte : jsonByte c = [92, c] := if_pos hquote
    have hone : (t ++ [92]).length = t.length + 1 := List.length_append
    rw [hbyte]
    refine ⟨r.drop 2, Escaping.left_drop (by simp only [List.length_cons, List.length_nil]; omega),
      ?_⟩
    rw [if_pos hquote, store_append rfl (by omega), pure_bind,
      store_append (by rw [hone]; rfl) (by rw [List.length_drop]; omega), pure_bind, List.drop_drop,
      List.append_assoc t]
    rfl
  by_cases hcontrol : c < 0x20
  · have hbyte : jsonByte c = unicodeEscape c := by rw [jsonByte, if_neg hquote, if_pos hcontrol]
    have hsix := length_unicodeEscape c
    rw [hbyte]
    refine ⟨0 :: r.drop ((unicodeEscape c).length + 1), ⟨?_, rfl⟩, ?_⟩
    · rw [List.length_cons, List.length_drop]
      omega
    · rw [if_neg hquote, if_pos hcontrol, snprintfAt_append (by omega) (by omega), pure_bind]
  · have hbyte : jsonByte c = [c] := by rw [jsonByte, if_neg hquote, if_neg hcontrol]
    rw [hbyte]
    refine ⟨r.drop 1, Escaping.left_drop (by rw [List.length_singleton]; omega), ?_⟩
    rw [if_neg hquote, if_neg hcontrol, store_append rfl (by omega), pure_bind]
    rfl

/-- What `json_escape` writes. -/
def jsonWritten (cap : Nat) (s : Bytes) : Bytes := Escaping.body jsonByte (cap - 8) 0 s

theorem length_jsonWritten (hcap : 9 ≤ cap) (s : Bytes) : (jsonWritten cap s).length < cap - 2 := by
  have hlen : 0 + (jsonWritten cap s).length < cap - 8 + 6 :=
    Escaping.length_body_lt jsonByte_wide s (by omega)
  omega

/-- Nothing but the text and its NUL is written. -/
theorem jsonEscape_eq (hs : 0 ∉ s) (hcap : 9 ≤ cap) (ho : cap ≤ o.length) :
    jsonEscape s o cap =
      pure (jsonWritten cap s ++ 0 :: o.drop ((jsonWritten cap s).length + 1)) := by
  have hstop : ∀ b w c rest, cap - 8 ≤ w → escapeLoop cap b w (c :: rest) = pure (b, w) := by
    intro b w c rest hw
    rw [escapeLoop, if_neg (by omega)]
  have hlen := length_jsonWritten hcap s
  obtain ⟨r, ⟨hleft, hdrop⟩, hloop⟩ := Escaping.loop_eq (escapeLoop cap) (t := []) (r := o)
    (fun _ _ => rfl) hstop escapeLoop_turn jsonByte_wide s
    (by rw [List.length_nil]; omega) (by rw [List.length_nil]; omega)
  have hbody : Escaping.body jsonByte (cap - 8) 0 s = jsonWritten cap s := rfl
  simp only [List.length_nil, List.nil_append, Nat.zero_add, hbody] at hleft hdrop hloop
  rw [jsonEscape, cstr_of_noNul hs, hloop, pure_bind]
  refine (store_append rfl (by omega)).trans ?_
  rw [hdrop, List.append_assoc]
  rfl

/-! ## What is read -/

theorem longEscape_unicode (hc : c < 0x20) : Json.longEscape (lowerPad 4 c.toNat) = some [c] := by
  have hlt : c.toNat < 32 := hc
  have hnum := hexNumber_lowerPad (k := 4) (by decide) (toNat_lt_pow c)
  have hall : (lowerPad 4 c.toNat).all isHex = true :=
    List.all_eq_true.mpr fun b hb => isHex_of_mem_lowerPad (by decide) (toNat_lt_pow c) hb
  have hvalid : c.toNat.isValidChar := Or.inl (by omega)
  rw [Json.longEscape, hnum, if_pos ⟨hall, hvalid⟩, Utf8.encodeRune_byte (by omega)]

theorem unescape_jsonByte (c : UInt8) (s : Bytes) :
    Json.unescape (jsonByte c ++ s) = (Json.unescape s).map (c :: ·) := by
  unfold jsonByte
  split_ifs with hquote hcontrol
  · refine Json.unescape_short ?_
    rw [Json.shortEscape, if_pos (by tauto)]
  · obtain ⟨d0, d1, d2, d3, hdigits⟩ := List.length_eq_four.mp
      (length_lowerPad (k := 4) (by decide) (toNat_lt_pow c))
    have hlong := longEscape_unicode hcontrol
    rw [hdigits] at hlong
    rw [unicodeEscape, hdigits]
    exact Json.unescape_long hlong
  · exact Json.unescape_plain (by tauto)

/-- Taking the escapes off gives the text back. -/
theorem unescape_jsonText (s : Bytes) : Json.unescape (jsonText s) = some s := by
  induction s with
  | nil => rfl
  | cons c s ih =>
      rw [jsonText, List.flatMap_cons, unescape_jsonByte, ← jsonText, ih]
      rfl

/-- A string has no NUL. -/
theorem noNul_jsonWritten (cap : Nat) (s : Bytes) : 0 ∉ jsonWritten cap s := fun hmem =>
  absurd ((Json.chars_of_unescape (unescape_jsonText _)).le 0 hmem) (by decide)

/-- `json_escape` writes what may stand between the quotes of a JSON string, with a NUL, to the
first `cap` bytes of the buffer. It is read as a beginning of the text, and as the text itself if
its escaped form is not too long. -/
theorem jsonEscape_reads (hs : 0 ∉ s) (hcap : 9 ≤ cap) (ho : cap ≤ o.length) :
    ∃ o', (jsonEscape s o cap).Returns o' ∧ o'.length = o.length ∧ o'.drop cap = o.drop cap
      ∧ (cstr o').length < cap ∧ Json.Chars (cstr o') ∧ (∀ b ∈ cstr o', 32 ≤ b)
      ∧ ∃ t, Json.unescape (cstr o') = some t ∧ t <+: s
        ∧ ((jsonText s).length ≤ cap - 8 → t = s) := by
  have hlen := length_jsonWritten hcap s
  have htext : cstr (jsonWritten cap s ++ 0 :: o.drop ((jsonWritten cap s).length + 1)) =
      jsonWritten cap s := by
    rw [cstr_append_nul, cstr_of_noNul (noNul_jsonWritten cap s)]
  have hread : Json.unescape (jsonWritten cap s) = some (Escaping.kept jsonByte (cap - 8) 0 s) :=
    unescape_jsonText _
  have hchars := Json.chars_of_unescape hread
  refine ⟨_, by rw [jsonEscape_eq hs hcap ho]; exact returns_pure.mpr rfl, ?_, ?_, ?_, ?_, ?_, ?_⟩
  · rw [List.length_append, List.length_cons, List.length_drop]
    omega
  · have hnul : (jsonWritten cap s ++ [0]).length = (jsonWritten cap s).length + 1 :=
      List.length_append
    have hall : (jsonWritten cap s).length + 1 + (cap - ((jsonWritten cap s).length + 1)) = cap := by
      omega
    rw [← List.singleton_append, ← List.append_assoc, List.drop_append, hnul,
      List.drop_eq_nil_of_le (by omega), List.nil_append, List.drop_drop, hall]
  · rw [htext]
    omega
  · rw [htext]
    exact hchars
  · rw [htext]
    exact hchars.le
  · rw [htext]
    exact ⟨_, hread, Escaping.kept_begins jsonByte (cap - 8) 0 s, fun hfits =>
      Escaping.kept_eq jsonByte_pos (by rw [Nat.zero_add]; exact hfits)⟩

/-- A quote and a control character. -/
theorem jsonEscape_reads_quote : ∃ o', (jsonEscape [97, 34, 1] (List.replicate 20 7) 20).Returns o'
    ∧ o'.length = (List.replicate 20 (7 : UInt8)).length
    ∧ o'.drop 20 = (List.replicate 20 (7 : UInt8)).drop 20
    ∧ (cstr o').length < 20 ∧ Json.Chars (cstr o') ∧ (∀ b ∈ cstr o', 32 ≤ b)
    ∧ ∃ t, Json.unescape (cstr o') = some t ∧ t <+: [97, 34, 1]
      ∧ ((jsonText [97, 34, 1]).length ≤ 20 - 8 → t = [97, 34, 1]) :=
  jsonEscape_reads (by decide) (by decide) (le_refl 20)

end Tracep.Dns.C
