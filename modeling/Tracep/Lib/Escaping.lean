import Tracep.Lib.CBuffer
import Mathlib.Data.List.Infix

/-!
# Escaping into a buffer

A loop that writes an escaped text to a buffer, byte after byte, and goes on
only while it has written less than some limit. As no escape is longer than
what the limit leaves free, the loop stays inside of the buffer and never
stops in the middle of an escape: what it has written is the escaped form of
a beginning of the text (`kept`), whatever its turns do (`loop_eq`).
-/

namespace Tracep.Escaping

section Kept

variable (enc : UInt8 → Bytes) (limit : Nat)

/-- How far the loop comes after `w` bytes. -/
def kept (w : Nat) : Bytes → Bytes
  | [] => []
  | c :: rest => if w < limit then c :: kept (w + (enc c).length) rest else []

/-- What the loop writes after `w` bytes. -/
def body (w : Nat) (s : Bytes) : Bytes := (kept enc limit w s).flatMap enc

end Kept

variable {enc : UInt8 → Bytes} {limit n w : Nat} {s t r : Bytes}

theorem kept_begins (enc : UInt8 → Bytes) (limit w : Nat) (s : Bytes) :
    kept enc limit w s <+: s := by
  induction s generalizing w with
  | nil => exact List.prefix_refl []
  | cons c rest ih =>
      rw [kept]
      split
      · exact List.cons_prefix_cons.mpr ⟨rfl, ih _⟩
      · exact List.nil_prefix

/-- Everything is kept that ends where the loop would still go on. -/
theorem kept_eq (hpos : ∀ c, 0 < (enc c).length) (h : w + (s.flatMap enc).length ≤ limit) :
    kept enc limit w s = s := by
  induction s generalizing w with
  | nil => rfl
  | cons c rest ih =>
      rw [List.flatMap_cons, List.length_append] at h
      have hc := hpos c
      rw [kept, if_pos (by omega), ih (by omega)]

/-- The last escape ends less than its length after the limit. -/
theorem length_body_lt (hwide : ∀ c, (enc c).length ≤ n) (s : Bytes) (hw : w < limit + n) :
    w + (body enc limit w s).length < limit + n := by
  induction s generalizing w with
  | nil => exact hw
  | cons c rest ih =>
      rw [body, kept]
      split
      · have hc := hwide c
        have hrest : w + (enc c).length + _ < limit + n := ih (by omega)
        rw [body] at hrest
        rw [List.flatMap_cons, List.length_append]
        omega
      · exact hw

theorem body_cons {c : UInt8} {rest : Bytes} (hw : w < limit) :
    body enc limit w (c :: rest) = enc c ++ body enc limit (w + (enc c).length) rest := by
  rw [body, kept, if_pos hw, List.flatMap_cons]
  rfl

/-! ## Loops -/

/-- The rest `r` of a buffer after a text of length `k` is written: what is left of it, but that
its first byte may be another. -/
def Left (r : Bytes) (k : Nat) (r' : Bytes) : Prop :=
  r'.length + k = r.length ∧ r'.drop 1 = r.drop (k + 1)

theorem Left.refl (r : Bytes) : Left r 0 r := ⟨rfl, rfl⟩

theorem left_drop {k : Nat} (hk : k ≤ r.length) : Left r k (r.drop k) :=
  ⟨by rw [List.length_drop]; omega, List.drop_drop⟩

theorem Left.trans {k l : Nat} {r' r'' : Bytes} (h : Left r k r') (h' : Left r' l r'') :
    Left r (k + l) r'' := by
  obtain ⟨hlen, hdrop⟩ := h
  obtain ⟨hlen', hdrop'⟩ := h'
  refine ⟨by omega, ?_⟩
  calc r''.drop 1
      = (r'.drop 1).drop l := by rw [hdrop', List.drop_drop, Nat.add_comm]
    _ = r.drop (k + l + 1) := by rw [hdrop, List.drop_drop, Nat.add_right_comm]

section Loop

variable (loop : Bytes → Nat → Bytes → Exec (Bytes × Nat))
  (hnil : ∀ b w, loop b w [] = pure (b, w))
  (hstop : ∀ b w c rest, limit ≤ w → loop b w (c :: rest) = pure (b, w))
  (hturn : ∀ {t r} c rest, t.length < limit → limit + n < t.length + r.length →
    ∃ r', Left r (enc c).length r' ∧
      loop (t ++ r) t.length (c :: rest) =
        loop (t ++ enc c ++ r') (t.length + (enc c).length) rest)
  (hwide : ∀ c, (enc c).length ≤ n)
include hnil hstop hturn hwide

/-- A loop whose turns write the escapes writes the escaped form of a beginning. -/
theorem loop_eq (s : Bytes) (ht : t.length < limit + n)
    (hroom : limit + n < t.length + r.length) :
    ∃ r', Left r (body enc limit t.length s).length r' ∧
      loop (t ++ r) t.length s = pure (t ++ body enc limit t.length s ++ r',
        t.length + (body enc limit t.length s).length) := by
  induction s generalizing t r with
  | nil => exact ⟨r, Left.refl r, by rw [hnil]; simp [body, kept]⟩
  | cons c rest ih =>
      by_cases hw : t.length < limit
      · obtain ⟨r', hleft, hloop⟩ := hturn c rest hw hroom
        have hc := hwide c
        have hlen : (t ++ enc c).length = t.length + (enc c).length := List.length_append
        obtain ⟨r'', hleft', hrest⟩ := ih (t := t ++ enc c) (r := r') (by omega)
          (by have := hleft.1; omega)
        rw [hlen] at hleft' hrest
        refine ⟨r'', ?_, ?_⟩
        · rw [body_cons hw, List.length_append]
          exact hleft.trans hleft'
        · rw [hloop, hrest, body_cons hw, List.length_append, Nat.add_assoc]
          simp only [List.append_assoc]
      · have hbody : body enc limit t.length (c :: rest) = [] := by
          rw [body, kept, if_neg hw]
          rfl
        rw [hbody]
        refine ⟨r, Left.refl r, ?_⟩
        rw [hstop _ _ _ _ (Nat.not_lt.mp hw), List.append_nil]
        rfl

end Loop

end Tracep.Escaping
