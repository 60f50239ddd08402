import Tracep.Lib.Escaping
import Tracep.Lib.Shell

/-!
# Shell quoting

`shquote` renders a text for a shell in a buffer of fixed size: as it is if
every byte stands for itself, else in single quotes. The loop stops where
another byte might leave no room, so a long text is cut; it is never cut
inside an escape, and the last quote always has room (`shquoteInto_returns`).
What is in the buffer is the quoted form of a beginning of the text
(`quoted`, `kept`), and a shell reads it back (`shquote_word`).
-/

namespace Tracep.Common

open Exec

/-- `POOL_SZ`. -/
def poolSz : Nat := 1024

/-! ## The code -/

/-- ``"`^#*[]=|\\?${}()'\"<>&;\x7f"``. -/
def unsafeBytes : Bytes :=
  [96, 94, 35, 42, 91, 93, 61, 124, 92, 63, 36, 123, 125, 40, 41, 39, 34, 60, 62, 38, 59, 127]

def isSafe (s : Bytes) : Bool := s.all fun b => ¬(b ≤ 32 ∨ b ∈ unsafeBytes)

/-- `"'\\''"`. -/
def quoteEscape : Bytes := [39, 92, 39, 39]

/-- `"'$'\\n''"`. -/
def newlineEscape : Bytes := [39, 36, 39, 92, 110, 39, 39]

/-- The loop over the rest of the text, with `w` bytes written. -/
def quoteLoop (b : Bytes) (w : Nat) : Bytes → Exec (Bytes × Nat)
  | [] => return (b, w)
  | c :: rest =>
      if w < poolSz - 8 then do
        if c = 39 then quoteLoop (← storeAll b w quoteEscape) (w + 4) rest
        else if c = 10 then quoteLoop (← storeAll b w newlineEscape) (w + 7) rest
        else quoteLoop (← store b w c) (w + 1) rest
      else return (b, w)

/-- A quote, if there is room for it and a NUL. -/
def putQuote (b : Bytes) (w : Nat) : Exec (Bytes × Nat) :=
  if w < poolSz - 1 then do return (← store b w 39, w + 1)
  else return (b, w)

/-- `shquote` into the buffer `b`. No text is `NULL`. -/
def shquoteInto (b : Bytes) (s : Option Bytes) : Exec Bytes :=
  match s with
  | none => snprintf b poolSz [39, 39]
  | some s =>
      if s = [] then snprintf b poolSz [39, 39]
      else if isSafe s then snprintf b poolSz s
      else do
        let (b, w) ← putQuote b 0
        let (b, w) ← quoteLoop b w s
        let (b, w) ← putQuote b w
        store b w 0

/-! ## What is written -/

/-- What a byte becomes inside single quotes. -/
def escape (b : UInt8) : Bytes :=
  if b = 39 then quoteEscape else if b = 10 then newlineEscape else [b]

/-- The quoted form of a text, however long. -/
def quoted (s : Bytes) : Bytes :=
  if s = [] then [39, 39]
  else if isSafe s then s
  else 39 :: s.flatMap escape ++ [39]

/-- How far the loop comes after `w` bytes. -/
def kept (w : Nat) : Bytes → Bytes
  | [] => []
  | c :: rest => if w < poolSz - 8 then c :: kept (w + (escape c).length) rest else []

/-- What `shquote` leaves in the buffer. -/
def written (s : Bytes) : Bytes :=
  if s = [] then [39, 39]
  else if isSafe s then fitted poolSz s
  else 39 :: (kept 1 s).flatMap escape ++ [39]

variable {s t r rest : Bytes} {w : Nat}

theorem escape_pos (b : UInt8) : 0 < (escape b).length ∧ (escape b).length ≤ 7 := by
  unfold escape
  split
  · decide
  · split
    · decide
    · exact ⟨Nat.one_pos, Nat.le_add_left 1 6⟩

/-- The loop is one that escapes a text into a buffer. -/
theorem kept_escaping (w : Nat) (s : Bytes) : kept w s = Escaping.kept escape (poolSz - 8) w s := by
  induction s generalizing w with
  | nil => rfl
  | cons c rest ih => rw [kept, Escaping.kept, ih]

theorem kept_begins (w : Nat) (s : Bytes) : kept w s <+: s := by
  rw [kept_escaping]
  exact Escaping.kept_begins escape (poolSz - 8) w s

theorem kept_eq (h : w + (s.flatMap escape).length ≤ poolSz - 8) : kept w s = s := by
  rw [kept_escaping]
  exact Escaping.kept_eq (fun c => (escape_pos c).1) h

/-- The loop ends with room for a quote and a NUL. -/
theorem kept_length (hw : w ≤ poolSz - 2) :
    w + ((kept w s).flatMap escape).length ≤ poolSz - 2 := by
  rw [kept_escaping]
  exact Nat.le_of_lt_succ
    (Escaping.length_body_lt (fun c => (escape_pos c).2) s (Nat.lt_succ_of_le hw))

/-- One turn of the loop writes what the byte becomes. -/
theorem quoteLoop_turn (c : UInt8) (rest : Bytes) (hw : t.length < poolSz - 8)
    (hroom : poolSz - 8 + 7 < t.length + r.length) :
    ∃ r', Escaping.Left r (escape c).length r' ∧ quoteLoop (t ++ r) t.length (c :: rest) =
      quoteLoop (t ++ escape c ++ r') (t.length + (escape c).length) rest := by
  have hesc := escape_pos c
  have hfits : (escape c).length ≤ r.length := by omega
  refine ⟨r.drop (escape c).length, Escaping.left_drop hfits, ?_⟩
  rw [quoteLoop, if_pos hw]
  by_cases hquote : c = 39
  · subst hquote
    have hescape : escape 39 = quoteEscape := rfl
    rw [hescape] at hfits ⊢
    rw [if_pos rfl, storeAll_append rfl hfits, pure_bind]
    rfl
  by_cases hnewline : c = 10
  · subst hnewline
    have hescape : escape 10 = newlineEscape := rfl
    rw [hescape] at hfits ⊢
    rw [if_neg (by decide), if_pos rfl, storeAll_append rfl hfits, pure_bind]
    rfl
  have hone : escape c = [c] := by rw [escape, if_neg hquote, if_neg hnewline]
  rw [hone] at hfits ⊢
  rw [if_neg hquote, if_neg hnewline, store_append rfl hfits, pure_bind]
  rfl

theorem quoteLoop_eq (hlen : t.length + r.length = poolSz) (hle : t.length ≤ poolSz - 2) :
    ∃ r', r'.length + ((kept t.length s).flatMap escape).length = r.length ∧
      quoteLoop (t ++ r) t.length s = pure (t ++ (kept t.length s).flatMap escape ++ r',
        t.length + ((kept t.length s).flatMap escape).length) := by
  have hstop : ∀ b w c rest, poolSz - 8 ≤ w → quoteLoop b w (c :: rest) = pure (b, w) := by
    intro b w c rest hw
    rw [quoteLoop, if_neg (Nat.not_lt.mpr hw)]
  rw [kept_escaping]
  obtain ⟨r', hleft, hloop⟩ := Escaping.loop_eq quoteLoop (fun _ _ => rfl) hstop quoteLoop_turn
    (fun c => (escape_pos c).2) s (Nat.lt_succ_of_le hle) (by rw [hlen]; decide)
  exact ⟨r', hleft.1, hloop⟩

theorem putQuote_eq (hlen : t.length + r.length = poolSz) (hroom : t.length < poolSz - 1) :
    putQuote (t ++ r) t.length = pure (t ++ [39] ++ r.drop 1, (t ++ [39]).length) := by
  have hr : 0 < r.length := by
    unfold poolSz at hroom hlen
    omega
  rw [putQuote, if_pos hroom, store_append rfl hr, List.length_append]
  rfl

theorem snprintf_pool {b : Bytes} (hb : b.length = poolSz) (text : Bytes) :
    ∃ junk, (fitted poolSz text).length + 1 + junk.length = poolSz
      ∧ snprintf b poolSz text = pure (fitted poolSz text ++ 0 :: junk) := by
  have hlen : (fitted poolSz text).length ≤ poolSz - 1 := List.length_take_le _ _
  refine ⟨_, ?_, snprintf_eq (by decide) hb.ge⟩
  rw [List.length_drop, hb]
  unfold poolSz at hlen ⊢
  omega

/-- `shquote` stays inside its buffer, and ends what it writes with a NUL. -/
theorem shquoteInto_returns {b : Bytes} (hb : b.length = poolSz) (s : Bytes) :
    ∃ junk, (written s).length + 1 + junk.length = poolSz
      ∧ shquoteInto b (some s) = pure (written s ++ 0 :: junk) := by
  unfold shquoteInto written
  by_cases hnil : s = []
  · simp only [if_pos hnil]
    exact snprintf_pool hb [39, 39]
  by_cases hsafe : isSafe s
  · simp only [if_neg hnil, if_pos hsafe]
    exact snprintf_pool hb s
  simp only [if_neg hnil, if_neg hsafe]
  have hopen : putQuote b 0 = pure ([39] ++ b.drop 1, 1) :=
    putQuote_eq (t := []) (r := b) (by rw [List.length_nil, Nat.zero_add, hb]) (by decide)
  have hrest : [(39 : UInt8)].length + (b.drop 1).length = poolSz := by
    rw [List.length_drop, hb]
    rfl
  have hkept : 1 + ((kept 1 s).flatMap escape).length ≤ poolSz - 2 := kept_length (by decide)
  obtain ⟨r, hr, hloop⟩ := quoteLoop_eq (s := s) hrest (by decide)
  simp only [List.length_singleton] at hr hloop
  generalize (kept 1 s).flatMap escape = body at hr hloop hkept ⊢
  have hlen : ([39] ++ body).length + r.length = poolSz := by
    rw [← hrest, ← hr, List.length_append]
    omega
  have hlong : ([39] ++ body).length = 1 + body.length := List.length_append
  have hclose := putQuote_eq hlen (by rw [hlong]; unfold poolSz at hkept ⊢; omega)
  rw [hlong] at hclose hlen
  have hnul : 0 < (r.drop 1).length := by
    rw [List.length_drop]
    unfold poolSz at hkept hlen
    omega
  refine ⟨(r.drop 1).drop 1, ?_, ?_⟩
  · simp only [List.length_drop, List.length_append, List.length_cons, List.length_nil] at hnul ⊢
    unfold poolSz at hkept hlen ⊢
    omega
  · rw [hopen, pure_bind, hloop, pure_bind, hclose, pure_bind, store_append rfl hnul]
    simp only [List.append_assoc, List.cons_append, List.nil_append]

/-! ## What a shell reads -/

theorem readWord_escape (c : UInt8) (s : Bytes) :
    Shell.readWord true (escape c ++ s) = (Shell.readWord true s).map (c :: ·) := by
  unfold escape
  split
  · next hquote =>
      subst hquote
      exact Shell.readWord_quote
  · next hquote =>
      split
      · next hnewline =>
          subst hnewline
          exact Shell.readWord_newline
      · exact Shell.readWord_quoted hquote

theorem readWord_flatMap (s : Bytes) :
    Shell.readWord true (s.flatMap escape ++ [39]) = some s := by
  induction s with
  | nil => rfl
  | cons c s ih =>
      rw [List.flatMap_cons, List.append_assoc, readWord_escape, ih]
      rfl

theorem not_meta_of_isSafe (h : isSafe s) : ∀ b ∈ s, b ∉ Shell.metaBytes := by
  have hclass : Shell.metaBytes.all (fun b => b ≤ 32 ∨ b ∈ unsafeBytes) = true := by decide
  intro b hb hmeta
  have hunsafe := of_decide_eq_true (List.all_eq_true.mp hclass b hmeta)
  exact of_decide_eq_true (List.all_eq_true.mp h b hb) hunsafe

/-- A shell reads a beginning of the text, and all of it if nothing is cut. -/
theorem value_written (s : Bytes) :
    ∃ t, Shell.value (written s) = some t ∧ t <+: s
      ∧ ((quoted s).length ≤ poolSz - 9 → t = s) := by
  unfold written quoted
  by_cases hnil : s = []
  · subst hnil
    exact ⟨[], rfl, List.prefix_refl [], fun _ => rfl⟩
  rw [if_neg hnil, if_neg hnil]
  by_cases hsafe : isSafe s
  · rw [if_pos hsafe, if_pos hsafe]
    refine ⟨fitted poolSz s, ?_, List.take_prefix _ s, fun hlen => ?_⟩
    · have hne : fitted poolSz s ≠ [] := by
        rw [fitted, Ne, List.take_eq_nil_iff]
        exact fun h => h.elim (by decide) hnil
      rw [Shell.value, if_neg hne, Shell.readWord_plain]
      exact fun b hb => not_meta_of_isSafe hsafe b (List.mem_of_mem_take hb)
    · refine List.take_of_length_le (hlen.trans (by decide))
  · rw [if_neg hsafe, if_neg hsafe]
    refine ⟨kept 1 s, ?_, kept_begins 1 s, fun hlen => kept_eq ?_⟩
    · rw [List.cons_append, Shell.value, if_neg (List.cons_ne_nil _ _), Shell.readWord_open,
        readWord_flatMap]
    · rw [List.length_append, List.length_cons, List.length_singleton] at hlen
      unfold poolSz at hlen ⊢
      omega

theorem noNul_escape (c : UInt8) (hc : c ≠ 0) : 0 ∉ escape c := by
  unfold escape
  split
  · decide
  · split
    · decide
    · exact fun hmem => hc (List.mem_singleton.mp hmem).symm

theorem noNul_written (h : 0 ∉ s) : 0 ∉ written s := by
  unfold written
  split
  · decide
  · split
    · exact fun hmem => h (List.mem_of_mem_take hmem)
    · rw [List.cons_append, List.mem_cons, List.mem_append, List.mem_flatMap]
      rintro (hquote | ⟨c, hc, hmem⟩ | hquote)
      · exact absurd hquote (by decide)
      · refine noNul_escape c ?_ hmem
        rintro rfl
        exact h ((kept_begins 1 s).subset hc)
      · exact absurd hquote (by decide)

/-- What `shquote` writes lies in its buffer with its NUL, and is one word, which a shell takes
for a beginning of the text, and for the text itself if its quoted form is not too long. -/
theorem shquote_word {b s : Bytes} (hb : b.length = poolSz) (hs : 0 ∉ s) :
    ∃ b', (shquoteInto b (some s)).Returns b' ∧ b'.length = poolSz
      ∧ (cstr b').length + 1 ≤ poolSz
      ∧ ∃ t, Shell.value (cstr b') = some t ∧ t <+: s ∧ ((quoted s).length ≤ 1015 → t = s) := by
  obtain ⟨junk, hlen, hret⟩ := shquoteInto_returns hb s
  have htext : cstr (written s ++ 0 :: junk) = written s := by
    rw [cstr_append_nul, cstr_of_noNul (noNul_written hs)]
  refine ⟨_, hret ▸ returns_pure.mpr rfl, ?_, ?_, ?_⟩
  · rw [← hlen, List.length_append, List.length_cons]
    omega
  · rw [htext]
    omega
  · rw [htext]
    exact value_written s

theorem shquote_its : ∃ b', (shquoteInto (List.replicate poolSz 0) (some [105, 116, 39, 115])).Returns b'
      ∧ b'.length = poolSz ∧ (cstr b').length + 1 ≤ poolSz
      ∧ ∃ t, Shell.value (cstr b') = some t ∧ t <+: [105, 116, 39, 115]
        ∧ ((quoted [105, 116, 39, 115]).length ≤ 1015 → t = [105, 116, 39, 115]) :=
  shquote_word List.length_replicate (by decide)

end Tracep.Common
