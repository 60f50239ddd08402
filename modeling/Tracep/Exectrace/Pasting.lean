import Tracep.Exectrace.ShQuote
import Tracep.Lib.ShellWords

/-!
# Lines that can be pasted back

A quoted argument of an exec line is read by a shell as it was. In single
quotes nothing is expanded, and what is left without quotes has no byte that
a shell takes for more than itself, but for one: the tilde is not on the
list of what needs quotes. A text that begins with one is replaced by a
home, if there is one of that name (`shQuote_pastes_iff`).
-/

namespace Tracep.Exectrace

open Exec Common Utf8 Shell

variable {s : Bytes} {env : Env}

/-- The text needs no quotes by `shQuote`, and the shell has a home for the tilde it begins
with. -/
def TildeStands (env : Env) (s : Bytes) : Prop :=
  Common.isSafe s ∧ ∃ rest dir, s = 126 :: rest
    ∧ env.home (rest.takeWhile (· ≠ 47)) = some dir ∧ dir ≠ 126 :: rest.takeWhile (· ≠ 47)

theorem plain_of_isSafe (h : Common.isSafe s) : ∀ b ∈ s, Plain b := by
  have hquotes : ([39, 92, 36, 32, 9, 35, 42, 63, 91] : Bytes).all
      (fun b => b ≤ 32 ∨ b ∈ unsafeBytes) = true := rfl
  have hspecials : specials.all (fun b => b ≤ 32 ∨ b ∈ unsafeBytes) = true := rfl
  intro b hb
  have hsafe := of_decide_eq_true (List.all_eq_true.mp h b hb)
  exact ⟨fun hmem => hsafe (of_decide_eq_true (List.all_eq_true.mp hquotes b hmem)),
    fun hmem => hsafe (of_decide_eq_true (List.all_eq_true.mp hspecials b hmem))⟩

/-! ## Without quotes -/

theorem homed_ne_iff : homed env s ≠ s ↔ ∃ rest dir, s = 126 :: rest
    ∧ env.home (rest.takeWhile (· ≠ 47)) = some dir ∧ dir ≠ 126 :: rest.takeWhile (· ≠ 47) := by
  unfold homed
  split
  · next rest =>
      have hsplit : rest.takeWhile (· ≠ 47) ++ rest.dropWhile (· ≠ 47) = rest :=
        List.takeWhile_append_dropWhile
      cases hhome : env.home (rest.takeWhile (· ≠ 47)) with
      | none =>
          refine ⟨fun h => absurd rfl h, ?_⟩
          rintro ⟨rest', dir, heq, hdir, -⟩
          cases heq
          rw [hhome] at hdir
          cases hdir
      | some dir =>
          constructor
          · intro hne
            refine ⟨rest, dir, rfl, hhome, fun hdir => hne ?_⟩
            change dir ++ _ = _
            rw [hdir, List.cons_append, hsplit]
          · rintro ⟨rest', dir', heq, hdir, hne⟩ hsame
            cases heq
            rw [hhome] at hdir
            cases hdir
            refine hne (List.append_cancel_right (hsame.trans ?_))
            rw [List.cons_append, hsplit]
  · next hne =>
      refine ⟨fun h => absurd rfl h, ?_⟩
      rintro ⟨rest, dir, rfl, -⟩
      exact absurd rfl (hne rest)

/-! ## In quotes -/

/-- The marks of a byte inside single quotes. -/
def marksOf (b : UInt8) : List Mark :=
  if b = 39 then [.kept 39, .quote] else if b = 10 then [.quote, .kept 10, .quote] else [.kept b]

theorem lex_escape (c : UInt8) (t : Bytes) :
    lex .single (escape c ++ t) = (lex .single t).map (marksOf c ++ ·) := by
  unfold escape marksOf
  by_cases hquote : c = 39
  · simp [hquote, quoteEscape, lex, Shell.step, stepPlain, Option.map_map, Function.comp_def]
  by_cases hnewline : c = 10
  · simp [hnewline, newlineEscape, lex, Shell.step, stepPlain, ansiByte, Option.map_map,
      Function.comp_def]
  · simp [hquote, hnewline, lex, Shell.step]

theorem lex_quoted (s : Bytes) :
    lex .single (s.flatMap escape ++ [39]) = some (s.flatMap marksOf) := by
  induction s with
  | nil => rfl
  | cons c s ih =>
      rw [List.flatMap_cons, List.append_assoc, lex_escape, ih]
      rfl

theorem mem_marksOf {k : Mark} {c : UInt8} (h : k ∈ marksOf c) : k = .quote ∨ ∃ b, k = .kept b := by
  unfold marksOf at h
  split_ifs at h
  · rcases List.mem_pair.mp h with rfl | rfl
    · exact Or.inr ⟨39, rfl⟩
    · exact Or.inl rfl
  · simp only [List.mem_cons, List.not_mem_nil, or_false] at h
    rcases h with rfl | rfl | rfl
    · exact Or.inl rfl
    · exact Or.inr ⟨10, rfl⟩
    · exact Or.inl rfl
  · exact Or.inr ⟨c, List.mem_singleton.mp h⟩

theorem removeQuotes_marksOf (s : Bytes) : removeQuotes (s.flatMap marksOf) = s := by
  induction s with
  | nil => rfl
  | cons c s ih =>
      have hone : removeQuotes (marksOf c) = [c] := by
        unfold marksOf
        split_ifs with hquote hnewline
        · rw [hquote]; rfl
        · rw [hnewline]; rfl
        · rfl
      rw [List.flatMap_cons, removeQuotes_append, ih, hone]
      rfl

theorem arguments_quoted (env : Env) (s : Bytes) :
    arguments env (39 :: s.flatMap escape ++ [39]) = some [s] := by
  have hopen : Shell.step .between 39 = some (.single, [.quote]) := rfl
  have hlex : lex .between (39 :: s.flatMap escape ++ [39]) = some (.quote :: s.flatMap marksOf) := by
    rw [List.cons_append, lex_cons hopen, lex_quoted]
    rfl
  have hmarks : ∀ k ∈ s.flatMap marksOf, k = .quote ∨ ∃ b, k = .kept b := by
    intro k hk
    obtain ⟨c, -, hc⟩ := List.mem_flatMap.mp hk
    exact mem_marksOf hc
  rw [arguments_kept hlex hmarks, removeQuotes_marksOf]

theorem arguments_safe (hne : s ≠ []) (hsafe : Common.isSafe s) :
    arguments env s = some [homed env s] := arguments_plain hne (plain_of_isSafe hsafe)

/-! ## Either way -/

/-- What a shell makes of the quoted form of a text. -/
theorem arguments_quoted_iff (env : Env) (s : Bytes) :
    arguments env (quoted s) = some [s] ↔ ¬TildeStands env s := by
  unfold quoted TildeStands
  by_cases hnil : s = []
  · subst hnil
    refine ⟨?_, fun _ => arguments_quoted env []⟩
    rintro - ⟨-, rest, dir, h, -⟩
    cases h
  rw [if_neg hnil]
  by_cases hsafe : Common.isSafe s
  · rw [if_pos hsafe, arguments_safe hnil hsafe, ← homed_ne_iff, not_and, Classical.not_not]
    simp [hsafe]
  · rw [if_neg hsafe]
    exact ⟨fun _ h => hsafe h.1, fun _ => arguments_quoted env s⟩

/-- A shell that knows no home. -/
def homeless : Env := ⟨fun _ => none, fun _ => []⟩

/-- A shell where every home is the empty text. -/
def emptyHomes : Env := ⟨fun _ => some [], fun _ => []⟩

theorem no_tildeStands_iff :
    (∀ env, ¬TildeStands env s) ↔ ¬(Common.isSafe s ∧ s.head? = some 126) := by
  constructor
  · rintro hnone ⟨hsafe, hhead⟩
    obtain ⟨rest, rfl⟩ := List.head?_eq_some_iff.mp hhead
    exact hnone emptyHomes ⟨hsafe, rest, [], rfl, rfl, nofun⟩
  · rintro hhead env ⟨hsafe, rest, dir, rfl, -⟩
    exact hhead ⟨hsafe, rfl⟩

/-- What is cut is not read back by a shell that knows no home. -/
theorem fits_of_arguments (h : arguments homeless (written s) = some [s]) : Fits s := by
  unfold written at h
  unfold Fits
  by_cases hnil : s = []
  · subst hnil
    exact Nat.zero_le _
  rw [if_neg hnil] at h
  by_cases hsafe : Common.isSafe s
  · rw [if_pos hsafe] at h ⊢
    have hne : fitted poolSz s ≠ [] := by
      rw [fitted, Ne, List.take_eq_nil_iff]
      exact fun h => h.elim (by decide) hnil
    have hcut : Common.isSafe (fitted poolSz s) := by
      rw [Common.isSafe, List.all_eq_true] at hsafe ⊢
      exact fun b hb => hsafe b (List.mem_of_mem_take hb)
    have hhome : homed homeless (fitted poolSz s) = fitted poolSz s := by
      unfold homed
      split <;> rfl
    rw [arguments_safe hne hcut, hhome] at h
    exact fitted_eq_iff.mp (List.cons.inj (Option.some.inj h)).1
  · rw [if_neg hsafe, arguments_quoted] at h
    rw [if_neg hsafe]
    exact (kept_eq_iff.mp (List.cons.inj (Option.some.inj h)).1).resolve_left hnil

theorem written_of_fits (hfits : Fits s) (hvalid : Valid s) : written s = quoted s := by
  rw [(written_eq_shQuote_iff s).mpr ⟨hfits, Or.inr hvalid⟩, shQuote_valid hvalid]

/-- A shell reads what `shQuote` returns for a valid text as that text, but for a tilde that it
replaces; what the C port returns is read so by every shell exactly when nothing is cut and
there is no such tilde. -/
theorem shQuote_pastes_iff (hvalid : Valid s) (hs : 0 ∉ s) {b : Bytes} (hb : b.length = poolSz) :
    (∀ env, arguments env (Go.shQuote s) = some [s] ↔ ¬TildeStands env s)
      ∧ ((∃ b', (shquoteInto b (some s)).Returns b' ∧ ∀ env, arguments env (cstr b') = some [s])
          ↔ Fits s ∧ ¬(Common.isSafe s ∧ s.head? = some 126)) := by
  obtain ⟨junk, hlen, hret⟩ := shquoteInto_returns hb s
  have htext : cstr (written s ++ 0 :: junk) = written s := by
    rw [cstr_append_nul, cstr_of_noNul (noNul_written hs)]
  rw [shQuote_valid hvalid, hret, ← no_tildeStands_iff]
  refine ⟨fun env => arguments_quoted_iff env s, ?_, ?_⟩
  · rintro ⟨b', hb', hall⟩
    rw [returns_pure.mp hb', htext] at hall
    have hfits := fits_of_arguments (hall homeless)
    rw [written_of_fits hfits hvalid] at hall
    exact ⟨hfits, fun env => (arguments_quoted_iff env s).mp (hall env)⟩
  · rintro ⟨hfits, htilde⟩
    refine ⟨_, returns_pure.mpr rfl, fun env => ?_⟩
    rw [htext, written_of_fits hfits hvalid]
    exact (arguments_quoted_iff env s).mpr (htilde env)

theorem shQuote_pastes_it : (∀ env, arguments env (Go.shQuote [105, 116, 39, 10]) = some [[105, 116, 39, 10]]
      ↔ ¬TildeStands env [105, 116, 39, 10])
    ∧ ((∃ b', (shquoteInto (List.replicate poolSz 0) (some [105, 116, 39, 10])).Returns b'
        ∧ ∀ env, arguments env (cstr b') = some [[105, 116, 39, 10]])
      ↔ Fits [105, 116, 39, 10]
        ∧ ¬(Common.isSafe [105, 116, 39, 10] ∧ ([105, 116, 39, 10] : Bytes).head? = some 126)) :=
  shQuote_pastes_iff (valid_encode ['i', 't', Char.ofNat 39, Char.ofNat 10]) (by decide)
    List.length_replicate

/-- A tilde by itself. -/
theorem tilde_not_pasted : ¬∀ env, arguments env (Go.shQuote [126]) = some [[126]] := by
  intro h
  exact absurd (h ⟨fun _ => some [47, 114, 111, 111, 116], fun _ => []⟩) (by decide)

end Tracep.Exectrace
