import Tracep.Lib.Cut
import Tracep.Lib.Hex

/-!
# Dotted and hexadecimal addresses as texts

Two IPv4 addresses are written in the same way only if they are the same
(`dottedQuad_injective`), and so are two IPv6 addresses (`ipv6Text_injective`):
where the zeros left out are is seen at the doubled colon, and how many from
the groups that are written. No address makes a long text.
-/

namespace Tracep

open Strconv

/-! ## Joined parts -/

section Join

variable {c : UInt8} {xs ys : List Bytes} {k : Nat}

theorem length_join_le (sep : Bytes) (h : ∀ x ∈ xs, x.length + sep.length ≤ k) :
    (join sep xs).length ≤ xs.length * k := by
  induction xs with
  | nil => exact Nat.zero_le _
  | cons x xs ih =>
      obtain ⟨hx, hxs⟩ := List.forall_mem_cons.mp h
      cases xs with
      | nil =>
          rw [join, List.length_singleton, Nat.one_mul]
          omega
      | cons y xs =>
          have hrest := ih hxs
          rw [join, List.length_append, List.length_append, List.length_cons, Nat.succ_mul]
          omega

theorem mem_join {sep : Bytes} {b : UInt8} (h : b ∈ join sep xs) :
    b ∈ sep ∨ ∃ x ∈ xs, b ∈ x := by
  induction xs with
  | nil => exact absurd h List.not_mem_nil
  | cons x xs ih =>
      cases xs with
      | nil => exact Or.inr ⟨x, List.mem_cons_self, h⟩
      | cons y xs =>
          rw [join, List.append_assoc, List.mem_append, List.mem_append] at h
          rcases h with h | h | h
          · exact Or.inr ⟨x, List.mem_cons_self, h⟩
          · exact Or.inl h
          · rcases ih h with hsep | ⟨z, hz, hb⟩
            · exact Or.inl hsep
            · exact Or.inr ⟨z, List.mem_cons_of_mem x hz, hb⟩

theorem mem_join_of_mem {sep x : Bytes} {b : UInt8} (hx : x ∈ xs) (hb : b ∈ x) :
    b ∈ join sep xs := by
  induction xs with
  | nil => cases hx
  | cons y xs ih =>
      cases xs with
      | nil => exact List.mem_singleton.mp hx ▸ hb
      | cons z xs =>
          rw [join, List.append_assoc, List.mem_append, List.mem_append]
          rcases List.mem_cons.mp hx with rfl | hx
          · exact Or.inl hb
          · exact Or.inr (Or.inr (ih hx))

/-- As many parts as there are can be told apart where the byte between them is in none. -/
theorem join_injective (hlen : xs.length = ys.length) (hxs : ∀ x ∈ xs, c ∉ x)
    (hys : ∀ y ∈ ys, c ∉ y) (h : join [c] xs = join [c] ys) : xs = ys := by
  induction xs generalizing ys with
  | nil => exact (List.eq_nil_of_length_eq_zero hlen.symm).symm
  | cons x xs ih =>
      obtain ⟨y, ys, rfl⟩ := List.exists_cons_of_length_pos (hlen ▸ Nat.succ_pos _ : 0 < ys.length)
      have hlen' : xs.length = ys.length := Nat.succ.inj hlen
      obtain ⟨hx, hxs'⟩ := List.forall_mem_cons.mp hxs
      obtain ⟨hy, hys'⟩ := List.forall_mem_cons.mp hys
      cases xs with
      | nil =>
          obtain rfl := List.eq_nil_of_length_eq_zero hlen'.symm
          rw [show x = y from h]
      | cons x' xs =>
          obtain ⟨y', ys, rfl⟩ :=
            List.exists_cons_of_length_pos (hlen' ▸ Nat.succ_pos _ : 0 < ys.length)
          rw [join, join, List.append_assoc, List.append_assoc] at h
          have hcut := congrArg (cut [c]) h
          rw [List.singleton_append, List.singleton_append, cut_byte hx, cut_byte hy] at hcut
          obtain ⟨rfl, hrest⟩ := Prod.mk.inj (Option.some.inj hcut)
          rw [ih hlen' hxs' hys' hrest]

/-- Parts that are not empty can be told apart without knowing how many they are. -/
theorem join_injective_of_ne_nil (hxs : ∀ x ∈ xs, x ≠ [] ∧ c ∉ x) (hys : ∀ y ∈ ys, y ≠ [] ∧ c ∉ y)
    (h : join [c] xs = join [c] ys) : xs = ys := by
  have hne : ∀ {x : Bytes} {zs : List Bytes}, x ≠ [] → join [c] (x :: zs) ≠ [] := by
    intro x zs hx
    cases zs with
    | nil => exact hx
    | cons z zs =>
        rw [join, List.append_assoc]
        exact List.append_ne_nil_of_left_ne_nil hx _
  have hmem : ∀ {x y : Bytes} {zs : List Bytes}, c ∈ join [c] (x :: y :: zs) := by
    intro x y zs
    rw [join, List.append_assoc]
    exact List.mem_append_right _ (List.mem_append_left _ (List.mem_singleton_self c))
  induction xs generalizing ys with
  | nil =>
      cases ys with
      | nil => rfl
      | cons y ys => exact absurd h.symm (hne (hys y List.mem_cons_self).1)
  | cons x xs ih =>
      obtain ⟨⟨hx, hcx⟩, hxs'⟩ := List.forall_mem_cons.mp hxs
      cases ys with
      | nil => exact absurd h (hne hx)
      | cons y ys =>
          obtain ⟨⟨hy, hcy⟩, hys'⟩ := List.forall_mem_cons.mp hys
          cases xs with
          | nil =>
              cases ys with
              | nil => rw [show x = y from h]
              | cons y' ys =>
                  have hc : c ∈ join [c] [x] := h ▸ hmem
                  exact absurd hc hcx
          | cons x' xs =>
              cases ys with
              | nil =>
                  have hc : c ∈ join [c] [y] := h ▸ hmem
                  exact absurd hc hcy
              | cons y' ys =>
                  rw [join, join, List.append_assoc, List.append_assoc] at h
                  have hcut := congrArg (cut [c]) h
                  rw [List.singleton_append, List.singleton_append, cut_byte hcx,
                    cut_byte hcy] at hcut
                  obtain ⟨rfl, hrest⟩ := Prod.mk.inj (Option.some.inj hcut)
                  rw [ih hxs' hys' hrest]

/-- A doubled separator is not found in parts that are not empty. -/
theorem cut_join (hxs : ∀ x ∈ xs, x ≠ [] ∧ c ∉ x) (t : Bytes) : cut [c, c] (join [c] xs ++ t)
    = (cut [c, c] t).map fun (before, after) => (join [c] xs ++ before, after) := by
  induction xs with
  | nil => exact Option.map_id'.symm
  | cons x xs ih =>
      obtain ⟨⟨hx, hcx⟩, hxs'⟩ := List.forall_mem_cons.mp hxs
      cases xs with
      | nil => exact cut_skip hcx
      | cons y ys =>
          obtain ⟨hy, hcy⟩ := hxs' y List.mem_cons_self
          obtain ⟨b, z, hz⟩ : ∃ b z, join [c] (y :: ys) ++ t = b :: z ∧ c ≠ b := by
            obtain ⟨b, y, rfl⟩ := List.exists_cons_of_ne_nil hy
            have hb : c ≠ b := fun heq => hcy (heq ▸ List.mem_cons_self)
            cases ys with
            | nil => exact ⟨b, y ++ t, rfl, hb⟩
            | cons y' ys => exact ⟨b, _, rfl, hb⟩
          rw [join, List.append_assoc, List.append_assoc, cut_skip hcx, List.singleton_append, hz.1,
            cut_single hz.2, ← hz.1, ih hxs', Option.map_map, Option.map_map]
          congr 1
          funext p
          simp

end Join

/-! ## Addresses -/

section Addresses

variable {ip addr : Bytes} {g : List UInt16}

theorem dottedQuad_injective (hlen : ip.length = addr.length)
    (h : dottedQuad ip = dottedQuad addr) : ip = addr := by
  have hdot : ∀ (ip : Bytes), ∀ x ∈ ip.map fun b => digits 10 b.toNat, (46 : UInt8) ∉ x := by
    intro ip x hx
    obtain ⟨b, -, rfl⟩ := List.mem_map.mp hx
    exact not_mem_digits rfl b.toNat
  have hparts := join_injective (by rw [List.length_map, List.length_map, hlen]) (hdot ip)
    (hdot addr) h
  refine List.map_injective_iff.mpr (fun b c hbc => ?_) hparts
  exact UInt8.toNat_inj.mp (digits_injective hbc)

theorem length_dottedQuad_le (ip : Bytes) : (dottedQuad ip).length ≤ ip.length * 4 := by
  have h := @length_join_le (ip.map fun b => digits 10 b.toNat) 4 [46] fun x hx => by
    obtain ⟨b, -, rfl⟩ := List.mem_map.mp hx
    exact Nat.succ_le_succ (length_digits_le (by decide) (b.toNat_lt.trans (by decide)))
  rwa [List.length_map] at h

theorem of_mem_dottedQuad {b : UInt8} (h : b ∈ dottedQuad ip) : b = 46 ∨ isDigit b := by
  rcases mem_join h with hdot | ⟨x, hx, hb⟩
  · exact Or.inl (List.mem_singleton.mp hdot)
  · obtain ⟨c, -, rfl⟩ := List.mem_map.mp hx
    exact Or.inr (digits_isDigit _ b hb)

theorem not_mem_dottedQuad {b : UInt8} (hdot : b ≠ 46) (hdigit : isDigit b = false) :
    b ∉ dottedQuad ip := by
  intro hmem
  rcases of_mem_dottedQuad hmem with heq | hb
  · exact hdot heq
  · rw [hdigit] at hb
    cases hb

theorem length_hexGroups_le (g : List UInt16) : (hexGroups g).length ≤ g.length * 5 := by
  have h := @length_join_le (g.map fun v => digits 16 v.toNat) 5 [58] fun x hx => by
    obtain ⟨v, -, rfl⟩ := List.mem_map.mp hx
    rw [digits, List.length_map]
    exact Nat.succ_le_succ ((Nat.length_toDigits_le_iff (by decide) (by decide)).mpr v.toNat_lt)
  rwa [List.length_map] at h

theorem length_ipv6Text_le (g : List UInt16) : (ipv6Text g).length ≤ g.length * 5 + 2 := by
  unfold ipv6Text
  split
  · exact (length_hexGroups_le g).trans (Nat.le_add_right _ _)
  · next start len _ _ =>
      have hbefore := length_hexGroups_le (g.take start)
      have hafter := length_hexGroups_le (g.drop (start + len))
      rw [List.length_take] at hbefore
      rw [List.length_drop] at hafter
      rw [List.length_append, List.length_append, List.length_cons, List.length_singleton]
      omega

theorem length_groups_le (ip : Bytes) : (groups ip).length ≤ ip.length / 2 := by
  induction ip using groups.induct with
  | case1 hi lo rest ih =>
      rw [groups, List.length_cons, List.length_cons, List.length_cons]
      omega
  | case2 ip hshort =>
      rw [groups]
      · exact Nat.zero_le _
      · exact hshort

end Addresses

/-! ## The text of IPv6 addresses -/

section Hexadecimal

variable {n m : Nat} {b : UInt8}

theorem digits_sixteen (n : Nat) : digits 16 n
    = (if n < 16 then [] else digits 16 (n / 16)) ++ [UInt8.ofNat (n % 16).digitChar.toNat] := by
  rw [digits, Nat.toDigits_eq_if (by decide)]
  by_cases hn : n < 16
  · rw [if_pos hn, if_pos hn, Nat.mod_eq_of_lt hn]
    rfl
  · rw [if_neg hn, if_neg hn, List.map_append]
    rfl

theorem hexValue_digitChar (n : Nat) : hexValue (UInt8.ofNat (n % 16).digitChar.toNat)
    = some (n % 16) := by
  have hall : ∀ d : Fin 16, hexValue (UInt8.ofNat d.val.digitChar.toNat) = some d.val := by decide
  exact hall ⟨n % 16, Nat.mod_lt n (by decide)⟩

theorem hexNumber_digits (n : Nat) : hexNumber 0 (digits 16 n) = n := by
  induction n using Nat.strong_induction_on with
  | _ n ih =>
      rw [digits_sixteen, hexNumber, List.foldl_append, List.foldl_cons, List.foldl_nil,
        hexValue_digitChar, Option.getD_some]
      by_cases hn : n < 16
      · rw [if_pos hn, List.foldl_nil]
        omega
      · have hrest := ih (n / 16) (by omega)
        rw [hexNumber] at hrest
        rw [if_neg hn, hrest]
        omega

theorem isHex_of_mem_digits (h : b ∈ digits 16 n) : isHex b = true := by
  induction n using Nat.strong_induction_on with
  | _ n ih =>
      rw [digits_sixteen] at h
      rcases List.mem_append.mp h with h | h
      · by_cases hn : n < 16
        · rw [if_pos hn] at h
          exact absurd h List.not_mem_nil
        · rw [if_neg hn] at h
          exact ih (n / 16) (by omega) h
      · rw [List.mem_singleton.mp h, isHex, hexValue_digitChar]
        rfl

theorem digits_sixteen_ne_nil (n : Nat) : digits 16 n ≠ [] := by
  rw [digits_sixteen]
  exact List.append_ne_nil_of_right_ne_nil _ (List.cons_ne_nil _ _)

end Hexadecimal

section Groups

variable {g g' : List UInt16} {s t : Bytes}

theorem hexGroups_parts (g : List UInt16) :
    ∀ x ∈ g.map fun v => digits 16 v.toNat, x ≠ [] ∧ (58 : UInt8) ∉ x := by
  intro x hx
  obtain ⟨v, -, rfl⟩ := List.mem_map.mp hx
  exact ⟨digits_sixteen_ne_nil _, fun hmem => absurd (isHex_of_mem_digits hmem) (by decide)⟩

theorem hexGroups_injective (h : hexGroups g = hexGroups g') : g = g' := by
  have hparts := join_injective_of_ne_nil (hexGroups_parts g) (hexGroups_parts g') h
  refine List.map_injective_iff.mpr (fun v w hvw => ?_) hparts
  have hvw : digits 16 v.toNat = digits 16 w.toNat := hvw
  rw [← UInt16.toNat_inj, ← hexNumber_digits v.toNat, hvw, hexNumber_digits]

theorem cut_hexGroups (g : List UInt16) (t : Bytes) :
    cut [58, 58] (hexGroups g ++ 58 :: 58 :: t) = some (hexGroups g, t) := by
  rw [hexGroups, cut_join (hexGroups_parts g)]
  simp [cut]

theorem cut_hexGroups_none (g : List UInt16) : cut [58, 58] (hexGroups g) = none := by
  have h := cut_join (hexGroups_parts g) []
  rwa [List.append_nil] at h

/-- The run is one of zeros. -/
theorem longestZeroRun_eq (h : (longestZeroRun g).2 ≠ 0) :
    (longestZeroRun g).2 = zeroRun g (longestZeroRun g).1 := by
  have hkept : ∀ (is : List Nat) (best : Nat × Nat), (best.2 ≠ 0 → best.2 = zeroRun g best.1) →
      let found := is.foldl (fun best i =>
        if 2 ≤ zeroRun g i ∧ best.2 < zeroRun g i then (i, zeroRun g i) else best) best
      found.2 ≠ 0 → found.2 = zeroRun g found.1 := by
    intro is
    induction is with
    | nil => exact fun best hbest => hbest
    | cons i is ih =>
        intro best hbest
        refine ih _ ?_
        dsimp only
        split
        · exact fun _ => rfl
        · exact hbest
  exact hkept (List.range g.length) (g.length, 0) (fun hne => absurd rfl hne) h

theorem takeWhile_zero (g : List UInt16) :
    g.takeWhile (· = 0) = List.replicate (g.takeWhile (· = 0)).length 0 :=
  List.eq_replicate_iff.mpr ⟨rfl, fun _ hv =>
    of_decide_eq_true (List.mem_takeWhile_imp (p := fun v : UInt16 => decide (v = 0)) hv)⟩

/-- The groups before, of and after a run of zeros. -/
theorem zeroRun_split (g : List UInt16) (i : Nat) :
    g = g.take i ++ List.replicate (zeroRun g i) 0 ++ g.drop (i + zeroRun g i) := by
  have hrest : (g.drop i).drop (zeroRun g i) = g.drop (i + zeroRun g i) := List.drop_drop
  have htake : (g.drop i).take (zeroRun g i) = List.replicate (zeroRun g i) 0 := by
    rw [zeroRun, ← takeWhile_zero]
    exact (List.prefix_iff_eq_take.mp (List.takeWhile_prefix _)).symm
  rw [List.append_assoc, ← htake, ← hrest, List.take_append_drop, List.take_append_drop]

/-- Either all groups are written, or all but a run of zeros. -/
theorem ipv6Text_cases (g : List UInt16) : ipv6Text g = hexGroups g
    ∨ ∃ before after k, g = before ++ List.replicate k 0 ++ after
      ∧ ipv6Text g = hexGroups before ++ 58 :: 58 :: hexGroups after := by
  have hrun := @longestZeroRun_eq g
  unfold ipv6Text
  generalize longestZeroRun g = run at hrun
  obtain ⟨start, len⟩ := run
  cases len with
  | zero => exact Or.inl rfl
  | succ len =>
      have hlen : len + 1 = zeroRun g start := hrun (Nat.succ_ne_zero len)
      refine Or.inr ⟨g.take start, g.drop (start + (len + 1)), len + 1, ?_, ?_⟩
      · rw [hlen]
        exact zeroRun_split g start
      · exact List.append_assoc _ _ _

/-- As many groups as there are can be told from their text. -/
theorem ipv6Text_injective (hlen : g.length = g'.length) (h : ipv6Text g = ipv6Text g') :
    g = g' := by
  rcases ipv6Text_cases g with htext | ⟨before, after, k, hg, htext⟩
  · rcases ipv6Text_cases g' with htext' | ⟨before', after', k', hg', htext'⟩
    · rw [htext, htext'] at h
      exact hexGroups_injective h
    · have hcut := cut_hexGroups before' (hexGroups after')
      rw [← htext', ← h, htext, cut_hexGroups_none] at hcut
      cases hcut
  · have hcut := cut_hexGroups before (hexGroups after)
    rcases ipv6Text_cases g' with htext' | ⟨before', after', k', hg', htext'⟩
    · rw [← htext, h, htext', cut_hexGroups_none] at hcut
      cases hcut
    · have hcut' := cut_hexGroups before' (hexGroups after')
      rw [← htext', ← h, htext, hcut] at hcut'
      obtain ⟨hbefore, hafter⟩ := Prod.mk.inj (Option.some.inj hcut')
      obtain rfl := hexGroups_injective hbefore
      obtain rfl := hexGroups_injective hafter
      have hk : k = k' := by
        rw [hg, hg'] at hlen
        simp only [List.length_append, List.length_replicate] at hlen
        omega
      rw [hg, hg', hk]

theorem of_mem_hexGroups {b : UInt8} (h : b ∈ hexGroups g) : b = 58 ∨ isHex b = true := by
  rcases mem_join h with hcolon | ⟨x, hx, hb⟩
  · exact Or.inl (List.mem_singleton.mp hcolon)
  · obtain ⟨v, -, rfl⟩ := List.mem_map.mp hx
    exact Or.inr (isHex_of_mem_digits hb)

theorem of_mem_ipv6Text {b : UInt8} (h : b ∈ ipv6Text g) : b = 58 ∨ isHex b = true := by
  rcases ipv6Text_cases g with htext | ⟨before, after, k, -, htext⟩
  · exact of_mem_hexGroups (htext ▸ h)
  · rw [htext, List.mem_append, List.mem_cons, List.mem_cons] at h
    rcases h with h | h | h | h
    · exact of_mem_hexGroups h
    · exact Or.inl h
    · exact Or.inl h
    · exact of_mem_hexGroups h

theorem not_mem_ipv6Text {b : UInt8} (hcolon : b ≠ 58) (hhex : isHex b = false) :
    b ∉ ipv6Text g := by
  intro hmem
  rcases of_mem_ipv6Text hmem with heq | hb
  · exact hcolon heq
  · rw [hhex] at hb
    cases hb

/-- The text of more groups than one has a colon. -/
theorem colon_mem_ipv6Text (h : 2 ≤ g.length) : 58 ∈ ipv6Text g := by
  rcases ipv6Text_cases g with htext | ⟨before, after, k, -, htext⟩
  · obtain ⟨v, w, g, rfl⟩ : ∃ v w t, g = v :: w :: t := by
      obtain ⟨v, g, rfl⟩ := List.exists_cons_of_length_pos (Nat.lt_of_lt_of_le Nat.zero_lt_two h)
      obtain ⟨w, g, rfl⟩ := List.exists_cons_of_length_pos (Nat.le_of_succ_le_succ h)
      exact ⟨v, w, g, rfl⟩
    rw [htext, hexGroups, List.map_cons, List.map_cons, join, List.append_assoc]
    exact List.mem_append_right _ (List.mem_append_left _ (List.mem_singleton_self _))
  · rw [htext]
    exact List.mem_append_right _ List.mem_cons_self

end Groups

/-! ## Groups -/

section Bytewise

variable {ip addr : Bytes} {k : Nat}

theorem exists_pair (h : ip.length = 2 * (k + 1)) :
    ∃ hi lo rest, ip = hi :: lo :: rest ∧ rest.length = 2 * k := by
  obtain ⟨hi, ip, rfl⟩ := List.exists_cons_of_length_pos (h ▸ by omega : 0 < ip.length)
  rw [List.length_cons] at h
  obtain ⟨lo, ip, rfl⟩ := List.exists_cons_of_length_pos (by omega : 0 < ip.length)
  rw [List.length_cons] at h
  exact ⟨hi, lo, ip, rfl, by omega⟩

theorem length_groups (h : ip.length = 2 * k) : (groups ip).length = k := by
  induction k generalizing ip with
  | zero =>
      rw [List.eq_nil_of_length_eq_zero h]
      rfl
  | succ k ih =>
      obtain ⟨hi, lo, rest, rfl, hrest⟩ := exists_pair h
      rw [groups, List.length_cons, ih hrest]

theorem be16_inj {hi lo hi' lo' : UInt8} (h : be16 hi lo = be16 hi' lo') :
    hi = hi' ∧ lo = lo' := by
  have hvalue := congrArg UInt16.toNat h
  have hlo := lo.toNat_lt
  have hlo' := lo'.toNat_lt
  rw [be16_toNat, be16_toNat] at hvalue
  exact ⟨UInt8.toNat_inj.mp (by omega), UInt8.toNat_inj.mp (by omega)⟩

theorem groups_injective (h : ip.length = 2 * k) (h' : addr.length = 2 * k)
    (heq : groups ip = groups addr) : ip = addr := by
  induction k generalizing ip addr with
  | zero => rw [List.eq_nil_of_length_eq_zero h, List.eq_nil_of_length_eq_zero h']
  | succ k ih =>
      obtain ⟨hi, lo, rest, rfl, hrest⟩ := exists_pair h
      obtain ⟨hi', lo', rest', rfl, hrest'⟩ := exists_pair h'
      rw [groups, groups] at heq
      obtain ⟨hword, hgroups⟩ := List.cons.inj heq
      obtain ⟨rfl, rfl⟩ := be16_inj hword
      rw [ih hrest hrest' hgroups]

theorem drop_groups (h : ip.length = 2 * k) (j : Nat) :
    (groups ip).drop j = groups (ip.drop (2 * j)) := by
  induction j generalizing ip k with
  | zero => rfl
  | succ j ih =>
      cases k with
      | zero =>
          rw [List.eq_nil_of_length_eq_zero h]
          rfl
      | succ k =>
          obtain ⟨hi, lo, rest, rfl, hrest⟩ := exists_pair h
          rw [groups, List.drop_succ_cons, ih hrest, Nat.mul_succ]
          rfl

end Bytewise

end Tracep
