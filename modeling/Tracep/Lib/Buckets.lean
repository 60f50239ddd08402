import Mathlib.Data.Set.Finite.Basic
import Tracep.Lib.Linked

/-!
# Hash tables with chains

A hash selects the head of a linked list in which a key is looked for, to
which a new node for it is added in front, and from which its node is taken
out. Such a table is `Sound` if each list is a chain, holds the keys with its
hash and none of them twice, and there are no other nodes.

It then stands for a map from keys to nodes (`Represents`), and each thing
that can be done with it does the same to the map: a new node (`push`), one
taken out (`unlink`), a value changed in place (`store`).
-/

namespace Tracep.Linked

open Exec

variable {κ ν : Type} {n : Nat}

/-- The heads of the lists, and the nodes. -/
structure Table (ν : Type) (n : Nat) where
  heads : Fin n → Nat
  heap : Heap ν

/-- How nodes are keyed. -/
structure Hashing (κ ν : Type) (n : Nat) where
  key : ν → κ
  hash : κ → Fin n

/-- No list, no node. -/
def Table.empty : Table ν n := ⟨fun _ => 0, fun _ => none⟩

/-- A list with another head, and other nodes. -/
def Table.relink (T : Table ν n) (b : Fin n) (head : Nat) (heap : Heap ν) : Table ν n :=
  ⟨Function.update T.heads b head, heap⟩

/-- A node put in front of a list. -/
def Table.push (T : Table ν n) (b : Fin n) (p : Nat) (v : ν) : Table ν n :=
  T.relink b p (Function.update T.heap p (some ⟨v, T.heads b⟩))

/-- A value written to a node. -/
def Table.store (T : Table ν n) (p : Nat) (v : ν) : Exec (Table ν n) := do
  let node ← load T.heap p
  return { T with heap := Function.update T.heap p (some { node with val := v }) }

namespace Hashing

variable (H : Hashing κ ν n)

/-- The lists of a table, with the keys that belong there, once each, and all there is. -/
structure Sound (T : Table ν n) (chains : Fin n → List (Nat × ν)) : Prop where
  chain : ∀ b, Chain T.heap (T.heads b) (chains b)
  bucket : ∀ b, ∀ e ∈ chains b, H.hash (H.key e.2) = b
  once : ∀ b, ((chains b).map fun e => H.key e.2).Nodup
  live : ∀ p node, T.heap p = some node → ∃ b, (p, node.val) ∈ chains b

/-- The table stands for a map from keys to nodes with their addresses. -/
structure Represents (T : Table ν n) (chains : Fin n → List (Nat × ν))
    (m : κ → Option (Nat × ν)) : Prop extends H.Sound T chains where
  map : ∀ k e, m k = some e ↔ e ∈ chains (H.hash k) ∧ H.key e.2 = k

end Hashing

namespace Hashing

variable {H : Hashing κ ν n} {T : Table ν n} {chains : Fin n → List (Nat × ν)}
  {m : κ → Option (Nat × ν)} {test : ν → Bool} {k : κ} {b b' : Fin n} {p q : Nat} {v w : ν}
  {e : Nat × ν}

theorem represents_empty : H.Represents Table.empty (fun _ => []) fun _ => none where
  chain _ := .nil
  bucket _ := List.forall_mem_nil _
  once _ := List.nodup_nil
  live _ _ h := absurd h.symm (Option.some_ne_none _)
  map _ _ := iff_of_false (Option.some_ne_none _).symm fun h => List.not_mem_nil h.1

/-! ## One node, one list -/

theorem Sound.live_of_mem (hs : H.Sound T chains) (he : e ∈ chains b) :
    e.1 ≠ 0 ∧ ∃ node, T.heap e.1 = some node ∧ node.val = e.2 := by
  obtain ⟨hne, node, hnode, hval, -⟩ := (hs.chain b).suffix he
  exact ⟨hne, node, hnode, hval⟩

theorem Sound.bucket_unique (hs : H.Sound T chains) (hv : (p, v) ∈ chains b)
    (hw : (p, w) ∈ chains b') : b = b' := by
  obtain ⟨-, node, hnode, rfl⟩ := hs.live_of_mem hv
  obtain ⟨-, node', hnode', rfl⟩ := hs.live_of_mem hw
  obtain rfl := Option.some.inj (hnode.symm.trans hnode')
  exact (hs.bucket b _ hv).symm.trans (hs.bucket b' _ hw)

/-- What is at other addresses than those of a list is not in it. -/
theorem Sound.not_mem_of_ne (hs : H.Sound T chains) (he : e ∈ chains b) (hb : b ≠ b') :
    e.1 ∉ (chains b').map Prod.fst := by
  intro hmem
  obtain ⟨e', he', heq⟩ := List.mem_map.mp hmem
  have hv : (e.1, e'.2) ∈ chains b' := heq ▸ he'
  exact hb (hs.bucket_unique he hv)

theorem Represents.mem_of_map (hr : H.Represents T chains m) (hm : m k = some e) :
    e ∈ chains (H.hash k) := ((hr.map k e).mp hm).1

theorem Represents.key_of_map (hr : H.Represents T chains m) (hm : m k = some e) :
    H.key e.2 = k := ((hr.map k e).mp hm).2

/-! ## Looking for a key -/

theorem Represents.find_eq (hr : H.Represents T chains m) (htest : ∀ v, test v ↔ H.key v = k) :
    (chains (H.hash k)).find? (fun e => test e.2) = m k := by
  cases hfind : (chains (H.hash k)).find? fun e => test e.2 with
  | none =>
      refine (Option.eq_none_iff_forall_ne_some.mpr fun e he => ?_).symm
      exact List.find?_eq_none.mp hfind e (hr.mem_of_map he) ((htest e.2).mpr (hr.key_of_map he))
  | some e =>
      have hpass := List.find?_eq_some_iff_append.mp hfind
      exact ((hr.map k e).mpr ⟨List.mem_of_find?_eq_some hfind, (htest e.2).mp hpass.1⟩).symm

theorem Represents.seek_returns (hr : H.Represents T chains m)
    (htest : ∀ v, test v ↔ H.key v = k) :
    (seek test T.heap (T.heads (H.hash k))).Returns (address (m k)) := by
  rw [← hr.find_eq htest]
  exact (hr.chain (H.hash k)).seek_returns

/-! ## Changes -/

/-- One list is changed, with the keys that belong there. -/
theorem Represents.relink (hr : H.Represents T chains m) {l : List (Nat × ν)} {head : Nat}
    {heap : Heap ν} {m' : κ → Option (Nat × ν)} (hchain : Chain heap head l)
    (hkept : ∀ b', b' ≠ b → ∀ e ∈ chains b', heap e.1 = T.heap e.1)
    (honce : (l.map fun e => H.key e.2).Nodup)
    (hlive : ∀ q node, heap q = some node →
      (q, node.val) ∈ l ∨ T.heap q = some node ∧ (q, node.val) ∉ chains b)
    (hmap : ∀ k e, H.hash k = b → (m' k = some e ↔ e ∈ l ∧ H.key e.2 = k))
    (hsame : ∀ k, H.hash k ≠ b → m' k = m k) (hbucket : ∀ e ∈ l, H.hash (H.key e.2) = b) :
    H.Represents (T.relink b head heap) (Function.update chains b l) m' := by
  refine ⟨⟨fun b' => ?_, fun b' => ?_, fun b' => ?_, fun q node hq => ?_⟩, fun k e => ?_⟩
  · rw [Table.relink]
    by_cases hb : b' = b
    · subst hb
      simpa only [Function.update_self] using hchain
    · simpa only [Function.update_of_ne hb] using (hr.chain b').congr (hkept b' hb)
  · by_cases hb : b' = b
    · subst hb
      simpa only [Function.update_self] using hbucket
    · simpa only [Function.update_of_ne hb] using hr.bucket b'
  · by_cases hb : b' = b
    · subst hb
      simpa only [Function.update_self] using honce
    · simpa only [Function.update_of_ne hb] using hr.once b'
  · rcases hlive q node hq with hmem | ⟨hq, hout⟩
    · exact ⟨b, by rwa [Function.update_self]⟩
    · obtain ⟨b', hmem⟩ := hr.live q node hq
      have hb : b' ≠ b := by
        rintro rfl
        exact hout hmem
      exact ⟨b', by rwa [Function.update_of_ne hb]⟩
  · by_cases hb : H.hash k = b
    · rw [hmap k e hb, hb, Function.update_self]
    · rw [hsame k hb, hr.map, Function.update_of_ne hb]

section Changes

variable [DecidableEq κ]

/-- A key that is not in the table gets a node. -/
theorem Represents.push (hr : H.Represents T chains m) (hk : m k = none) (hp : p ≠ 0)
    (hfree : T.heap p = none) (hv : H.key v = k) :
    H.Represents (T.push (H.hash k) p v)
      (Function.update chains (H.hash k) ((p, v) :: chains (H.hash k)))
      (Function.update m k (some (p, v))) := by
  have hkept : ∀ b, ∀ e ∈ chains b,
      Function.update T.heap p (some ⟨v, T.heads (H.hash k)⟩) e.1 = T.heap e.1 := by
    intro b e he
    refine Function.update_of_ne ?_ _ _
    rintro rfl
    obtain ⟨-, node, hnode, -⟩ := hr.live_of_mem he
    exact Option.some_ne_none _ (hnode.symm.trans hfree)
  have hnew : ∀ e ∈ chains (H.hash k), H.key e.2 ≠ k := fun e he hkey =>
    Option.some_ne_none e (((hr.map k e).mpr ⟨he, hkey⟩).symm.trans hk)
  refine hr.relink (.cons hp (Function.update_self _ _ _) ((hr.chain _).congr (hkept _)))
    (fun b _ => hkept b) (List.nodup_cons.mpr ⟨fun hmem => ?_, hr.once _⟩) (fun q node hq => ?_)
    (fun k' e hb => ?_) (fun k' hb => Function.update_of_ne (fun heq => hb (by rw [heq])) _ _)
    (List.forall_mem_cons.mpr ⟨congrArg H.hash hv, hr.bucket _⟩)
  · obtain ⟨e, he, hkey⟩ := List.mem_map.mp hmem
    exact hnew e he (hkey.trans hv)
  · by_cases hqp : q = p
    · subst hqp
      rw [Function.update_self] at hq
      obtain rfl := Option.some.inj hq
      exact Or.inl List.mem_cons_self
    · rw [Function.update_of_ne hqp] at hq
      by_cases hmem : (q, node.val) ∈ chains (H.hash k)
      · exact Or.inl (List.mem_cons_of_mem _ hmem)
      · exact Or.inr ⟨hq, hmem⟩
  · rw [List.mem_cons]
    by_cases hkk : k' = k
    · subst hkk
      rw [Function.update_self]
      constructor
      · rintro ⟨⟩
        exact ⟨Or.inl rfl, hv⟩
      · rintro ⟨rfl | he, hkey⟩
        · rfl
        · exact absurd hkey (hnew e he)
    · rw [Function.update_of_ne hkk, hr.map, hb]
      refine and_congr_left fun hkey => (or_iff_right ?_).symm
      rintro rfl
      exact hkk (hkey.symm.trans hv)

omit [DecidableEq κ] in
theorem mem_eraseP_iff {l : List (Nat × ν)} (hnodup : (l.map fun e => H.key e.2).Nodup)
    (htest : ∀ v, test v ↔ H.key v = k) :
    e ∈ l.eraseP (fun e => test e.2) ↔ e ∈ l ∧ H.key e.2 ≠ k := by
  induction l with
  | nil => exact iff_of_false List.not_mem_nil fun h => List.not_mem_nil h.1
  | cons a l ih =>
      obtain ⟨ha, hl⟩ := List.nodup_cons.mp hnodup
      by_cases hfirst : test a.2 = true
      · have hkey := (htest a.2).mp hfirst
        rw [List.eraseP_cons_of_pos (p := fun e : Nat × ν => test e.2) hfirst, List.mem_cons]
        constructor
        · exact fun he => ⟨Or.inr he, fun heq =>
            ha (List.mem_map.mpr ⟨e, he, heq.trans hkey.symm⟩)⟩
        · rintro ⟨rfl | he, hne⟩
          · exact absurd hkey hne
          · exact he
      · have hkey := mt (htest a.2).mpr hfirst
        rw [List.eraseP_cons_of_neg (p := fun e : Nat × ν => test e.2) hfirst, List.mem_cons,
          List.mem_cons, ih hl, or_and_right]
        exact or_congr_left (and_iff_left_of_imp fun heq => heq ▸ hkey).symm

/-- The node of a key, if there is one, is taken out and freed. -/
theorem Represents.unlink_returns (hr : H.Represents T chains m)
    (htest : ∀ v, test v ↔ H.key v = k) :
    ∃ head heap, (unlink test (T.heads (H.hash k)) T.heap).Returns (head, heap)
      ∧ H.Represents (T.relink (H.hash k) head heap)
        (Function.update chains (H.hash k) ((chains (H.hash k)).eraseP fun e => test e.2))
        (Function.update m k none) := by
  obtain ⟨head, heap, hunlink, hchain, hothers, hfreed⟩ :=
    @Chain.unlink_returns _ test _ _ _ (hr.chain (H.hash k))
  have herase := fun e => @mem_eraseP_iff _ _ _ H test k e _ (hr.once (H.hash k)) htest
  have hsub : ((chains (H.hash k)).eraseP fun e => test e.2).Sublist (chains (H.hash k)) :=
    List.eraseP_sublist
  refine ⟨head, heap, hunlink, hr.relink hchain
    (fun b hb e he => hothers e.1 (hr.not_mem_of_ne he hb)) ((hr.once _).sublist (hsub.map _))
    (fun q node hq => ?_) (fun k' e hb => ?_)
    (fun k' hb => Function.update_of_ne (fun heq => hb (by rw [heq])) _ _)
    fun e he => hr.bucket _ e (hsub.subset he)⟩
  · by_cases hin : q ∈ (chains (H.hash k)).map Prod.fst
    · -- what is still allocated of the list has not been taken out
      have hleft : q ∈ ((chains (H.hash k)).eraseP fun e => test e.2).map Prod.fst := by
        by_contra hout
        exact Option.some_ne_none _ (hq.symm.trans (hfreed q hin hout))
      obtain ⟨e, he, rfl⟩ := List.mem_map.mp hleft
      obtain ⟨-, node', hnode', hval, -⟩ := hchain.suffix he
      obtain rfl := Option.some.inj (hq.symm.trans hnode')
      exact Or.inl (hval ▸ he)
    · refine Or.inr ⟨(hothers q hin).symm.trans hq, fun hmem => ?_⟩
      exact hin (List.mem_map.mpr ⟨_, hmem, rfl⟩)
  · rw [herase]
    by_cases hkk : k' = k
    · subst hkk
      rw [Function.update_self]
      exact iff_of_false (Option.some_ne_none e).symm fun h => h.1.2 h.2
    · rw [Function.update_of_ne hkk, hr.map, hb]
      exact and_congr_left fun hkey => (and_iff_left (hkey ▸ hkk)).symm

/-- Another value for a key that is in the table, written to its node. -/
theorem Represents.store_returns (hr : H.Represents T chains m) (hm : m k = some (p, v))
    (hw : H.key w = k) : ∃ T' chains', (T.store p w).Returns T'
      ∧ H.Represents T' chains' (Function.update m k (some (p, w))) := by
  have hmem := hr.mem_of_map hm
  obtain ⟨-, node, hnode, hval⟩ := hr.live_of_mem hmem
  obtain rfl : node.val = v := hval
  have hnode : T.heap p = some node := hnode
  have hk : H.key node.val = k := hr.key_of_map hm
  have hkey : ∀ e ∈ chains (H.hash k), H.key (if e.1 = p then (p, w) else e).2 = H.key e.2 := by
    intro e he
    split
    · next hep => rw [← (hr.chain _).val_of_mem he (hep ▸ hnode), hk, hw]
    · rfl
  have hstore : (T.store p w).Returns (T.relink (H.hash k) (T.heads (H.hash k))
      (Function.update T.heap p (some { node with val := w }))) := by
    rw [Table.store, load_of_some hnode, pure_bind, Table.relink, Function.update_eq_self]
    exact returns_pure.mpr rfl
  refine ⟨_, _, hstore, hr.relink ((hr.chain _).store hnode w) (fun b hb e he => ?_) ?_
    (fun q node' hq => ?_) (fun k' e hb => ?_)
    (fun k' hb => Function.update_of_ne (fun heq => hb (by rw [heq])) _ _) fun e he => ?_⟩
  · refine Function.update_of_ne (fun hep => hr.not_mem_of_ne he hb ?_) _ _
    exact List.mem_map.mpr ⟨_, hmem, hep.symm⟩
  · rw [List.map_map]
    exact (List.map_congr_left hkey).symm ▸ hr.once _
  · rw [mem_map_store hmem]
    by_cases hqp : q = p
    · subst hqp
      rw [Function.update_self] at hq
      obtain rfl := Option.some.inj hq
      exact Or.inl (Or.inl rfl)
    · rw [Function.update_of_ne hqp] at hq
      by_cases hold : (q, node'.val) ∈ chains (H.hash k)
      · exact Or.inl (Or.inr ⟨hold, hqp⟩)
      · exact Or.inr ⟨hq, hold⟩
  · rw [mem_map_store hmem]
    by_cases hkk : k' = k
    · subst hkk
      rw [Function.update_self]
      constructor
      · rintro ⟨⟩
        exact ⟨Or.inl rfl, hw⟩
      · rintro ⟨rfl | ⟨he, hne⟩, heq⟩
        · rfl
        · obtain rfl := Option.some.inj (((hr.map k' e).mpr ⟨he, heq⟩).symm.trans hm)
          exact absurd rfl hne
    · rw [Function.update_of_ne hkk, hr.map, hb]
      refine and_congr_left fun heq => ?_
      have hnot : e ≠ (p, w) := by
        rintro rfl
        exact hkk (heq.symm.trans hw)
      rw [or_iff_right hnot]
      refine (and_iff_left_of_imp fun he hep => hkk ?_).symm
      rw [← heq, ← (hr.chain _).val_of_mem he (hep ▸ hnode), hk]
  · obtain ⟨e, he', rfl⟩ := List.mem_map.mp he
    rw [hkey e he']
    exact hr.bucket _ e he'

end Changes

end Hashing

end Tracep.Linked
