import Mathlib.Data.List.MinMax
import Tracep.Lib.Bytes

/-!
# Regular expressions

An expression gives all ways in which a text can begin with it, each with
what it captures and with the rest of the text. A repetition takes as much as
it can first, so the first way is the one of a matcher that backtracks, and
the first of the longest is the one of POSIX. Both are a `pick` from the ways
(`Picks`), and where only one way leads on they come to the same
(`plus_bind`, `star_bind`, `plus_bind_sep`).
-/

namespace Tracep

/-- What is captured, and the rest of the text. -/
def Regex (α : Type) : Type := Bytes → List (α × Bytes)

namespace Regex

variable {α β : Type}

instance monad : Monad Regex where
  pure a s := [(a, s)]
  bind r k s := (r s).flatMap fun e => k e.1 e.2

/-- A text as it stands. -/
def lit (t : Bytes) : Regex Unit := fun s =>
  if t.isPrefixOf s then [((), s.drop t.length)] else []

/-- Bytes of a class, at least one and as many as there are. -/
def plus (p : UInt8 → Bool) : Regex Bytes
  | [] => []
  | b :: s => if p b then (plus p s).map (fun e => (b :: e.1, e.2)) ++ [([b], s)] else []

def star (p : UInt8 → Bool) : Regex Bytes := fun s => plus p s ++ [([], s)]

def alt (r r' : Regex α) : Regex α := fun s => r s ++ r' s

/-- An expression, or nothing. -/
def opt (r : Regex α) : Regex (Option α) := fun s =>
  (r s).map (fun e => (some e.1, e.2)) ++ [(none, s)]

/-! ## Which way is taken -/

/-- The first of the longest. -/
def longest (l : List (α × Bytes)) : Option (α × Bytes) := l.argmin fun e => e.2.length

/-- A way is taken if there is one, and none that is longer than all before it. -/
structure Picks (pick : {α : Type} → List (α × Bytes) → Option (α × Bytes)) : Prop where
  mem {α : Type} {l : List (α × Bytes)} {e : α × Bytes} : pick l = some e → e ∈ l
  isSome {α : Type} {l : List (α × Bytes)} : l ≠ [] → (pick l).isSome = true
  append {α : Type} {l l' : List (α × Bytes)} : l ≠ [] →
    (∀ e ∈ l, ∀ e' ∈ l', e.2.length ≤ e'.2.length) → pick (l ++ l') = pick l
  map {α β : Type} (g : α → β) (l : List (α × Bytes)) :
    pick (l.map fun e => (g e.1, e.2)) = (pick l).map fun e => (g e.1, e.2)

theorem picks_head : Picks (fun {_} => List.head?) where
  mem h := List.mem_of_head? h
  isSome h := List.isSome_head?.mpr h
  append h _ := List.head?_append_of_ne_nil _ h
  map _ _ := List.head?_map

theorem picks_longest : Picks longest where
  mem h := List.argmin_mem h
  isSome h := by
    rw [longest, Option.isSome_iff_ne_none, ne_eq, List.argmin_eq_none]
    exact h
  append := by
    intro α l l' hne h
    rw [longest, longest]
    cases hm : l.argmin fun e => e.2.length with
    | none => exact absurd (List.argmin_eq_none.mp hm) hne
    | some m =>
        have hm' := h m (List.argmin_mem hm)
        induction l' using List.reverseRecOn with
        | nil => rw [List.append_nil, hm]
        | append_singleton l' e ih =>
            have hl' := ih (fun d hd d' hd' => h d hd d' (List.mem_append_left _ hd'))
              fun d' hd' => hm' d' (List.mem_append_left _ hd')
            have hle := hm' e (List.mem_append_right _ (List.mem_singleton_self e))
            rw [← List.append_assoc, List.argmin_concat, hl']
            exact if_neg (Nat.not_lt.mpr hle)
  map {α β} g l := by
    rw [longest, longest]
    induction l with
    | nil => rfl
    | cons e l ih =>
        rw [List.map_cons, List.argmin_cons, List.argmin_cons, ih]
        cases l.argmin fun e => e.2.length with
        | none => rfl
        | some m =>
            by_cases hlt : m.2.length < e.2.length
            · simp only [Option.map_some, if_pos hlt]
            · simp only [Option.map_some, if_neg hlt]

section Pick

variable {pick : {α : Type} → List (α × Bytes) → Option (α × Bytes)} {e : α × Bytes}
  {l : List (α × Bytes)}

theorem Picks.nil (h : Picks pick) : pick ([] : List (α × Bytes)) = none := by
  cases he : pick ([] : List (α × Bytes)) with
  | none => rfl
  | some e => cases h.mem he

theorem Picks.cons (h : Picks pick) (hl : ∀ e' ∈ l, e.2.length ≤ e'.2.length) :
    pick (e :: l) = some e := by
  obtain ⟨e', he'⟩ := Option.isSome_iff_exists.mp (h.isSome (List.cons_ne_nil e []))
  have happend := @Picks.append _ h _ [e] l (List.cons_ne_nil _ _)
    fun d hd d' hd' => List.mem_singleton.mp hd ▸ hl d' hd'
  rw [← List.singleton_append, happend, he', List.mem_singleton.mp (h.mem he')]

end Pick

/-! ## The ways of an expression -/

section Ways

variable {p : UInt8 → Bool} {r : Regex α} {k : Regex β} {s t u w rest : Bytes} {b : UInt8}
  {e : α × Bytes}

theorem bind_eq (r : Regex α) (k : α → Regex β) (s : Bytes) :
    (r >>= k) s = (r s).flatMap fun e => k e.1 e.2 := rfl

theorem lit_append (t s : Bytes) : lit t (t ++ s) = [((), s)] := by
  rw [lit, if_pos (List.isPrefixOf_iff_prefix.mpr (List.prefix_append t s)), List.drop_left]

theorem lit_cons_of_ne {a : UInt8} (h : a ≠ b) : lit (a :: t) (b :: s) = [] := by
  rw [lit, if_neg]
  rw [List.isPrefixOf_iff_prefix]
  exact fun hstart => h (List.cons_prefix_cons.mp hstart).1

theorem lit_bind_of_ne {a : UInt8} (h : a ≠ b) (k : Unit → Regex α) :
    (lit (a :: t) >>= k) (b :: s) = [] := by
  rw [bind_eq, lit_cons_of_ne h]
  rfl

theorem lit_bind (t s : Bytes) (k : Unit → Regex α) : (lit t >>= k) (t ++ s) = k () s := by
  rw [bind_eq, lit_append]
  exact List.flatMap_singleton ..

theorem byte_bind (b : UInt8) (s : Bytes) (k : Unit → Regex α) :
    (lit [b] >>= k) (b :: s) = k () s := lit_bind [b] s k

theorem plus_cons_of_neg (h : p b = false) : plus p (b :: s) = [] := by
  rw [plus, if_neg (by rw [h]; exact Bool.false_ne_true)]

theorem mem_plus : (t, rest) ∈ plus p s ↔ s = t ++ rest ∧ t ≠ [] ∧ ∀ b ∈ t, p b = true := by
  induction s generalizing t with
  | nil =>
      refine iff_of_false List.not_mem_nil ?_
      rintro ⟨happend, hne, -⟩
      exact hne (List.append_eq_nil_iff.mp happend.symm).1
  | cons b s ih =>
      rw [plus]
      by_cases hb : p b = true
      · rw [if_pos hb, List.mem_append, List.mem_map, List.mem_singleton, Prod.mk.injEq]
        constructor
        · rintro (⟨⟨t', rest'⟩, hmem, heq⟩ | ⟨rfl, rfl⟩)
          · obtain ⟨rfl, rfl⟩ := Prod.mk.inj heq
            obtain ⟨rfl, -, hall⟩ := ih.mp hmem
            exact ⟨rfl, List.cons_ne_nil _ _, List.forall_mem_cons.mpr ⟨hb, hall⟩⟩
          · exact ⟨rfl, List.cons_ne_nil _ _, List.forall_mem_cons.mpr ⟨hb, nofun⟩⟩
        · rintro ⟨happend, hne, hall⟩
          obtain ⟨c, t, rfl⟩ := List.exists_cons_of_ne_nil hne
          obtain ⟨rfl, rfl⟩ := List.cons.inj happend
          by_cases ht : t = []
          · rw [ht]
            exact Or.inr ⟨rfl, rfl⟩
          · have hmem := ih.mpr ⟨rfl, ht, (List.forall_mem_cons.mp hall).2⟩
            exact Or.inl ⟨_, hmem, rfl⟩
      · rw [if_neg hb]
        refine iff_of_false List.not_mem_nil ?_
        rintro ⟨happend, hne, hall⟩
        obtain ⟨c, t, rfl⟩ := List.exists_cons_of_ne_nil hne
        obtain ⟨rfl, -⟩ := List.cons.inj happend
        exact hb (hall _ List.mem_cons_self)

theorem mem_lit : (((), rest) : Unit × Bytes) ∈ lit t s ↔ s = t ++ rest := by
  rw [lit]
  split
  · next h =>
      obtain ⟨s, rfl⟩ := List.isPrefixOf_iff_prefix.mp h
      rw [List.drop_left, List.mem_singleton, Prod.mk.injEq, and_iff_right rfl,
        List.append_cancel_left_eq, eq_comm]
  · next h =>
      refine iff_of_false List.not_mem_nil ?_
      rintro rfl
      exact h (List.isPrefixOf_iff_prefix.mpr (List.prefix_append t rest))

end Ways

/-! ## Where only one way leads on -/

section OneWay

variable {p : UInt8 → Bool} {k : Bytes → Regex β} {s v w : Bytes} {c : UInt8}

/-- The text ends, or goes on with a byte that is not of the class. -/
def Stops (p : UInt8 → Bool) (s : Bytes) : Prop := ∀ b ∈ s.head?, p b = false

theorem plus_stops (h : Stops p s) : plus p s = [] := by
  cases s with
  | nil => rfl
  | cons b s => exact plus_cons_of_neg (h b rfl)

/-- All of the class is the longest way. -/
theorem exists_plus_append (hne : w ≠ []) (hw : ∀ b ∈ w, p b = true) (hs : Stops p s) :
    ∃ l, plus p (w ++ s) = (w, s) :: l ∧ ∀ e ∈ l, s.length ≤ e.2.length := by
  induction w with
  | nil => exact absurd rfl hne
  | cons b w ih =>
      obtain ⟨hb, hw⟩ := List.forall_mem_cons.mp hw
      rw [List.cons_append, plus, if_pos hb]
      cases w with
      | nil =>
          rw [List.nil_append, plus_stops hs]
          exact ⟨[], rfl, nofun⟩
      | cons b' w =>
          obtain ⟨l, heq, hl⟩ := ih (List.cons_ne_nil _ _) hw
          rw [heq]
          refine ⟨_, rfl, fun e he => ?_⟩
          rcases List.mem_append.mp he with he | he
          · obtain ⟨e', he', rfl⟩ := List.mem_map.mp he
            exact hl e' he'
          · rw [List.mem_singleton.mp he, List.length_append]
            omega

/-- A run goes on, or what comes next is read behind its first byte. -/
theorem plus_bind_cons {k : Bytes → Regex β} (hb : p b = true) (s : Bytes) :
    (plus p >>= k) (b :: s) = (plus p >>= fun t => k (b :: t)) s ++ k [b] s := by
  rw [bind_eq, plus, if_pos hb, List.flatMap_append, List.flatMap_map, List.flatMap_singleton]
  rfl

/-- What comes next does not begin with the class. -/
theorem plus_bind (hne : w ≠ []) (hw : ∀ b ∈ w, p b = true) (hs : Stops p s)
    (hk : ∀ t b s', p b = true → k t (b :: s') = []) : (plus p >>= k) (w ++ s) = k w s := by
  induction w generalizing k with
  | nil => exact absurd rfl hne
  | cons b w ih =>
      obtain ⟨hb, hw⟩ := List.forall_mem_cons.mp hw
      rw [List.cons_append, plus_bind_cons hb]
      cases w with
      | nil =>
          rw [bind_eq, List.nil_append, plus_stops hs]
          rfl
      | cons b' w =>
          rw [List.cons_append, hk _ _ _ (hw b' List.mem_cons_self), List.append_nil]
          exact @ih (fun t => k (b :: t)) (List.cons_ne_nil _ _) hw fun t => hk (b :: t)

theorem star_bind (hw : ∀ b ∈ w, p b = true) (hs : Stops p s)
    (hk : ∀ t b s', p b = true → k t (b :: s') = []) : (star p >>= k) (w ++ s) = k w s := by
  have hstar : (star p >>= k) (w ++ s) = (plus p >>= k) (w ++ s) ++ k [] (w ++ s) := by
    rw [bind_eq, star, List.flatMap_append, List.flatMap_singleton]
    rfl
  rw [hstar]
  cases w with
  | nil =>
      rw [bind_eq, List.nil_append, plus_stops hs]
      rfl
  | cons b w =>
      rw [plus_bind (List.cons_ne_nil _ _) hw hs hk, List.cons_append,
        hk [] b _ (hw b List.mem_cons_self), List.append_nil]

/-- Where bytes of the class are over there is no separator. -/
theorem ne_sep {t rest : Bytes} {b : UInt8} (hc : p c = true) (hv : ∀ b ∈ v, b ≠ c)
    (hs : Stops p s) (ht : ∀ b ∈ t, p b = true) (h : v ++ s = t ++ b :: rest) : b ≠ c := by
  have hstop : ∀ b, p b = false → b ≠ c := by
    rintro b hb rfl
    rw [hb] at hc
    cases hc
  rcases List.append_eq_append_iff.mp h with ⟨z, rfl, hz⟩ | ⟨z, rfl, hz⟩
  · cases z with
    | nil => exact hstop b (hs b (by rw [hz]; rfl))
    | cons x z =>
        have hx := hs x (by rw [hz]; rfl)
        rw [ht x (List.mem_append_right _ List.mem_cons_self)] at hx
        cases hx
  · cases z with
    | nil =>
        have hz : b :: rest = s := hz
        exact hstop b (hs b (by rw [← hz]; rfl))
    | cons x z =>
        obtain ⟨rfl, -⟩ := List.cons.inj hz
        exact hv b (List.mem_append_right _ List.mem_cons_self)

/-- What comes next begins with a byte of the class, and it is the last one of its kind. -/
theorem plus_bind_sep (hne : w ≠ []) (hw : ∀ b ∈ w, p b = true) (hc : p c = true)
    (hv : ∀ b ∈ v, p b = true ∧ b ≠ c) (hs : Stops p s)
    (hnil : ∀ t, k t [] = []) (hsep : ∀ t b s', b ≠ c → k t (b :: s') = [])
    (hlast : ∀ t y, c ∈ y → (∀ b ∈ y, p b = true) → k t (c :: (y ++ s)) = []) :
    (plus p >>= k) (w ++ c :: (v ++ s)) = k w (c :: (v ++ s)) := by
  induction w generalizing k with
  | nil => exact absurd rfl hne
  | cons b w ih =>
      obtain ⟨hb, hw⟩ := List.forall_mem_cons.mp hw
      rw [List.cons_append, plus_bind_cons hb]
      cases w with
      | nil =>
          -- behind the separator there is no other one
          rw [bind_eq, List.nil_append]
          refine (congrArg (· ++ _) (List.flatMap_eq_nil_iff.mpr ?_)).trans (List.nil_append _)
          rintro ⟨t, rest⟩ hmem
          obtain ⟨happend, ht, hall⟩ := mem_plus.mp hmem
          obtain ⟨d, t, rfl⟩ := List.exists_cons_of_ne_nil ht
          cases rest with
          | nil => exact hnil _
          | cons b' rest =>
              obtain ⟨-, hrest⟩ := List.cons.inj happend
              have hall := (List.forall_mem_cons.mp hall).2
              exact hsep _ b' rest (ne_sep hc (fun b hb => (hv b hb).2) hs hall hrest)
      | cons b' w =>
          have hsecond : k [b] (b' :: w ++ c :: (v ++ s)) = [] := by
            by_cases hb' : b' = c
            · have hall : ∀ d ∈ w ++ c :: v, p d = true := by
                intro d hd
                rcases List.mem_append.mp hd with hd | hd
                · exact hw d (List.mem_cons_of_mem _ hd)
                · rcases List.mem_cons.mp hd with rfl | hd
                  · exact hc
                  · exact (hv d hd).1
              have hnext := hlast [b] _ (List.mem_append_right w List.mem_cons_self) hall
              rw [List.append_assoc] at hnext
              rw [hb']
              exact hnext
            · exact hsep [b] b' _ hb'
          rw [hsecond, List.append_nil]
          exact @ih (fun t => k (b :: t)) (List.cons_ne_nil _ _) hw (fun t => hnil _)
            (fun t => hsep _) fun t => hlast _

end OneWay

/-! ## A match anywhere -/

section Anywhere

variable {p : UInt8 → Bool} {r : Regex α} {s u : Bytes} {b : UInt8} {e : α × Bytes}

/-- `.*` and an expression. -/
def anywhere (p : UInt8 → Bool) (r : Regex α) : Regex α := do
  let _ ← star p
  r

/-- The last place comes first. -/
theorem anywhere_cons (hb : p b = true) :
    anywhere p r (b :: s) = anywhere p r s ++ r (b :: s) := by
  rw [anywhere, bind_eq, bind_eq, star, star, plus, if_pos hb]
  simp only [List.flatMap_append, List.flatMap_map, List.flatMap_cons, List.flatMap_nil,
    List.append_nil, List.append_assoc]

theorem exists_of_mem_anywhere (h : e ∈ anywhere p r s) : ∃ t s', s = t ++ s' ∧ e ∈ r s' := by
  obtain ⟨⟨t, s'⟩, hstar, he⟩ := List.mem_flatMap.mp h
  refine ⟨t, s', ?_, he⟩
  rcases List.mem_append.mp hstar with hplus | hnone
  · exact (mem_plus.mp hplus).1
  · obtain ⟨rfl, rfl⟩ := Prod.mk.inj (List.mem_singleton.mp hnone)
    rfl

theorem anywhere_skip (hu : ∀ b ∈ u, p b = true)
    (h : ∀ y, y ≠ [] → y <:+ u → r (y ++ s) = []) : anywhere p r (u ++ s) = anywhere p r s := by
  induction u with
  | nil => rfl
  | cons b u ih =>
      obtain ⟨hb, hu⟩ := List.forall_mem_cons.mp hu
      rw [List.cons_append, anywhere_cons hb, ← List.cons_append,
        h (b :: u) (List.cons_ne_nil _ _) List.suffix_rfl, List.append_nil]
      exact ih hu fun y hne hy => h y hne (hy.trans (List.suffix_cons b u))

theorem exists_anywhere_append (hu : ∀ b ∈ u, p b = true) :
    ∃ l, anywhere p r (u ++ s) = anywhere p r s ++ l
      ∧ ∀ e ∈ l, ∃ y, y <:+ u ∧ e ∈ r (y ++ s) := by
  induction u with
  | nil => exact ⟨[], (List.append_nil _).symm, nofun⟩
  | cons b u ih =>
      obtain ⟨hb, hu⟩ := List.forall_mem_cons.mp hu
      obtain ⟨l, heq, hl⟩ := ih hu
      refine ⟨l ++ r (b :: u ++ s), ?_, ?_⟩
      · rw [List.cons_append, anywhere_cons hb, heq, List.append_assoc]
      · intro e he
        rcases List.mem_append.mp he with he | he
        · obtain ⟨y, hy, hmem⟩ := hl e he
          exact ⟨y, hy.trans (List.suffix_cons b u), hmem⟩
        · exact ⟨b :: u, List.suffix_rfl, he⟩

end Anywhere

/-! ## The first place -/

section Search

variable {pick : {α : Type} → List (α × Bytes) → Option (α × Bytes)} {r : Regex α} {s u : Bytes}
  {e : α × Bytes}

/-- What is captured at the first place where a text goes on with an expression. -/
def search (pick : {α : Type} → List (α × Bytes) → Option (α × Bytes)) (r : Regex α) :
    Bytes → Option α
  | [] => (pick (r [])).map Prod.fst
  | b :: s => ((pick (r (b :: s))).map Prod.fst).or (search pick r s)

theorem search_skip (hpick : Picks pick) (h : ∀ y, y ≠ [] → y <:+ u → r (y ++ s) = []) :
    search pick r (u ++ s) = search pick r s := by
  induction u with
  | nil => rfl
  | cons b u ih =>
      rw [List.cons_append, search, ← List.cons_append,
        h (b :: u) (List.cons_ne_nil _ _) List.suffix_rfl, hpick.nil, Option.map_none,
        Option.none_or]
      exact ih fun y hne hy => h y hne (hy.trans (List.suffix_cons b u))

theorem search_here (hpick : Picks pick) (h : r s = [e]) : search pick r s = some e.1 := by
  have hone : pick (r s) = some e := by
    rw [h]
    exact hpick.cons nofun
  cases s with
  | nil => rw [search, hone, Option.map_some]
  | cons b s => rw [search, hone, Option.map_some, Option.some_or]

end Search

end Regex

end Tracep
