import Tracep.Lib.Loop
import Mathlib.Data.List.Basic

/-!
# Streams of framed records

A `Framing` cuts the first record off a stream, and always consumes
something, so cutting repeatedly stops: `frames` is the list of records it
yields. Two facts carry over from one cut to the whole stream. If cutting
undoes an encoder whatever follows the record, then `frames` undoes the
encoding of a list of records (`frames_encode`). If each cut hands out a
piece of the stream lying before the rest, then the records are pieces of
the stream, one after another (`frames_pieces`).

A loop that cuts off one record an iteration, and keeps it somehow, ends
with all the records of the stream kept (`loop_frames`).

A stricter way of cutting, one that may refuse a record another accepts,
yields the first of its records (`frames_begins`), and the same exactly when
it refuses none of those the other comes to (`frames_eq_iff`).
-/

namespace Tracep

/-- A way to cut the first record off a stream. -/
structure Framing (α β : Type) where
  next : List α → Option (β × List α)
  shrink : ∀ {s : List α} {b : β} {r : List α}, next s = some (b, r) → r.length < s.length

/-- The lists `fs` lie in `s` one after another, without overlap. -/
inductive Pieces {α : Type} : List (List α) → List α → Prop where
  | nil {s : List α} : Pieces [] s
  | cons {fs : List (List α)} {r : List α} (g f : List α) :
      Pieces fs r → Pieces (f :: fs) (g ++ f ++ r)

theorem Pieces.prepend {α : Type} {fs : List (List α)} {r : List α} (h : Pieces fs r)
    (t : List α) : Pieces fs (t ++ r) := by
  cases h with
  | nil => exact .nil
  | cons g f hp =>
      rw [← List.append_assoc, ← List.append_assoc]
      exact .cons (t ++ g) f hp

namespace Framing

open Exec Relation

variable {α β γ : Type} (F : Framing α β)

/-- Cut records off the stream until no more can be. -/
def frames (s : List α) : List β :=
  match h : F.next s with
  | none => []
  | some (b, r) =>
      have := F.shrink h
      b :: frames r
termination_by s.length

theorem frames_of_none {s : List α} (h : F.next s = none) : F.frames s = [] := by
  rw [frames]
  split
  · rfl
  · rename_i heq
    rw [h] at heq
    cases heq

theorem frames_of_some {s r : List α} {b : β} (h : F.next s = some (b, r)) :
    F.frames s = b :: F.frames r := by
  rw [frames]
  split
  · rename_i heq
    rw [h] at heq
    cases heq
  · rename_i heq
    rw [h] at heq
    cases heq
    rfl

theorem frames_nil : F.frames [] = [] := by
  cases h : F.next [] with
  | none => exact F.frames_of_none h
  | some x => exact absurd (F.shrink h) (Nat.not_lt_zero _)

/-- If cutting undoes `enc` whatever follows, it undoes a list of records
followed by anything. -/
theorem frames_encode {enc : γ → List α} {dec : γ → β}
    (hnext : ∀ c s, F.next (enc c ++ s) = some (dec c, s)) (s : List α) :
    ∀ cs : List γ, F.frames ((cs.map enc).flatten ++ s) = cs.map dec ++ F.frames s
  | [] => rfl
  | c :: cs => by
      rw [List.map_cons, List.flatten_cons, List.append_assoc,
        F.frames_of_some (hnext c _), frames_encode hnext s cs]
      rfl

/-- If every cut hands out a piece lying before the rest, the records are
pieces of the stream, in order. -/
theorem frames_pieces (F : Framing α (List α))
    (hnext : ∀ s f r, F.next s = some (f, r) → ∃ g t, s = g ++ f ++ (t ++ r)) (s : List α) :
    Pieces (F.frames s) s := by
  generalize hn : s.length = n
  induction n using Nat.strongRecOn generalizing s with
  | _ n ih =>
      cases h : F.next s with
      | none =>
          rw [F.frames_of_none h]
          exact .nil
      | some p =>
          obtain ⟨f, r⟩ := p
          obtain ⟨g, t, hs⟩ := hnext s f r h
          have hrest : Pieces (F.frames r) r := ih r.length (hn ▸ F.shrink h) r rfl
          rw [F.frames_of_some h]
          have := Pieces.cons g f (hrest.prepend t)
          rwa [← hs] at this

/-! ## Where the cutting comes to -/

/-- Cutting one record off `s` leaves `r`. -/
def Cuts (s r : List α) : Prop := ∃ b, F.next s = some (b, r)

/-- The records are what is cut off where the cutting comes to. -/
theorem mem_frames_iff {s : List α} {b : β} :
    b ∈ F.frames s ↔ ∃ r t, ReflTransGen F.Cuts s r ∧ F.next r = some (b, t) := by
  constructor
  · generalize hn : s.length = n
    induction n using Nat.strongRecOn generalizing s with
    | _ n ih =>
        intro hb
        cases hnext : F.next s with
        | none =>
            rw [F.frames_of_none hnext] at hb
            cases hb
        | some p =>
            obtain ⟨b', r⟩ := p
            rw [F.frames_of_some hnext] at hb
            rcases List.mem_cons.mp hb with rfl | hb
            · exact ⟨s, r, .refl, hnext⟩
            · obtain ⟨r', t, hr, ht⟩ := ih r.length (hn ▸ F.shrink hnext) rfl hb
              exact ⟨r', t, .head ⟨b', hnext⟩ hr, ht⟩
  · rintro ⟨r, t, hr, ht⟩
    induction hr using ReflTransGen.head_induction_on with
    | refl =>
        rw [F.frames_of_some ht]
        exact List.mem_cons_self
    | head hcut _ ih =>
        obtain ⟨b', hnext⟩ := hcut
        rw [F.frames_of_some hnext]
        exact List.mem_cons_of_mem _ ih

/-! ## Records with a header -/

section Headed

variable (ok : List α → Prop) [DecidablePred ok] (rec : List α → β) (after : List α → List α)
  (hshrink : ∀ s, ok s → (after s).length < s.length)

theorem headed_shrink {s r : List α} {b : β} (hshrink : ∀ s, ok s → (after s).length < s.length)
    (h : (if ok s then some (rec s, after s) else none) = some (b, r)) :
    r.length < s.length := by
  by_cases hok : ok s
  · rw [if_pos hok] at h
    obtain ⟨-, rfl⟩ := Prod.mk.inj (Option.some.inj h)
    exact hshrink s hok
  · rw [if_neg hok] at h
    cases h

/-- Records that their header tells: whether there is one, what it is and what follows it. -/
def headed : Framing α β :=
  ⟨fun s => if ok s then some (rec s, after s) else none, headed_shrink ok rec after hshrink⟩

variable {ok rec after hshrink} {s r : List α} {b : β}

theorem headed_next_of (h : ok s) :
    (headed ok rec after hshrink).next s = some (rec s, after s) := if_pos h

theorem headed_next_none (h : ¬ok s) : (headed ok rec after hshrink).next s = none := if_neg h

theorem headed_next_iff :
    (headed ok rec after hshrink).next s = some (b, r) ↔ ok s ∧ b = rec s ∧ r = after s := by
  by_cases h : ok s
  · rw [headed_next_of h, Option.some.injEq, Prod.mk.injEq]
    exact ⟨fun ⟨hb, hr⟩ => ⟨h, hb.symm, hr.symm⟩, fun ⟨_, hb, hr⟩ => ⟨hb.symm, hr.symm⟩⟩
  · rw [headed_next_none h]
    exact ⟨(nomatch ·), fun h' => absurd h'.1 h⟩

theorem headed_cuts_iff :
    (headed ok rec after hshrink).Cuts s r ↔ ok s ∧ r = after s := by
  constructor
  · rintro ⟨b, h⟩
    obtain ⟨hok, -, hr⟩ := headed_next_iff.mp h
    exact ⟨hok, hr⟩
  · rintro ⟨hok, rfl⟩
    exact ⟨rec s, headed_next_of hok⟩

theorem headed_frames_of (h : ok s) :
    (headed ok rec after hshrink).frames s = rec s :: (headed ok rec after hshrink).frames (after s) :=
  frames_of_some _ (headed_next_of h)

theorem headed_frames_none (h : ¬ok s) : (headed ok rec after hshrink).frames s = [] :=
  frames_of_none _ (headed_next_none h)

end Headed

/-! ## Two ways of cutting -/

/-- Where `G` cuts as `F` does or not at all, it yields the records of `F` exactly when it
cuts wherever `F` comes to a record. -/
theorem frames_eq_iff {F G : Framing α β} (hle : ∀ s x, G.next s = some x → F.next s = some x)
    (s : List α) :
    G.frames s = F.frames s
      ↔ ∀ r, ReflTransGen F.Cuts s r → (F.next r).isSome → (G.next r).isSome := by
  generalize hn : s.length = n
  induction n using Nat.strongRecOn generalizing s with
  | _ n ih =>
      cases hF : F.next s with
      | none =>
          have hG : G.next s = none := by
            cases hG : G.next s with
            | none => rfl
            | some x => exact absurd (hle s x hG) (by simp [hF])
          refine iff_of_true (by rw [F.frames_of_none hF, G.frames_of_none hG]) ?_
          intro r hr hsome
          rcases hr.cases_head with rfl | ⟨t, ⟨b, h⟩, -⟩
          · simp [hF] at hsome
          · simp [hF] at h
      | some x =>
          obtain ⟨b, r⟩ := x
          cases hG : G.next s with
          | none =>
              rw [G.frames_of_none hG, F.frames_of_some hF]
              refine iff_of_false (List.cons_ne_nil _ _).symm fun h => ?_
              have := h s .refl (by simp [hF])
              simp [hG] at this
          | some y =>
              obtain rfl : y = (b, r) := Option.some.inj ((hle s y hG).symm.trans hF)
              rw [G.frames_of_some hG, F.frames_of_some hF, List.cons.injEq,
                ih r.length (hn ▸ F.shrink hF) r rfl]
              constructor
              · rintro ⟨-, h⟩ t ht hsome
                rcases ht.cases_head with rfl | ⟨r', ⟨b', h'⟩, hr⟩
                · simp [hG]
                · obtain ⟨rfl, rfl⟩ := Prod.mk.inj (Option.some.inj (hF.symm.trans h'))
                  exact h t hr hsome
              · exact fun h => ⟨rfl, fun t ht => h t (.head ⟨b, hF⟩ ht)⟩

/-- The records of a stricter way of cutting are the first ones. -/
theorem frames_begins {F G : Framing α β} (hle : ∀ s x, G.next s = some x → F.next s = some x)
    (s : List α) : G.frames s <+: F.frames s := by
  generalize hn : s.length = n
  induction n using Nat.strongRecOn generalizing s with
  | _ n ih =>
      cases hG : G.next s with
      | none =>
          rw [G.frames_of_none hG]
          exact List.nil_prefix
      | some x =>
          rw [G.frames_of_some hG, F.frames_of_some (hle s x hG)]
          exact List.cons_prefix_cons.mpr ⟨rfl, ih _ (hn ▸ G.shrink hG) _ rfl⟩

/-! ## Loops that cut records off -/

section Loops

variable {σ κ : Type}

/-- A loop that, where it stands before a stream, cuts off one record and keeps it after
those it has, or ends when there is none. It may also end with the last record, having seen
that none follows. `Done` relates a result to the records it stands for. -/
theorem loop_frames_rel {body : σ → Exec (σ ⊕ κ)} (Stands : σ → List α → List β → Prop)
    (Done : κ → List β → Prop)
    (hend : ∀ s str acc, Stands s str acc → F.next str = none →
      ∃ k, (body s).Returns (.inr k) ∧ Done k acc)
    (hcut : ∀ s str acc b r, Stands s str acc → F.next str = some (b, r) →
      (∃ s', Next body s s' ∧ Stands s' r (acc ++ [b]))
        ∨ F.next r = none ∧ ∃ k, (body s).Returns (.inr k) ∧ Done k (acc ++ [b]))
    {s : σ} {str : List α} {acc : List β} (h : Stands s str acc) :
    ∃ k, (loop body s).Returns k ∧ Done k (acc ++ F.frames str) := by
  generalize hn : str.length = n
  induction n using Nat.strongRecOn generalizing s str acc with
  | _ n ih =>
      cases hnext : F.next str with
      | none =>
          obtain ⟨k, hret, hdone⟩ := hend s str acc h hnext
          rw [F.frames_of_none hnext, List.append_nil]
          exact ⟨k, loop_returns_now hret, hdone⟩
      | some p =>
          obtain ⟨b, r⟩ := p
          rw [F.frames_of_some hnext, List.append_cons]
          rcases hcut s str acc b r h hnext with ⟨s', hstep, h'⟩ | ⟨hlast, k, hret, hdone⟩
          · obtain ⟨k, hret, hdone⟩ := ih r.length (hn ▸ F.shrink hnext) h' rfl
            exact ⟨k, hstep.loop_returns hret, hdone⟩
          · rw [F.frames_of_none hlast, List.append_nil]
            exact ⟨k, loop_returns_now hret, hdone⟩

/-- The loop whose result is what the records make of its start, pushed one by one. -/
theorem loop_frames_last {body : σ → Exec (σ ⊕ κ)} (Stands : σ → List α → κ → Prop)
    (push : κ → β → κ)
    (hend : ∀ s str acc, Stands s str acc → F.next str = none → (body s).Returns (.inr acc))
    (hcut : ∀ s str acc b r, Stands s str acc → F.next str = some (b, r) →
      (∃ s', Next body s s' ∧ Stands s' r (push acc b))
        ∨ F.next r = none ∧ (body s).Returns (.inr (push acc b)))
    {s : σ} {str : List α} {acc : κ} (h : Stands s str acc) :
    (loop body s).Returns ((F.frames str).foldl push acc) := by
  have hrel : ∃ k, (loop body s).Returns k ∧ k = ([] ++ F.frames str).foldl push acc :=
    F.loop_frames_rel (fun s str l => Stands s str (l.foldl push acc))
      (fun k l => k = l.foldl push acc) (fun s str l hs hnext => ⟨_, hend s str _ hs hnext, rfl⟩)
      (fun s str l b r hs hnext => ?_) h
  · obtain ⟨_, hret, rfl⟩ := hrel
    exact hret
  · rw [List.foldl_append]
    rcases hcut s str _ b r hs hnext with hstep | ⟨hlast, hret⟩
    · exact Or.inl hstep
    · exact Or.inr ⟨hlast, _, hret, rfl⟩

/-- The loop that only ends when there is no record. -/
theorem loop_frames {body : σ → Exec (σ ⊕ κ)} (Stands : σ → List α → κ → Prop)
    (push : κ → β → κ)
    (hend : ∀ s str acc, Stands s str acc → F.next str = none → (body s).Returns (.inr acc))
    (hcut : ∀ s str acc b r, Stands s str acc → F.next str = some (b, r) →
      ∃ s', Next body s s' ∧ Stands s' r (push acc b))
    {s : σ} {str : List α} {acc : κ} (h : Stands s str acc) :
    (loop body s).Returns ((F.frames str).foldl push acc) :=
  F.loop_frames_last Stands push hend
    (fun s str acc b r hs hnext => Or.inl (hcut s str acc b r hs hnext)) h

/-- The loop that keeps the records in a list. -/
theorem loop_collect {body : List α × List β → Exec (List α × List β ⊕ List β)}
    (hend : ∀ str out, F.next str = none → body (str, out) = pure (.inr out))
    (hcut : ∀ str out b r, F.next str = some (b, r) →
      body (str, out) = pure (.inl (r, out ++ [b]))) (str : List α) :
    (loop body (str, [])).Returns (F.frames str) := by
  have hfold : (F.frames str).foldl (fun out b => out ++ [b]) [] = F.frames str := by
    rw [List.foldl_append_eq_append, List.nil_append, ← List.flatMap_def,
      List.flatMap_singleton']
  rw [← hfold]
  refine F.loop_frames (fun s str out => s = (str, out)) _ ?_ ?_ rfl
  · rintro _ str out rfl hnext
    rw [hend str out hnext]
    exact returns_pure.mpr rfl
  · rintro _ str out b r rfl hnext
    exact ⟨_, by rw [Next, hcut str out b r hnext]; exact returns_pure.mpr rfl, rfl⟩

end Loops

end Framing

end Tracep
