import Tracep.Lib.Clipped
import Tracep.Lib.Framing

/-!
# Records from a device

A reader hands out one record a call. It keeps what is left of the bytes it
has read last, and reads again when no record can be cut off there: then
what is left is dropped, and a read that was interrupted or brought nothing
is made again (`next`). An error is handed out in place of a record.

Calls made one after another hand out the records of what each read brings,
in order, each once, and the errors where they occur (`calls_returns`). If
one reader cuts as another does or not at all, both hand out the same
exactly when they do for each read (`delivered_clips`).
-/

namespace Tracep.Refill

open Exec

variable {α β ε σ : Type}

/-- What a read brings: some bytes, an interruption by a signal, or another error. -/
inductive Answer (α ε : Type) where
  | data (buf : List α)
  | interrupted
  | failed (e : ε)

/-- What a call hands out. -/
inductive Delivery (β ε : Type) where
  | record (b : β)
  | failed (e : ε)

/-- How a reader cuts off a record, drops what is left, and keeps what a read has brought. -/
structure Reader (σ α β : Type) where
  cut : σ → Exec (Option (β × σ))
  drop : σ → σ
  fill : σ → List α → σ

/-- One call: what is handed out, what is kept, and the reads that are left; none if it still waits
for a read. -/
def next (R : Reader σ α β) (s : σ) :
    List (Answer α ε) → Exec (Option (Delivery β ε × σ × List (Answer α ε)))
  | [] => do
      match ← R.cut s with
      | some (b, s) => return some (.record b, s, [])
      | none => return none
  | a :: as => do
      match ← R.cut s with
      | some (b, s) => return some (.record b, s, a :: as)
      | none =>
          match a with
          | .interrupted => next R (R.drop s) as
          | .failed e => return some (.failed e, R.drop s, as)
          | .data buf =>
              if buf.length = 0 then next R (R.drop s) as else next R (R.fill (R.drop s) buf) as

section Calls

variable (call : σ → List (Answer α ε) → Exec (Option (Delivery β ε × σ × List (Answer α ε))))

/-- One more call, after those that have handed something out. -/
def callsStep (s : σ × List (Answer α ε) × List (Delivery β ε)) :
    Exec (σ × List (Answer α ε) × List (Delivery β ε) ⊕ List (Delivery β ε)) := do
  match ← call s.1 s.2.1 with
  | none => return .inr s.2.2
  | some (d, r, as) => return .inl (r, as, s.2.2 ++ [d])

/-- What is handed out by calls until one waits. -/
def calls (s : σ) (as : List (Answer α ε)) : Exec (List (Delivery β ε)) :=
  loop (callsStep call) (s, as, [])

end Calls

/-! ## What is to be handed out -/

/-- What comes of a read. -/
def delivered (F : Framing α β) : Answer α ε → List (Delivery β ε)
  | .data buf => (F.frames buf).map .record
  | .interrupted => []
  | .failed e => [.failed e]

/-- What comes of the bytes that are left, and of the reads. -/
def deliveries (F : Framing α β) (rest : List α) (as : List (Answer α ε)) : List (Delivery β ε) :=
  (F.frames rest).map .record ++ as.flatMap (delivered F)

variable {F : Framing α β} {rest : List α} {as : List (Answer α ε)}

theorem deliveries_of_none (h : F.next rest = none) :
    deliveries F rest as = as.flatMap (delivered F) := by
  rw [deliveries, F.frames_of_none h]
  rfl

theorem deliveries_nil : deliveries F [] as = as.flatMap (delivered F) := by
  rw [deliveries, F.frames_nil]
  rfl

theorem deliveries_of_some {b : β} {rest' : List α} (h : F.next rest = some (b, rest')) :
    deliveries F rest as = .record b :: deliveries F rest' as := by
  rw [deliveries, F.frames_of_some h]
  rfl

/-! ## Readers of a stream -/

/-- A reader cuts records off the bytes that it stands before, if every read is good. -/
structure Reads (R : Reader σ α β) (F : Framing α β) (Good : List α → Prop)
    (Stands : σ → List α → Prop) : Prop where
  cut_none : ∀ {s rest}, Stands s rest → F.next rest = none → (R.cut s).Returns none
  cut_some : ∀ {s rest b rest'}, Stands s rest → F.next rest = some (b, rest') →
    ∃ s', (R.cut s).Returns (some (b, s')) ∧ Stands s' rest'
  drop : ∀ {s rest}, Stands s rest → Stands (R.drop s) []
  fill : ∀ {s rest buf}, Stands s rest → Good buf → Stands (R.fill s buf) buf

section Runs

variable {R : Reader σ α β} {Good : List α → Prop} {Stands : σ → List α → Prop} {s : σ}
  (hR : Reads R F Good Stands)
include hR

/-- A call hands out what comes first, or waits if nothing comes. -/
theorem next_returns (hs : Stands s rest) (hgood : ∀ buf, .data buf ∈ as → Good buf) :
    (deliveries F rest as = [] ∧ (next R s as).Returns none)
      ∨ ∃ d s' rest' as', (next R s as).Returns (some (d, s', as')) ∧ Stands s' rest'
        ∧ as' <:+ as ∧ deliveries F rest as = d :: deliveries F rest' as' := by
  induction as generalizing s rest with
  | nil =>
      cases hnext : F.next rest with
      | none =>
          refine Or.inl ⟨deliveries_of_none hnext, ?_⟩
          rw [next, (hR.cut_none hs hnext).bind_iff]
          exact returns_pure.mpr rfl
      | some x =>
          obtain ⟨s', hcut, hs'⟩ := hR.cut_some hs hnext
          refine Or.inr ⟨_, s', x.2, [], ?_, hs', List.suffix_refl _, deliveries_of_some hnext⟩
          rw [next, hcut.bind_iff]
          exact returns_pure.mpr rfl
  | cons a as ih =>
      have hgood' : ∀ buf, .data buf ∈ as → Good buf := fun buf h =>
        hgood buf (List.mem_cons_of_mem a h)
      cases hnext : F.next rest with
      | some x =>
          obtain ⟨s', hcut, hs'⟩ := hR.cut_some hs hnext
          refine Or.inr ⟨_, s', x.2, a :: as, ?_, hs', List.suffix_refl _, deliveries_of_some hnext⟩
          rw [next.eq_def, hcut.bind_iff]
          exact returns_pure.mpr rfl
      | none =>
          -- what the read brings comes first
          have hdrop := hR.drop hs
          have hcut := hR.cut_none hs hnext
          have hall : deliveries F rest (a :: as) = delivered F a ++ as.flatMap (delivered F) := by
            rw [deliveries_of_none hnext, List.flatMap_cons]
          -- a call goes on as it would have gone on from the next read
          have hstep : ∀ {s₁ rest₁}, Stands s₁ rest₁ →
              deliveries F rest (a :: as) = deliveries F rest₁ as →
              (∀ r, (next R s (a :: as)).Returns r ↔ (next R s₁ as).Returns r) →
              (deliveries F rest (a :: as) = [] ∧ (next R s (a :: as)).Returns none)
                ∨ ∃ d s' rest' as', (next R s (a :: as)).Returns (some (d, s', as'))
                  ∧ Stands s' rest' ∧ as' <:+ a :: as
                  ∧ deliveries F rest (a :: as) = d :: deliveries F rest' as' := by
            intro s₁ rest₁ hs₁ hsame hcall
            rcases ih hs₁ hgood' with ⟨hnone, hret⟩ | ⟨d, s', rest', as', hret, hs', has, hcons⟩
            · exact Or.inl ⟨hsame.trans hnone, (hcall _).mpr hret⟩
            · exact Or.inr ⟨d, s', rest', as', (hcall _).mpr hret, hs',
                has.trans (List.suffix_cons a as), hsame.trans hcons⟩
          cases a with
          | interrupted =>
              refine hstep hdrop (hall.trans deliveries_nil.symm) fun r => ?_
              rw [next, hcut.bind_iff]
          | failed e =>
              refine Or.inr ⟨.failed e, _, [], as, ?_, hdrop, List.suffix_cons _ as, ?_⟩
              · rw [next, hcut.bind_iff]
                exact returns_pure.mpr rfl
              · rw [hall, deliveries_nil]
                rfl
          | data buf =>
              by_cases hlen : buf.length = 0
              · have hnil := List.eq_nil_of_length_eq_zero hlen
                subst hnil
                refine hstep hdrop ?_ fun r => ?_
                · rw [hall, deliveries_nil, delivered, F.frames_nil]
                  rfl
                · rw [next, hcut.bind_iff]
                  rfl
              · refine hstep (hR.fill hdrop (hgood buf List.mem_cons_self)) hall fun r => ?_
                rw [next, hcut.bind_iff]
                simp only [if_neg hlen]

/-- The calls hand out what comes, in order. -/
theorem calls_returns (hs : Stands s rest) (hgood : ∀ buf, .data buf ∈ as → Good buf) :
    (calls (next R) s as).Returns (deliveries F rest as) := by
  have hloop : ∀ (ds : List (Delivery β ε)) {s rest as} (out : List (Delivery β ε)),
      Stands s rest → (∀ buf, .data buf ∈ as → Good buf) → deliveries F rest as = ds →
      (loop (callsStep (next R)) (s, as, out)).Returns (out ++ ds) := by
    intro ds
    induction ds with
    | nil =>
        intro s rest as out hs hgood hds
        rcases next_returns hR hs hgood with ⟨-, hret⟩ | ⟨_, _, _, _, -, -, -, hcons⟩
        · rw [List.append_nil]
          refine loop_returns_now ?_
          rw [callsStep, hret.bind_iff]
          exact returns_pure.mpr rfl
        · rw [hds] at hcons
          cases hcons
    | cons d ds ih =>
        intro s rest as out hs hgood hds
        rcases next_returns hR hs hgood with
          ⟨hnone, -⟩ | ⟨d', s', rest', as', hret, hs', has, hcons⟩
        · rw [hds] at hnone
          cases hnone
        · rw [hds] at hcons
          obtain ⟨rfl, hrest⟩ := List.cons.inj hcons
          have hstep : Next (callsStep (next R)) (s, as, out) (s', as', out ++ [d]) := by
            rw [Next, callsStep, hret.bind_iff]
            exact returns_pure.mpr rfl
          have hlater := ih (out ++ [d]) hs' (fun buf h => hgood buf (has.subset h)) hrest.symm
          rw [List.append_assoc] at hlater
          exact hstep.loop_returns hlater
  exact hloop _ [] hs hgood rfl

end Runs

/-! ## Two ways of cutting -/

/-- With a stricter way of cutting nothing else is handed out in all, exactly if it is not from any
read. -/
theorem delivered_clips {F G : Framing α β} (hle : ∀ s x, G.next s = some x → F.next s = some x)
    (as : List (Answer α ε)) : Clips (as.flatMap (delivered G)) (as.flatMap (delivered F))
      (∀ buf, Answer.data buf ∈ as → G.frames buf = F.frames buf) := by
  have hone : ∀ a ∈ as, Clips (delivered G a) (delivered (ε := ε) F a)
      (∀ buf, a = .data buf → G.frames buf = F.frames buf) := by
    intro a _
    cases a with
    | data buf =>
        have hinj : Function.Injective (Delivery.record : β → Delivery β ε) := fun b b' h =>
          Delivery.record.inj h
        refine ⟨Clipped.of_begins ((Framing.frames_begins hle buf).map _),
          (List.map_injective_iff.mpr hinj).eq_iff.trans ?_⟩
        exact ⟨fun h buf' heq => Answer.data.inj heq ▸ h, fun h => h buf rfl⟩
    | interrupted => exact (Clips.refl _).congr (iff_of_true trivial fun _ h => by cases h)
    | failed e => exact (Clips.refl _).congr (iff_of_true trivial fun _ h => by cases h)
  exact (Clips.flatMap hone).congr ⟨fun h buf hbuf => h _ hbuf buf rfl, fun h a ha buf heq =>
    h buf (heq ▸ ha)⟩

end Tracep.Refill
