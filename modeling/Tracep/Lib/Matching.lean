import Mathlib.Data.List.Basic
import Mathlib.Tactic

/-!
# Matching replies to requests by key

A machine reads a stream of messages and keeps, for each key, the last
request that has not been replied to; a reply takes that request out and
reports it. `Paired rs i j` says, about the stream alone, that the reply at
`i` belongs to the request at `j`: the latest request with its key that
precedes it with no reply to that key in between.

`Matcher` states what one step of such a machine does; `Matcher.reports`
follows for whole runs: at each position the machine reports exactly the
paired request. Nothing is assumed about how the table is kept, so two
machines that keep it differently report the same pairs: those that
`pairing` reports, which keeps the requests themselves (`Matcher.run_map`).
-/

namespace Tracep

variable {κ α β σ γ : Type}

/-! ## Machines with outputs -/

/-- The state after reading `xs`. -/
def after (step : σ → α → σ × β) (s : σ) (xs : List α) : σ :=
  xs.foldl (fun s x => (step s x).1) s

/-- What each message of `xs` makes the machine say. -/
def outputs (step : σ → α → σ × β) : σ → List α → List β
  | _, [] => []
  | s, x :: xs => (step s x).2 :: outputs step (step s x).1 xs

@[simp] theorem outputs_length (step : σ → α → σ × β) :
    ∀ (s : σ) (xs : List α), (outputs step s xs).length = xs.length
  | _, [] => rfl
  | s, x :: xs => by rw [outputs, List.length_cons, List.length_cons, outputs_length]

theorem outputs_getElem? (step : σ → α → σ × β) :
    ∀ (s : σ) (xs : List α) (i : Nat),
      (outputs step s xs)[i]? = xs[i]?.map fun x => (step (after step s (xs.take i)) x).2
  | _, [], _ => rfl
  | _, _ :: _, 0 => rfl
  | s, x :: xs, i + 1 => by
      simpa [outputs, after] using outputs_getElem? step (step s x).1 xs i

theorem after_take_succ (step : σ → α → σ × β) (s : σ) {xs : List α} {i : Nat} {x : α}
    (h : xs[i]? = some x) :
    after step s (xs.take (i + 1)) = (step (after step s (xs.take i)) x).1 := by
  obtain ⟨hlt, rfl⟩ := List.getElem?_eq_some_iff.mp h
  rw [after, after, List.take_succ_eq_append_getElem hlt, List.foldl_append]
  rfl

/-! ## Requests and replies -/

/-- What a message is to a table of requests. -/
inductive Role (κ : Type) where
  | ask (k : κ)
  | reply (k : κ)
  | skip
deriving DecidableEq

/-- The request at `j` has key `k`, precedes `i`, and no reply to `k` lies between. -/
structure Unanswered (rs : List (Role κ)) (k : κ) (i j : Nat) : Prop where
  before : j < i
  ask : rs[j]? = some (.ask k)
  noReply : ∀ l, j < l → l < i → rs[l]? ≠ some (.reply k)

/-- The last unanswered request with key `k` before `i`. -/
def Latest (rs : List (Role κ)) (k : κ) (i j : Nat) : Prop :=
  Unanswered rs k i j ∧ ∀ j', Unanswered rs k i j' → j' ≤ j

/-- The reply at `i` belongs to the request at `j`. -/
def Paired (rs : List (Role κ)) (i j : Nat) : Prop :=
  ∃ k, rs[i]? = some (.reply k) ∧ Latest rs k i j

variable {rs : List (Role κ)} {k : κ} {i j : Nat}

theorem Latest.unique {j' : Nat} (h : Latest rs k i j) (h' : Latest rs k i j') : j = j' :=
  Nat.le_antisymm (h'.2 _ h.1) (h.2 _ h'.1)

/-- A request that is unanswered has a latest one. -/
theorem latest_of_unanswered (h : Unanswered rs k i j) : ∃ j', Latest rs k i j' := by
  generalize hn : i - j = n
  induction n using Nat.strongRecOn generalizing j with
  | _ n ih =>
      by_cases hlater : ∃ j', Unanswered rs k i j' ∧ j < j'
      · obtain ⟨j', h', hlt⟩ := hlater
        have := h'.before
        exact ih (i - j') (by omega) h' rfl
      · refine ⟨j, h, fun j' h' => ?_⟩
        by_contra hlt
        exact hlater ⟨j', h', by omega⟩

/-- A reply belongs to some request exactly when one with its key is unanswered. -/
theorem exists_paired : (∃ j, Paired rs i j) ↔
    ∃ k, rs[i]? = some (.reply k) ∧ ∃ j, Unanswered rs k i j := by
  constructor
  · rintro ⟨j, k, hi, hj, -⟩
    exact ⟨k, hi, j, hj⟩
  · rintro ⟨k, hi, j, hj⟩
    obtain ⟨j', h'⟩ := latest_of_unanswered hj
    exact ⟨j', k, hi, h'⟩

/-- A request belongs to one reply at most. -/
theorem Paired.unique_reply {i' : Nat} (h : Paired rs i j) (h' : Paired rs i' j) : i = i' := by
  obtain ⟨k, hi, hj, -⟩ := h
  obtain ⟨k', hi', hj', -⟩ := h'
  obtain rfl : k = k' := Role.ask.inj (Option.some.inj (hj.ask.symm.trans hj'.ask))
  rcases Nat.lt_trichotomy i i' with hlt | rfl | hlt
  · exact absurd hi (hj'.noReply i hj.before hlt)
  · rfl
  · exact absurd hi' (hj.noReply i' hj'.before hlt)

theorem Paired.unique_request {j' : Nat} (h : Paired rs i j) (h' : Paired rs i j') :
    j = j' := by
  obtain ⟨k, hi, hj⟩ := h
  obtain ⟨k', hi', hj'⟩ := h'
  obtain rfl : k = k' := Role.reply.inj (Option.some.inj (hi.symm.trans hi'))
  exact hj.unique hj'

/-! ### One more message -/

theorem not_latest_zero : ¬Latest rs k 0 j :=
  fun h => absurd h.1.before (Nat.not_lt_zero j)

theorem latest_succ_ask (h : rs[i]? = some (.ask k)) : Latest rs k (i + 1) j ↔ j = i := by
  have hnow : Unanswered rs k (i + 1) i :=
    ⟨Nat.lt_succ_self i, h, fun l hl hl' => by omega⟩
  constructor
  · rintro ⟨hj, hmax⟩
    have := hmax i hnow
    have := hj.before
    omega
  · rintro rfl
    exact ⟨hnow, fun j' h' => Nat.le_of_lt_succ h'.before⟩

theorem not_latest_succ_reply (h : rs[i]? = some (.reply k)) : ¬Latest rs k (i + 1) j := by
  rintro ⟨hj, -⟩
  by_cases hij : j = i
  · subst hij
    cases hj.ask.symm.trans h
  · have := hj.before
    exact hj.noReply i (by omega) (Nat.lt_succ_self i) h

theorem unanswered_succ (hask : rs[i]? ≠ some (.ask k)) (hreply : rs[i]? ≠ some (.reply k)) :
    Unanswered rs k (i + 1) j ↔ Unanswered rs k i j := by
  constructor
  · intro h
    have hne : j ≠ i := fun he => hask (he ▸ h.ask)
    have := h.before
    exact ⟨by omega, h.ask, fun l hl hl' => h.noReply l hl (by omega)⟩
  · intro h
    refine ⟨Nat.lt_succ_of_lt h.before, h.ask, fun l hl hl' => ?_⟩
    rcases Nat.lt_succ_iff_lt_or_eq.mp hl' with hlt | rfl
    · exact h.noReply l hl hlt
    · exact hreply

theorem latest_succ (hask : rs[i]? ≠ some (.ask k)) (hreply : rs[i]? ≠ some (.reply k)) :
    Latest rs k (i + 1) j ↔ Latest rs k i j := by
  simp only [Latest, unanswered_succ hask hreply]

/-! ## Machines that match -/

/-- A machine that keeps the last request of each key in a table, and takes it out and
reports it at a reply. -/
structure Matcher (σ κ α γ β : Type) [DecidableEq κ] where
  step : σ → α → σ × Option β
  start : σ
  role : α → Role κ
  get : σ → κ → Option γ
  store : α → γ
  report : α → γ → β
  get_start : ∀ k, get start k = none
  step_ask : ∀ {x k} s, role x = .ask k → (step s x).2 = none ∧
    ∀ k', get (step s x).1 k' = if k' = k then some (store x) else get s k'
  step_reply : ∀ {x k} s, role x = .reply k → (step s x).2 = (get s k).map (report x) ∧
    ∀ k', get (step s x).1 k' = if k' = k then none else get s k'
  step_skip : ∀ {x} s, role x = .skip → (step s x).2 = none ∧
    ∀ k', get (step s x).1 k' = get s k'

namespace Matcher

variable [DecidableEq κ] (M : Matcher σ κ α γ β)

/-- What the machine says while reading `xs`. -/
def run (xs : List α) : List (Option β) := outputs M.step M.start xs

/-- The table holds, for each key, the last unanswered request of the stream read so far. -/
theorem get_after (xs : List α) : ∀ i ≤ xs.length, ∀ k v,
    M.get (after M.step M.start (xs.take i)) k = some v ↔
      ∃ j q, Latest (xs.map M.role) k i j ∧ xs[j]? = some q ∧ v = M.store q := by
  intro i
  induction i with
  | zero =>
      intro _ k v
      have hstart : M.get (after M.step M.start (xs.take 0)) k = none := M.get_start k
      rw [hstart]
      constructor
      · exact fun h => by cases h
      · rintro ⟨j, q, hj, -⟩
        exact absurd hj not_latest_zero
  | succ i ih =>
      intro hle k v
      have hx : xs[i]? = some xs[i] := List.getElem?_eq_getElem (by omega)
      have hrole : (xs.map M.role)[i]? = some (M.role xs[i]) := by
        rw [List.getElem?_map, hx]
        rfl
      rw [after_take_succ M.step M.start hx]
      generalize xs[i] = x at hx hrole
      have ih := ih (by omega) k v
      cases hr : M.role x with
      | skip =>
          rw [(M.step_skip _ hr).2, ih]
          rw [hr] at hrole
          simp only [latest_succ (k := k) (by rw [hrole]; simp) (by rw [hrole]; simp)]
      | ask k' =>
          rw [(M.step_ask _ hr).2]
          rw [hr] at hrole
          by_cases hk : k = k'
          · subst hk
            rw [if_pos rfl]
            simp only [latest_succ_ask hrole]
            constructor
            · rintro ⟨⟩
              exact ⟨i, x, rfl, hx, rfl⟩
            · rintro ⟨_, q, rfl, hq, rfl⟩
              rw [Option.some.inj (hx.symm.trans hq)]
          · rw [if_neg hk, ih]
            simp only [latest_succ (k := k) (by rw [hrole]; simp [Ne.symm hk])
              (by rw [hrole]; simp)]
      | reply k' =>
          rw [(M.step_reply _ hr).2]
          rw [hr] at hrole
          by_cases hk : k = k'
          · subst hk
            rw [if_pos rfl]
            simp only [not_latest_succ_reply hrole, false_and, exists_false, reduceCtorEq]
          · rw [if_neg hk, ih]
            simp only [latest_succ (k := k) (by rw [hrole]; simp)
              (by rw [hrole]; simp [Ne.symm hk])]

/-- At each position the machine reports the request paired with the message there, and
nothing else. -/
theorem reports (xs : List α) (i : Nat) (e : β) :
    (M.run xs)[i]? = some (some e) ↔ ∃ j r q, Paired (xs.map M.role) i j
      ∧ xs[i]? = some r ∧ xs[j]? = some q ∧ e = M.report r (M.store q) := by
  rw [run, outputs_getElem?]
  cases hx : xs[i]? with
  | none =>
      constructor
      · exact fun h => by cases h
      · rintro ⟨j, r, q, -, ⟨⟩, -⟩
  | some x =>
      have hrole : (xs.map M.role)[i]? = some (M.role x) := by
        rw [List.getElem?_map, hx]
        rfl
      have hle : i ≤ xs.length := Nat.le_of_lt (List.getElem?_eq_some_iff.mp hx).1
      rw [Option.map_some, Option.some.injEq]
      cases hr : M.role x with
      | reply k =>
          rw [hr] at hrole
          rw [(M.step_reply _ hr).1, Option.map_eq_some_iff]
          constructor
          · rintro ⟨v, hv, rfl⟩
            obtain ⟨j, q, hj, hq, rfl⟩ := (M.get_after xs i hle k v).mp hv
            exact ⟨j, x, q, ⟨k, hrole, hj⟩, rfl, hq, rfl⟩
          · rintro ⟨j, r, q, ⟨k', hk', hj⟩, ⟨⟩, hq, rfl⟩
            obtain rfl : k = k' := Role.reply.inj (Option.some.inj (hrole.symm.trans hk'))
            exact ⟨M.store q, (M.get_after xs i hle k _).mpr ⟨j, q, hj, hq, rfl⟩, rfl⟩
      | ask k =>
          rw [(M.step_ask _ hr).1]
          constructor
          · exact fun h => by cases h
          · rintro ⟨j, r, q, ⟨k', hk', -⟩, -⟩
            rw [hr] at hrole
            cases hrole.symm.trans hk'
      | skip =>
          rw [(M.step_skip _ hr).1]
          constructor
          · exact fun h => by cases h
          · rintro ⟨j, r, q, ⟨k', hk', -⟩, -⟩
            rw [hr] at hrole
            cases hrole.symm.trans hk'

end Matcher

/-! ## What is made of the reports -/

theorem outputs_map_right {δ : Type} (step : σ → α → σ × β) (g : β → δ) (s : σ) (xs : List α) :
    outputs (fun s x => ((step s x).1, g (step s x).2)) s xs = (outputs step s xs).map g := by
  induction xs generalizing s with
  | nil => rfl
  | cons x xs ih => rw [outputs, outputs, List.map_cons, ih]

/-- A machine that makes something of each report, with the reply at hand. -/
def Matcher.answering [DecidableEq κ] {ε : Type} (M : Matcher σ κ α γ β) (g : α → β → ε) :
    Matcher σ κ α γ ε where
  step s x := ((M.step s x).1, (M.step s x).2.map (g x))
  start := M.start
  role := M.role
  get := M.get
  store := M.store
  report x v := g x (M.report x v)
  get_start := M.get_start
  step_ask s h := by
    obtain ⟨hout, hget⟩ := M.step_ask s h
    exact ⟨by rw [hout, Option.map_none], hget⟩
  step_reply s h := by
    obtain ⟨hout, hget⟩ := M.step_reply s h
    exact ⟨by rw [hout, Option.map_map]; rfl, hget⟩
  step_skip s h := by
    obtain ⟨hout, hget⟩ := M.step_skip s h
    exact ⟨by rw [hout, Option.map_none], hget⟩

/-! ## The pairs of a run -/

section Pairs

variable [DecidableEq κ] {ε : Type}

/-- One message, with a table of the open requests. -/
def pairStep (role : α → Role κ) (table : κ → Option α) (x : α) :
    (κ → Option α) × Option (α × α) :=
  match role x with
  | .ask k => (Function.update table k (some x), none)
  | .reply k => (Function.update table k none, (table k).map (x, ·))
  | .skip => (table, none)

/-- A table with no open requests. -/
def noRequests : κ → Option α := fun _ => none

/-- The machine that reports each reply with its request. -/
def pairing (role : α → Role κ) : Matcher (κ → Option α) κ α α (α × α) where
  step := pairStep role
  start := noRequests
  role := role
  get table := table
  store := id
  report := Prod.mk
  get_start _ := rfl
  step_ask := by
    intro x k table h
    rw [pairStep, h]
    exact ⟨rfl, fun _ => Function.update_apply _ _ _ _⟩
  step_reply := by
    intro x k table h
    rw [pairStep, h]
    exact ⟨rfl, fun _ => Function.update_apply _ _ _ _⟩
  step_skip := by
    intro x table h
    rw [pairStep, h]
    exact ⟨rfl, fun _ => rfl⟩

namespace Matcher

variable {δ : Type} (M : Matcher σ κ β γ ε) (f : δ → β)

theorem outputs_map (xs : List δ) {s : σ} {table : κ → Option δ}
    (h : ∀ k, M.get s k = (table k).map fun x => M.store (f x)) :
    outputs M.step s (xs.map f) = (outputs (pairStep fun x => M.role (f x)) table xs).map
      (·.map fun x => M.report (f x.1) (M.store (f x.2))) := by
  induction xs generalizing s table with
  | nil => rfl
  | cons x xs ih =>
      rw [List.map_cons, outputs, outputs, List.map_cons, pairStep]
      cases hr : M.role (f x) with
      | ask k =>
          obtain ⟨hout, hget⟩ := M.step_ask s hr
          dsimp only
          rw [hout, ih]
          · rfl
          · intro k'
            rw [hget, Function.update_apply]
            split
            · rfl
            · exact h k'
      | reply k =>
          obtain ⟨hout, hget⟩ := M.step_reply s hr
          dsimp only
          rw [hout, h, ih]
          · rw [Option.map_map, Option.map_map]
            rfl
          · intro k'
            rw [hget, Function.update_apply]
            split
            · rfl
            · exact h k'
      | skip =>
          obtain ⟨hout, hget⟩ := M.step_skip s hr
          dsimp only
          rw [hout, ih]
          · rfl
          · intro k'
            rw [hget]
            exact h k'

/-- Over what is seen of a run, a machine reports the pairs of the run. -/
theorem run_map (xs : List δ) : M.run (xs.map f) = ((pairing fun x => M.role (f x)).run xs).map
    (·.map fun x => M.report (f x.1) (M.store (f x.2))) :=
  M.outputs_map f xs M.get_start

end Matcher

end Pairs

end Tracep
