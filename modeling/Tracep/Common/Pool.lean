import Tracep.Common.Shquote

/-!
# The rotating buffers

`clr` and `shquote` return their texts in buffers of their own, sixteen
each, that are used in turn. The counter of the calls is an `int`, which
wraps, and the remainder of a negative number is negative: the buffer of a
call is the right one up to call `2 ^ 31 + 1`, whose counter is the least
`int` and has no remainder, and lies before the first buffer in the next
call (`Pool.Holds.fill_returns`, `Pool.Holds.fill_faults`).

So the texts of the last sixteen calls of either function are there as long
as neither has been called more often than that (`run_sound_iff`).
-/

namespace Tracep.Common

open Exec

/-! ## The code -/

/-- `POOL_N`. -/
def poolN : Nat := 16

/-- The `static` variables of a function. -/
structure Pool where
  pool : List Bytes
  slot : Int32

def Pool.start : Pool := ⟨List.replicate poolN (List.replicate poolSz 0), 0⟩

/-- What a function returns: the text it was given, or a buffer. -/
inductive Ptr where
  | arg (s : Bytes)
  | buf (i : Int)
deriving Repr, DecidableEq

/-- `pool[slot++ % POOL_N]`, written by the function. -/
def Pool.fill (p : Pool) (write : Bytes → Exec Bytes) : Exec (Ptr × Pool) := do
  let i := p.slot.toInt.tmod poolN
  let b ← write (← index p.pool i)
  return (.buf i, ⟨← store p.pool i b, p.slot + 1⟩)

/-- The text at a pointer. -/
def Pool.text (p : Pool) : Ptr → Bytes
  | .arg s => s
  | .buf i => cstr (p.pool.getD i.toNat [])

/-- `"\033[%sm%s\033[0m"`. -/
def colored (code s : Bytes) : Bytes := [27, 91] ++ code ++ [109] ++ s ++ [27, 91, 48, 109]

def clr (p : Pool) (on : Bool) (code : Bytes) (s : Option Bytes) : Exec (Ptr × Pool) :=
  if !on || s.getD [] = [] then return (.arg (s.getD []), p)
  else p.fill fun b => snprintf b poolSz (colored code (s.getD []))

def shquote (p : Pool) (s : Option Bytes) : Exec (Ptr × Pool) := p.fill fun b => shquoteInto b s

/-! ## Calls -/

inductive Fn where
  | clr
  | shquote
deriving Repr, DecidableEq

/-- A call that uses a buffer. -/
inductive Call where
  | clr (code : Bytes) (s : { s : Bytes // s ≠ [] })
  | shquote (s : Option Bytes)

def Call.fn : Call → Fn
  | .clr _ _ => .clr
  | .shquote _ => .shquote

/-- The variables of both functions. -/
abbrev Statics := Fn → Pool

def start : Statics := fun _ => Pool.start

/-- What a call returned, and the text there at that time. -/
structure Returned where
  fn : Fn
  ptr : Ptr
  text : Bytes

def Call.apply (c : Call) (p : Pool) : Exec (Ptr × Pool) :=
  match c with
  | .clr code s => Common.clr p true code (some s.val)
  | .shquote s => Common.shquote p s

def step (st : Statics) (c : Call) : Exec (Statics × Returned) := do
  let (ptr, p) ← c.apply (st c.fn)
  return (Function.update st c.fn p, ⟨c.fn, ptr, p.text ptr⟩)

def run (st : Statics) : List Call → Exec (Statics × List Returned)
  | [] => return (st, [])
  | c :: calls => do
      let (st, r) ← step st c
      let (st, rs) ← run st calls
      return (st, r :: rs)

/-- The returned pointer is one to a buffer. -/
def Returned.InPool (r : Returned) : Prop := ∃ i : Int, r.ptr = .buf i ∧ 0 ≤ i ∧ i < poolN

/-- What the calls of a function returned. -/
def returnedBy (fn : Fn) (rs : List Returned) : List Returned := rs.filter (·.fn = fn)

/-- What its last sixteen calls returned. -/
def lastOf (fn : Fn) (rs : List Returned) : List Returned :=
  (returnedBy fn rs).drop ((returnedBy fn rs).length - poolN)

/-- The last call gets a buffer, and the texts of the last calls of each function are there. -/
def Sound (calls : List Call) : Prop :=
  ∃ st rs, (run start calls).Returns (st, rs) ∧ (∀ r ∈ rs.getLast?, r.InPool)
    ∧ ∀ fn, ∀ r ∈ lastOf fn rs, (st fn).text r.ptr = r.text

/-! ## One function -/

/-- How often a function can be called. -/
def maxCalls : Nat := 2 ^ 31 + 1

namespace Pool

/-- The pool after calls that returned `rs`. -/
structure Holds (p : Pool) (rs : List Returned) : Prop where
  slot : p.slot = Int32.ofNat rs.length
  pool : p.pool.length = poolN
  sized : ∀ b ∈ p.pool, b.length = poolSz
  ptr : ∀ (m : Nat) (r : Returned), rs[m]? = some r → r.ptr = .buf (m % poolN : Nat)
  text : ∀ (m : Nat) (r : Returned), rs[m]? = some r → rs.length ≤ m + poolN →
    p.text r.ptr = r.text

theorem holds_start : Pool.start.Holds [] where
  slot := rfl
  pool := List.length_replicate
  sized b hb := by rw [List.eq_of_mem_replicate hb, List.length_replicate]
  ptr m r hr := by cases hr
  text m r hr := by cases hr

/-- The remainder of the counter while it is the number of the calls, and at the least `int`. -/
theorem index_eq_mod {k : Nat} (hk : k < maxCalls) :
    (Int32.ofNat k).toInt.tmod poolN = (k % poolN : Nat) := by
  unfold maxCalls at hk
  rcases Nat.lt_or_ge k (2 ^ 31) with hlt | hge
  · rw [Int32.toInt_ofNat_of_lt hlt, Int.ofNat_tmod]
  · obtain rfl : k = 2 ^ 31 := by omega
    decide

theorem index_of_max : (Int32.ofNat maxCalls).toInt.tmod poolN = -15 := by decide

variable {p : Pool} {rs : List Returned} {write : Bytes → Exec Bytes}

theorem getElem?_snoc {α : Type} {l : List α} {a b : α} {m : Nat} (h : (l ++ [a])[m]? = some b) :
    m < l.length ∧ l[m]? = some b ∨ m = l.length ∧ b = a := by
  rcases Nat.lt_or_ge m l.length with hm | hm
  · rw [List.getElem?_append_left hm] at h
    exact Or.inl ⟨hm, h⟩
  · rw [List.getElem?_append_right hm, List.getElem?_singleton] at h
    split at h
    · exact Or.inr ⟨by omega, (Option.some.inj h).symm⟩
    · cases h

/-- The buffer of the next call. -/
theorem Holds.fill_returns (h : p.Holds rs) (hmax : rs.length < maxCalls)
    (hwrite : ∀ b, b.length = poolSz → ∃ b', write b = pure b' ∧ b'.length = poolSz) (fn : Fn) :
    ∃ ptr p', p.fill write = pure (ptr, p') ∧ p'.Holds (rs ++ [⟨fn, ptr, p'.text ptr⟩]) := by
  have hlt : rs.length % poolN < p.pool.length := by
    rw [h.pool]
    exact Nat.mod_lt _ (by decide)
  obtain ⟨b', hb', hlen⟩ := hwrite _ (h.sized _ (List.getElem_mem hlt))
  refine ⟨.buf (rs.length % poolN : Nat), ⟨p.pool.set (rs.length % poolN) b', p.slot + 1⟩, ?_, ?_⟩
  · rw [fill, h.slot, index_eq_mod hmax, index_eq (List.getElem?_eq_getElem hlt), pure_bind, hb',
      pure_bind, store_eq _ rfl hlt]
    rfl
  -- the buffers of the other calls among the last sixteen are not the new one
  have hother : ∀ m, m < rs.length → rs.length + 1 ≤ m + poolN → m % poolN ≠ rs.length % poolN := by
    intro m hm hrecent
    unfold poolN at hrecent ⊢
    omega
  constructor
  · rw [List.length_append, List.length_singleton, Int32.ofNat_add, h.slot]
    rfl
  · rw [List.length_set, h.pool]
  · intro b hb
    rcases List.mem_or_eq_of_mem_set hb with hb | rfl
    · exact h.sized b hb
    · exact hlen
  · intro m r hr
    rcases getElem?_snoc hr with ⟨-, hr⟩ | ⟨rfl, rfl⟩
    · exact h.ptr m r hr
    · rfl
  · intro m r hr hrecent
    rw [List.length_append, List.length_singleton] at hrecent
    rcases getElem?_snoc hr with ⟨hm, hr⟩ | ⟨-, rfl⟩
    · have hold := h.text m r hr (by omega)
      rw [h.ptr m r hr] at hold ⊢
      rw [← hold, Pool.text, Pool.text, Int.toNat_natCast, List.getD_eq_getElem?_getD,
        List.getD_eq_getElem?_getD, List.getElem?_set_ne (hother m hm hrecent).symm]
    · rfl

/-- One call too many. -/
theorem Holds.fill_faults (h : p.Holds rs) (hmax : rs.length = maxCalls) :
    (p.fill write).Faults := by
  have hindex : index p.pool (p.slot.toInt.tmod poolN) = .fault := by
    rw [h.slot, hmax, index_of_max]
    exact index_neg (by decide)
  rw [fill, hindex]
  exact faults_fault.bind _ 

end Pool

/-! ## Both functions -/

/-- The variables after calls that returned `rs`. -/
def Inv (st : Statics) (rs : List Returned) : Prop := ∀ fn, (st fn).Holds (returnedBy fn rs)

theorem snprintf_fills (text : Bytes) {b : Bytes} (hb : b.length = poolSz) :
    ∃ b', snprintf b poolSz text = pure b' ∧ b'.length = poolSz := by
  obtain ⟨junk, hlen, hret⟩ := snprintf_pool hb text
  refine ⟨_, hret, ?_⟩
  rw [List.length_append, List.length_cons]
  omega

theorem shquoteInto_fills (s : Option Bytes) {b : Bytes} (hb : b.length = poolSz) :
    ∃ b', shquoteInto b s = pure b' ∧ b'.length = poolSz := by
  cases s with
  | none => exact snprintf_fills [39, 39] hb
  | some s =>
      obtain ⟨junk, hlen, hret⟩ := shquoteInto_returns hb s
      refine ⟨_, hret, ?_⟩
      rw [List.length_append, List.length_cons]
      omega

/-- A call fills the next buffer of its function. -/
theorem Call.apply_fill (c : Call) : ∃ write : Bytes → Exec Bytes, (∀ p, c.apply p = p.fill write)
    ∧ ∀ b, b.length = poolSz → ∃ b', write b = pure b' ∧ b'.length = poolSz := by
  cases c with
  | clr code s =>
      refine ⟨fun b => snprintf b poolSz (colored code s.val), fun p => ?_,
        fun b hb => snprintf_fills _ hb⟩
      have huse : (!true || decide ((some s.val).getD [] = [])) = false := decide_eq_false s.property
      rw [apply, Common.clr, huse]
      rfl
  | shquote s => exact ⟨fun b => shquoteInto b s, fun _ => rfl, fun b hb => shquoteInto_fills s hb⟩

theorem returnedBy_snoc (fn : Fn) (rs : List Returned) (r : Returned) :
    returnedBy fn (rs ++ [r]) = returnedBy fn rs ++ if r.fn = fn then [r] else [] := by
  rw [returnedBy, List.filter_append, returnedBy]
  congr 1
  by_cases h : r.fn = fn
  · rw [if_pos h, List.filter_cons_of_pos (by simpa using h), List.filter_nil]
  · rw [if_neg h, List.filter_cons_of_neg (by simpa using h), List.filter_nil]

variable {st : Statics} {rs : List Returned} {c : Call} {calls : List Call}

theorem Inv.step_returns (h : Inv st rs) (hmax : (returnedBy c.fn rs).length < maxCalls) :
    ∃ st' r, (step st c).Returns (st', r) ∧ r.fn = c.fn ∧ Inv st' (rs ++ [r]) := by
  obtain ⟨write, happly, hwrite⟩ := c.apply_fill
  obtain ⟨ptr, p', hfill, hholds⟩ := (h c.fn).fill_returns hmax hwrite c.fn
  refine ⟨Function.update st c.fn p', ⟨c.fn, ptr, p'.text ptr⟩, ?_, rfl, fun fn => ?_⟩
  · rw [step, happly, hfill, pure_bind]
    exact returns_pure.mpr rfl
  · rw [returnedBy_snoc]
    by_cases hfn : c.fn = fn
    · subst hfn
      rw [Function.update_self, if_pos rfl]
      exact hholds
    · rw [Function.update_of_ne (Ne.symm hfn), if_neg hfn, List.append_nil]
      exact h fn

theorem Inv.step_faults (h : Inv st rs) (hmax : (returnedBy c.fn rs).length = maxCalls) :
    (step st c).Faults := by
  obtain ⟨write, happly, -⟩ := c.apply_fill
  rw [step, happly]
  exact ((h c.fn).fill_faults hmax).bind _

/-- How often a function is called. -/
def countOf (fn : Fn) (calls : List Call) : Nat := (calls.filter (·.fn = fn)).length

theorem countOf_cons (fn : Fn) (c : Call) (calls : List Call) :
    countOf fn (c :: calls) = (if c.fn = fn then 1 else 0) + countOf fn calls := by
  unfold countOf
  by_cases h : c.fn = fn
  · rw [List.filter_cons_of_pos (by simpa using h), List.length_cons, if_pos h, Nat.add_comm]
  · rw [List.filter_cons_of_neg (by simpa using h), if_neg h, Nat.zero_add]

theorem length_returnedBy_snoc {fn : Fn} {r : Returned} (h : r.fn = c.fn) :
    (returnedBy fn (rs ++ [r])).length + countOf fn calls
      = (returnedBy fn rs).length + countOf fn (c :: calls) := by
  rw [returnedBy_snoc, countOf_cons, List.length_append, h]
  split <;> simp only [List.length_singleton, List.length_nil] <;> omega

/-- While no function is called too often every call returns. -/
theorem Inv.run_returns (h : Inv st rs)
    (hmax : ∀ fn, (returnedBy fn rs).length + countOf fn calls ≤ maxCalls) :
    ∃ st' rs', (run st calls).Returns (st', rs') ∧ Inv st' (rs ++ rs') := by
  induction calls generalizing st rs with
  | nil => exact ⟨st, [], returns_pure.mpr rfl, by rwa [List.append_nil]⟩
  | cons c calls ih =>
      have hlt : (returnedBy c.fn rs).length < maxCalls := by
        have hc := hmax c.fn
        rw [countOf_cons, if_pos rfl] at hc
        omega
      obtain ⟨st₁, r, hstep, hfn, h₁⟩ := h.step_returns hlt
      obtain ⟨st', rs', hrun, h'⟩ := ih h₁ fun fn => by
        rw [length_returnedBy_snoc hfn]
        exact hmax fn
      refine ⟨st', r :: rs', ?_, ?_⟩
      · rw [run, hstep.bind_iff, hrun.bind_iff]
        exact returns_pure.mpr rfl
      · rwa [List.append_assoc] at h'

theorem Inv.run_faults (h : Inv st rs) (hle : ∀ fn, (returnedBy fn rs).length ≤ maxCalls) {fn : Fn}
    (hmax : maxCalls < (returnedBy fn rs).length + countOf fn calls) : (run st calls).Faults := by
  induction calls generalizing st rs with
  | nil =>
      have hcount : countOf fn [] = 0 := rfl
      have := hle fn
      omega
  | cons c calls ih =>
      rw [run]
      rcases Nat.lt_or_ge (returnedBy c.fn rs).length maxCalls with hlt | hge
      · obtain ⟨st₁, r, hstep, hfn, h₁⟩ := h.step_returns hlt
        rw [hstep.faults_bind_iff]
        refine (ih h₁ (fun fn' => ?_) ?_).bind _
        · have hone : (returnedBy fn' (rs ++ [r])).length + countOf fn' []
              = (returnedBy fn' rs).length + countOf fn' [c] := length_returnedBy_snoc hfn
          rw [countOf_cons] at hone
          have hnil : countOf fn' [] = 0 := rfl
          have hold := hle fn'
          split at hone
          · next heq =>
              subst heq
              omega
          · omega
        · rw [length_returnedBy_snoc hfn]
          exact hmax
      · exact (h.step_faults (Nat.le_antisymm (hle c.fn) hge)).bind _

theorem inv_start : Inv start [] := fun _ => Pool.holds_start

theorem Inv.inPool (h : Inv st rs) {r : Returned} (hr : r ∈ rs) : r.InPool := by
  have hmem : r ∈ returnedBy r.fn rs := List.mem_filter.mpr ⟨hr, decide_eq_true rfl⟩
  obtain ⟨m, hm⟩ := List.mem_iff_getElem?.mp hmem
  refine ⟨_, (h r.fn).ptr m r hm, Int.natCast_nonneg _, ?_⟩
  exact Int.ofNat_lt.mpr (Nat.mod_lt _ (by decide))

theorem Inv.intact (h : Inv st rs) {fn : Fn} {r : Returned} (hr : r ∈ lastOf fn rs) :
    (st fn).text r.ptr = r.text := by
  obtain ⟨m, hm⟩ := List.mem_iff_getElem?.mp hr
  rw [lastOf, List.getElem?_drop] at hm
  refine (h fn).text _ r hm ?_
  omega

/-- The calls return buffers, and the texts of the last sixteen calls of each function are
there, exactly while neither function has been called more than `2 ^ 31 + 1` times. -/
theorem run_sound_iff (calls : List Call) : Sound calls ↔ ∀ fn, countOf fn calls ≤ 2 ^ 31 + 1 := by
  constructor
  · rintro ⟨st, rs, hrun, -⟩ fn
    by_contra hmax
    have hmany : maxCalls < (returnedBy fn []).length + countOf fn calls :=
      Nat.lt_of_lt_of_eq (Nat.lt_of_not_le hmax) (Nat.zero_add _).symm
    exact hrun.not_faults (inv_start.run_faults (fun fn => Nat.zero_le _) hmany)
  · intro hmax
    obtain ⟨st, rs, hrun, hinv⟩ := inv_start.run_returns fun fn =>
      (Nat.zero_add (countOf fn calls)).trans_le (hmax fn)
    rw [List.nil_append] at hinv
    exact ⟨st, rs, hrun, fun r hr => hinv.inPool (List.mem_of_getLast? hr),
      fun fn r hr => hinv.intact hr⟩

/-- The call after `2 ^ 31 + 1` calls. -/
theorem quotes_not_sound : ¬Sound (List.replicate (2 ^ 31 + 2) (.shquote (some [97]))) := by
  rw [run_sound_iff]
  intro hmax
  have hcount : countOf .shquote (List.replicate (2 ^ 31 + 2) (.shquote (some [97])))
      = 2 ^ 31 + 2 := by
    rw [countOf, List.filter_replicate_of_pos (by rfl), List.length_replicate]
  have := hmax .shquote
  omega

end Tracep.Common
