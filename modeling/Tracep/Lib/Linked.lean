import Tracep.Lib.Loop
import Mathlib.Data.List.Nodup
import Mathlib.Logic.Function.Basic

/-!
# Linked lists in memory

A node holds a value and the address of the next node, and address 0 is no
node. A `Chain` is what is met on the way from an address to 0: there is one
only if the way ends, so a walk along a chain returns (`Chain.seek_returns`),
and no node is met twice (`Chain.nodup`).

A node is taken out through the place that its address is read from, the head
or the node before (`unlink`). The chain from that place is then without the
node, and nothing else has changed (`Chain.unlink_returns`).
-/

namespace Tracep.Linked

open Exec

structure Node (ν : Type) where
  val : ν
  next : Nat

/-- The nodes that are allocated. -/
abbrev Heap (ν : Type) := Nat → Option (Node ν)

/-- Where an address is kept: at the head of a list or in a node. -/
inductive Place where
  | top
  | node (p : Nat)

section Code

variable {ν : Type} (test : ν → Bool)

def load (h : Heap ν) (p : Nat) : Exec (Node ν) := (h p).elim fault pure

def free (h : Heap ν) (p : Nat) : Exec (Heap ν) := do
  let _ ← load h p
  return Function.update h p none

def Place.read (head : Nat) (h : Heap ν) : Place → Exec Nat
  | top => return head
  | node p => return (← load h p).next

def Place.write (head : Nat) (h : Heap ν) (p : Nat) : Place → Exec (Nat × Heap ν)
  | top => return (p, h)
  | node q => do
      let n ← load h q
      return (head, Function.update h q (some { n with next := p }))

def seekStep (h : Heap ν) (p : Nat) : Exec (Nat ⊕ Nat) :=
  if p = 0 then return .inr 0
  else do
    let n ← load h p
    if test n.val then return .inr p else return .inl n.next

/-- The first node from `p` on that passes the test, or 0. -/
def seek (h : Heap ν) (p : Nat) : Exec Nat := loop (seekStep test h) p

def unlinkStep (head : Nat) (h : Heap ν) (pp : Place) : Exec (Place ⊕ Nat × Heap ν) := do
  let p ← pp.read head h
  if p = 0 then return .inr (head, h)
  else do
    let n ← load h p
    if test n.val then do
      let (head, h) ← pp.write head h n.next
      let h ← free h p
      return .inr (head, h)
    else return .inl (.node p)

/-- Take the first node from `head` on that passes the test out and free it. -/
def unlink (head : Nat) (h : Heap ν) : Exec (Nat × Heap ν) := loop (unlinkStep test head h) .top

end Code

variable {ν : Type} {test : ν → Bool} {h h' : Heap ν} {p q head : Nat} {n : Node ν}
  {l l' : List (Nat × ν)} {e : Nat × ν}

/-- The nodes from an address on, with their addresses. -/
inductive Chain (h : Heap ν) : Nat → List (Nat × ν) → Prop where
  | nil : Chain h 0 []
  | cons {p : Nat} {n : Node ν} {l : List (Nat × ν)} : p ≠ 0 → h p = some n → Chain h n.next l →
      Chain h p ((p, n.val) :: l)

theorem load_of_some (hp : h p = some n) : load h p = pure n := by
  rw [load, hp]
  rfl

/-! ## Chains -/

theorem Chain.unique (hc : Chain h p l) (hc' : Chain h p l') : l = l' := by
  induction hc generalizing l' with
  | nil =>
      cases hc' with
      | nil => rfl
      | cons hne => exact absurd rfl hne
  | cons hne hp _ ih =>
      cases hc' with
      | nil => exact absurd rfl hne
      | cons _ hp' hrest =>
          obtain rfl := Option.some.inj (hp.symm.trans hp')
          rw [ih hrest]

/-- The chain goes on from every node that is met. -/
theorem Chain.suffix (hc : Chain h p l) (he : e ∈ l) :
    e.1 ≠ 0 ∧ ∃ n, h e.1 = some n ∧ n.val = e.2 ∧ ∃ l', Chain h e.1 l' ∧ l' <:+ l := by
  induction hc with
  | nil => cases he
  | @cons p n l hne hp hrest ih =>
      rcases List.mem_cons.mp he with rfl | he
      · exact ⟨hne, n, hp, rfl, _, .cons hne hp hrest, List.suffix_rfl⟩
      · obtain ⟨he0, m, hm, hval, l', hl', hsuffix⟩ := ih he
        exact ⟨he0, m, hm, hval, l', hl', hsuffix.trans (List.suffix_cons _ l)⟩

theorem Chain.nodup (hc : Chain h p l) : (l.map Prod.fst).Nodup := by
  induction hc with
  | nil => exact List.nodup_nil
  | @cons p n l hne hp hrest ih =>
      refine List.nodup_cons.mpr ⟨fun hmem => ?_, ih⟩
      -- a node that is met again has itself behind it
      obtain ⟨e, he, rfl⟩ := List.mem_map.mp hmem
      obtain ⟨-, -, -, -, l', hl', hsuffix⟩ := hrest.suffix he
      obtain rfl := hl'.unique (.cons hne hp hrest)
      exact absurd hsuffix.length_le (Nat.not_succ_le_self _)

/-- A chain is the same in a memory that has the same nodes there. -/
theorem Chain.congr (hc : Chain h p l) (hsame : ∀ e ∈ l, h' e.1 = h e.1) : Chain h' p l := by
  induction hc with
  | nil => exact .nil
  | cons hne hp _ ih =>
      obtain ⟨hfirst, hrest⟩ := List.forall_mem_cons.mp hsame
      exact .cons hne (hfirst.trans hp) (ih hrest)

theorem Chain.val_of_mem (hc : Chain h p l) (he : e ∈ l) (hn : h e.1 = some n) : n.val = e.2 := by
  obtain ⟨-, n', hn', hval, -⟩ := hc.suffix he
  obtain rfl := Option.some.inj (hn.symm.trans hn')
  exact hval

/-- A value of a node is changed. -/
theorem Chain.store (hc : Chain h p l) (hq : h q = some n) (v : ν) :
    Chain (Function.update h q (some { n with val := v })) p
      (l.map fun e => if e.1 = q then (q, v) else e) := by
  induction hc with
  | nil => exact .nil
  | @cons p m l hne hp _ ih =>
      by_cases hpq : p = q
      · subst hpq
        obtain rfl := Option.some.inj (hp.symm.trans hq)
        rw [List.map_cons, if_pos rfl]
        exact .cons hne (Function.update_self _ _ _) ih
      · rw [List.map_cons, if_neg hpq]
        exact .cons hne ((Function.update_of_ne hpq _ _).trans hp) ih

theorem mem_map_store {v w : ν} (hmem : (q, v) ∈ l) :
    e ∈ l.map (fun e => if e.1 = q then (q, w) else e) ↔ e = (q, w) ∨ e ∈ l ∧ e.1 ≠ q := by
  rw [List.mem_map]
  constructor
  · rintro ⟨e, he, rfl⟩
    split
    · exact Or.inl rfl
    · next hne => exact Or.inr ⟨he, hne⟩
  · rintro (rfl | ⟨he, hne⟩)
    · exact ⟨_, hmem, if_pos rfl⟩
    · exact ⟨e, he, if_neg hne⟩

/-! ## Walks -/

/-- The address of what has been found, if anything. -/
def address (found : Option (Nat × ν)) : Nat := found.elim 0 Prod.fst

theorem Chain.seek_returns (hc : Chain h p l) :
    (seek test h p).Returns (address (l.find? fun e => test e.2)) := by
  induction hc with
  | nil => exact loop_returns_now (by rw [seekStep, if_pos rfl]; exact returns_pure.mpr rfl)
  | @cons p n l hne hp _ ih =>
      have hstep : seekStep test h p = if test n.val then pure (.inr p) else pure (.inl n.next) := by
        rw [seekStep, if_neg hne, load_of_some hp, pure_bind]
      by_cases htest : test n.val = true
      · rw [List.find?_cons_of_pos (p := fun e : Nat × ν => test e.2) htest]
        refine loop_returns_now ?_
        rw [hstep, if_pos htest]
        exact returns_pure.mpr rfl
      · rw [List.find?_cons_of_neg (p := fun e : Nat × ν => test e.2) htest]
        refine Next.loop_returns ?_ ih
        rw [Next, hstep, if_neg htest]
        exact returns_pure.mpr rfl

/-! ## Taking a node out -/

/-- The address at a place is `p`. -/
def Place.Holds (head : Nat) (h : Heap ν) (p : Nat) : Place → Prop
  | top => head = p
  | node q => ∃ n, h q = some n ∧ n.next = p

/-- The nodes of `l` may have changed, and the address at a place. -/
structure Relinked (head : Nat) (h : Heap ν) (l : List (Nat × ν)) (head' : Nat) (h' : Heap ν)
    (pp : Place) : Prop where
  head : pp ≠ .top → head' = head
  val : ∀ q, pp = .node q → (h' q).map Node.val = (h q).map Node.val
  others : ∀ q, q ∉ l.map Prod.fst → pp ≠ .node q → h' q = h q

theorem Place.Holds.read {pp : Place} (hpp : pp.Holds head h p) : pp.read head h = pure p := by
  cases pp with
  | top => exact congrArg pure hpp
  | node q =>
      obtain ⟨n, hq, rfl⟩ := hpp
      rw [Place.read, load_of_some hq, pure_bind]

theorem Place.Holds.write {pp : Place} (hpp : pp.Holds head h p) (q : Nat) :
    ∃ head' h', pp.write head h q = pure (head', h') ∧ pp.Holds head' h' q
      ∧ Relinked head h [] head' h' pp := by
  cases pp with
  | top => exact ⟨q, h, rfl, rfl, fun h => absurd rfl h, nofun, fun _ _ _ => rfl⟩
  | node r =>
      obtain ⟨n, hr, rfl⟩ := hpp
      refine ⟨head, Function.update h r (some { n with next := q }), ?_, ?_, ?_⟩
      · rw [Place.write, load_of_some hr, pure_bind]
      · exact ⟨_, Function.update_self _ _ _, rfl⟩
      · refine ⟨fun _ => rfl, ?_, fun s _ hs => ?_⟩
        · rintro _ ⟨⟩
          rw [Function.update_self, hr]
          rfl
        · exact Function.update_of_ne (fun heq => hs (by rw [heq])) _ _

theorem Relinked.refl (head : Nat) (h : Heap ν) (l : List (Nat × ν)) (pp : Place) :
    Relinked head h l head h pp :=
  ⟨fun _ => rfl, fun _ _ => rfl, fun _ _ _ => rfl⟩

/-- What is at a place that has not changed. -/
theorem Place.Holds.congr {pp : Place} {head' : Nat} (hpp : pp.Holds head h p)
    (hhead : pp = .top → head' = head) (hsame : ∀ q, pp = .node q → h' q = h q) :
    pp.Holds head' h' p := by
  cases pp with
  | top => exact (hhead rfl).trans hpp
  | node q =>
      obtain ⟨n, hq, hnext⟩ := hpp
      exact ⟨n, (hsame q rfl).trans hq, hnext⟩

/-- The node whose address is at a place is taken out if it passes the test. -/
theorem Place.Holds.unlink_here {pp : Place} (hpp : pp.Holds head h p) (hne : p ≠ 0)
    (hp : h p = some n) (hpq : ∀ q, pp = .node q → q ≠ p) (htest : test n.val = true) :
    ∃ head' h', (unlinkStep test head h pp).Returns (.inr (head', h'))
      ∧ pp.Holds head' h' n.next ∧ Relinked head h [(p, n.val)] head' h' pp ∧ h' p = none := by
  obtain ⟨head', h₁, hwrite, hholds, hsame⟩ := hpp.write n.next
  have hp₁ : h₁ p = some n :=
    (hsame.others p List.not_mem_nil fun heq => hpq p heq rfl).trans hp
  have hkeep : ∀ q, q ≠ p → Function.update h₁ p none q = h₁ q :=
    fun q hq => Function.update_of_ne hq _ _
  refine ⟨head', Function.update h₁ p none, ?_, ?_, ⟨hsame.head, fun q hq => ?_, fun q hq hne => ?_⟩,
    Function.update_self _ _ _⟩
  · rw [unlinkStep, hpp.read, pure_bind, if_neg hne, load_of_some hp, pure_bind, if_pos htest,
      hwrite, pure_bind]
    simp only [free, load_of_some hp₁, pure_bind]
    exact returns_pure.mpr rfl
  · exact hholds.congr (fun _ => rfl) fun q hq => hkeep q (hpq q hq)
  · rw [hkeep q (hpq q hq), hsame.val q hq]
  · rw [hkeep q fun heq => hq (heq ▸ List.mem_cons_self)]
    exact hsame.others q List.not_mem_nil hne

/-- Past a node that does not pass the test, the place is in that node. -/
theorem Place.Holds.unlink_past {pp : Place} (hpp : pp.Holds head h p) (hne : p ≠ 0)
    (hp : h p = some n) (htest : ¬test n.val = true) :
    Next (unlinkStep test head h) pp (.node p) := by
  rw [Next, unlinkStep, hpp.read, pure_bind, if_neg hne, load_of_some hp, pure_bind, if_neg htest]
  exact returns_pure.mpr rfl

theorem Relinked.mono {pp : Place} {head' : Nat} (hr : Relinked head h l head' h' pp)
    (hsub : l.map Prod.fst ⊆ l'.map Prod.fst) : Relinked head h l' head' h' pp :=
  ⟨hr.head, hr.val, fun q hq => hr.others q fun hmem => hq (hsub hmem)⟩

/-- The first node of a chain that passes the test is taken out of it and freed. -/
theorem Chain.unlink_place (hc : Chain h p l) {pp : Place} (hpp : pp.Holds head h p)
    (hout : ∀ q, pp = .node q → q ∉ l.map Prod.fst) :
    ∃ head' h' p', (loop (unlinkStep test head h) pp).Returns (head', h')
      ∧ pp.Holds head' h' p' ∧ Chain h' p' (l.eraseP fun e => test e.2)
      ∧ Relinked head h l head' h' pp
      ∧ ∀ q ∈ l.map Prod.fst, q ∉ (l.eraseP fun e => test e.2).map Prod.fst → h' q = none := by
  induction hc generalizing pp with
  | nil =>
      refine ⟨head, h, 0, loop_returns_now ?_, hpp, .nil, .refl head h [] pp, nofun⟩
      rw [unlinkStep, hpp.read, pure_bind, if_pos rfl]
      exact returns_pure.mpr rfl
  | @cons p n l hne hp hrest ih =>
      obtain ⟨hfirst, hlater⟩ := List.nodup_cons.mp (Chain.cons hne hp hrest).nodup
      have hpq : ∀ q, pp = .node q → q ≠ p := by
        rintro q hq rfl
        exact hout q hq List.mem_cons_self
      have hout' : ∀ q, pp = .node q → q ∉ l.map Prod.fst := fun q hq hmem =>
        hout q hq (List.mem_cons_of_mem _ hmem)
      by_cases htest : test n.val = true
      · obtain ⟨head', h', hstep, hholds, hsame, hfreed⟩ := hpp.unlink_here hne hp hpq htest
        rw [List.eraseP_cons_of_pos (p := fun e : Nat × ν => test e.2) htest]
        refine ⟨head', h', n.next, loop_returns_now hstep, hholds, ?_, hsame.mono ?_, ?_⟩
        · refine hrest.congr fun e he => ?_
          have hmem := List.mem_map_of_mem (f := Prod.fst) he
          refine hsame.others e.1 (fun hep => hfirst ?_) fun heq => hout' e.1 heq hmem
          exact List.mem_singleton.mp hep ▸ hmem
        · exact List.cons_subset_cons p (List.nil_subset _)
        · intro q hq hfree
          rcases List.mem_cons.mp hq with rfl | hq
          · exact hfreed
          · exact absurd hq hfree
      · obtain ⟨head', h', p', hloop, ⟨n', hn', rfl⟩, hchain, hsame, hfree⟩ :=
          @ih (.node p) ⟨n, hp, rfl⟩ (by rintro q ⟨⟩; exact hfirst)
        have hval : n'.val = n.val := by
          have hmap := hsame.val p rfl
          rw [hn', hp] at hmap
          exact Option.some.inj hmap
        have hhead : head' = head := hsame.head nofun
        have hkeep : ∀ q, q ∉ l.map Prod.fst → q ≠ p → h' q = h q := fun q hq hqp =>
          hsame.others q hq fun heq => hqp (Place.node.inj heq).symm
        rw [List.eraseP_cons_of_neg (p := fun e : Nat × ν => test e.2) htest]
        refine ⟨head', h', p, (hpp.unlink_past hne hp htest).loop_returns hloop, ?_, ?_, ?_, ?_⟩
        · exact hpp.congr (fun _ => hhead) fun q hq => hkeep q (hout' q hq) (hpq q hq)
        · rw [← hval]
          exact .cons hne hn' hchain
        · refine ⟨fun _ => hhead, fun q hq => ?_, fun q hq hne => ?_⟩
          · rw [hkeep q (hout' q hq) (hpq q hq)]
          · obtain ⟨hqp, hql⟩ := not_or.mp (mt List.mem_cons.mpr hq)
            exact hkeep q hql hqp
        · intro q hq hnot
          rcases List.mem_cons.mp hq with rfl | hq
          · exact absurd List.mem_cons_self hnot
          · exact hfree q hq fun hmem => hnot (List.mem_cons_of_mem _ hmem)

theorem Chain.unlink_returns (hc : Chain h head l) :
    ∃ head' h', (unlink test head h).Returns (head', h')
      ∧ Chain h' head' (l.eraseP fun e => test e.2)
      ∧ (∀ q, q ∉ l.map Prod.fst → h' q = h q)
      ∧ ∀ q ∈ l.map Prod.fst, q ∉ (l.eraseP fun e => test e.2).map Prod.fst → h' q = none := by
  obtain ⟨head', h', p', hloop, rfl, hchain, hsame, hfree⟩ :=
    @unlink_place _ test _ _ _ _ hc .top rfl nofun
  exact ⟨head', h', hloop, hchain, fun q hq => hsame.others q hq nofun, hfree⟩

end Tracep.Linked
