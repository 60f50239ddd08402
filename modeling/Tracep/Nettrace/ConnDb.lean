import Tracep.Lib.Buckets
import Tracep.Lib.CBuffer
import Tracep.Nettrace.Handlers

/-!
# The connections of the C net tracer in memory

`conndb` is an array of 1024 lists of entries, and an entry has room for a
key of 159 bytes. The handlers are modelled over a store; here are the lists
with their pointers. What `calloc` gives is part of a call, and so is what is
written to an entry through the pointer that was returned for it.

In whatever order the functions are called, the table stands for a map from
keys to entries (`conndb_map`). What the handlers do with their store they do
to this map (`Matches`).
-/

namespace Tracep.Nettrace.C

open Exec Linked History

/-! ## The code -/

/-- `conn_entry`, without `next`. -/
structure Entry where
  key : Bytes
  fields : ConnEntry ConnTuple

def ConnFields.zero : ConnEntry ConnTuple := ⟨.zero, 0, [], .unknown, 0, 0⟩

/-- What `calloc` makes of the memory for an entry. -/
def Entry.zero : Entry := ⟨List.replicate 160 0, ConnFields.zero⟩

/-- `conndb`, with the entries that are allocated. -/
abbrev ConnDb := Table Entry 1024

theorem bucket_lt (key : Bytes) : (strHash key % conndbBuckets).toNat < 1024 := by
  rw [UInt32.toNat_mod]
  exact Nat.mod_lt _ (by decide)

/-- `str_hash(key) % CONNDB_BUCKETS`. -/
def bucketOf (key : Bytes) : Fin 1024 := ⟨(strHash key % conndbBuckets).toNat, bucket_lt key⟩

/-- `!strcmp(e->key, key)`. -/
def sameKey (key : Bytes) (e : Entry) : Bool := cstr e.key = key

def dbGet (db : ConnDb) (key : Bytes) : Exec Nat :=
  seek (sameKey key) db.heap (db.heads (bucketOf key))

/-- `db_put`, where `calloc` would return `p`. -/
def dbPut (p : Nat) (db : ConnDb) (key : Bytes) : Exec (ConnDb × Nat) := do
  let b := bucketOf key
  let e ← seek (sameKey key) db.heap (db.heads b)
  if e ≠ 0 then return (db, e)
  else if p = 0 then return (db, 0)
  else do
    let text ← snprintf Entry.zero.key 160 key
    return (db.push b p { Entry.zero with key := text }, p)

def dbDelete (db : ConnDb) (key : Bytes) : Exec ConnDb := do
  let b := bucketOf key
  let (head, heap) ← unlink (sameKey key) (db.heads b) db.heap
  return db.relink b head heap

/-- What the handlers do with the pointer to an entry. -/
def fill (db : ConnDb) (e : Nat) (fields : ConnEntry ConnTuple) : Exec ConnDb :=
  if e = 0 then return db
  else do
    let node ← load db.heap e
    db.store e { node.val with fields }

/-- A key that fits into an entry. -/
structure Key where
  text : Bytes
  noNul : 0 ∉ text
  short : text.length < 160

/-- The calls, and writing through the pointer that `db_get` returns. -/
inductive DbCall where
  | put (key : Key)
  | get (key : Key)
  | delete (key : Key)
  | fill (key : Key) (fields : ConnEntry ConnTuple)

/-- The table after a call, and the pointer that is returned, if one is. -/
def DbCall.run (p : Nat) (db : ConnDb) : DbCall → Exec (ConnDb × Nat)
  | put key => dbPut p db key.text
  | get key => do
      let e ← dbGet db key.text
      return (db, e)
  | delete key => do
      let db ← dbDelete db key.text
      return (db, 0)
  | fill key fields => do
      let e ← dbGet db key.text
      let db ← C.fill db e fields
      return (db, e)

/-! ## What it is for -/

/-- Entries by key, each with its address. -/
abbrev ConnMap := Bytes → Option (Nat × ConnEntry ConnTuple)

/-- What a call does to a map. -/
def DbCall.apply (p : Nat) (f : ConnMap) : DbCall → ConnMap
  | put key => Function.update f key.text (some ((f key.text).getD (p, ConnFields.zero)))
  | get _ => f
  | delete key => Function.update f key.text none
  | fill key fields => Function.update f key.text ((f key.text).map fun e => (e.1, fields))

/-- The address of what a call is about. -/
def DbCall.answer (p : Nat) (f : ConnMap) : DbCall → Nat
  | put key => ((f key.text).getD (p, ConnFields.zero)).1
  | get key => (f key.text).elim 0 Prod.fst
  | delete _ => 0
  | fill key _ => (f key.text).elim 0 Prod.fst

/-- How the entries are keyed. -/
def connHashing : Hashing Bytes Entry 1024 := ⟨fun e => cstr e.key, bucketOf⟩

/-- The table stands for a map. -/
def StandsFor (db : ConnDb) (f : ConnMap) : Prop :=
  ∃ chains m, connHashing.Represents db chains m
    ∧ ∀ k, f k = (m k).map fun e => (e.1, e.2.fields)

/-- Where `calloc` is called it gives memory that is not in use. -/
def Allocates (p : Nat) (db : ConnDb) (call : DbCall) : Prop :=
  ∀ key, call = .put key → (dbGet db key.text).Returns 0 → p ≠ 0 ∧ db.heap p = none

/-! ## One call -/

section Calls

variable {db db' : ConnDb} {f : ConnMap} {p : Nat} {call : DbCall} {key : Bytes}
  {chains : Fin 1024 → List (Nat × Entry)} {m : Bytes → Option (Nat × Entry)}

theorem sameKey_iff (key : Bytes) (e : Entry) :
    sameKey key e = true ↔ connHashing.key e = key := decide_eq_true_iff

theorem dbGet_returns (hr : connHashing.Represents db chains m) (key : Bytes) :
    (dbGet db key).Returns (address (m key)) := hr.seek_returns (sameKey_iff key)

theorem address_ne_zero (hr : connHashing.Represents db chains m) {e : Nat × Entry}
    (he : m key = some e) : e.1 ≠ 0 := (hr.live_of_mem (hr.mem_of_map he)).1

/-- The copy of a key in a new entry. -/
theorem snprintf_key (key : Key) :
    ∃ text, snprintf Entry.zero.key 160 key.text = pure text ∧ cstr text = key.text := by
  have hroom : 160 ≤ Entry.zero.key.length := Nat.le_of_eq List.length_replicate.symm
  refine ⟨_, snprintf_eq (by decide) hroom, ?_⟩
  rw [cstr_append_nul, fitted, List.take_of_length_le (Nat.le_sub_one_of_lt key.short),
    cstr_of_noNul key.noNul]

theorem map_update {g : Nat × Entry → Nat × ConnEntry ConnTuple} (hf : ∀ k, f k = (m k).map g)
    (e : Option (Nat × Entry)) (k : Bytes) :
    Function.update f key (e.map g) k = (Function.update m key e k).map g := by
  by_cases hk : k = key
  · rw [hk, Function.update_self, Function.update_self]
  · rw [Function.update_of_ne hk, Function.update_of_ne hk, hf]

theorem dbPut_returns (h : StandsFor db f) (key : Key) (halloc : Allocates p db (.put key)) :
    ∃ db', (dbPut p db key.text).Returns (db', (DbCall.put key).answer p f)
      ∧ StandsFor db' ((DbCall.put key).apply p f) := by
  obtain ⟨chains, m, hr, hf⟩ := h
  have hget := dbGet_returns hr key.text
  rw [dbPut, DbCall.answer, DbCall.apply]
  simp only []
  rw [dbGet] at hget
  cases hm : m key.text with
  | some e =>
      have hfe : f key.text = some (e.1, e.2.fields) := by rw [hf, hm]; rfl
      rw [hm] at hget
      refine ⟨db, ?_, chains, m, hr, ?_⟩
      · rw [hget.bind_iff, address, Option.elim_some, if_pos (address_ne_zero hr hm), hfe]
        exact returns_pure.mpr rfl
      · rw [hfe, Option.getD_some, ← hfe, Function.update_eq_self]
        exact hf
  | none =>
      have hfe : f key.text = none := by rw [hf, hm]; rfl
      rw [hm] at hget
      obtain ⟨hp, hfree⟩ := halloc key rfl hget
      obtain ⟨text, htext, hcstr⟩ := snprintf_key key
      have hkey : connHashing.key ⟨text, ConnFields.zero⟩ = key.text := hcstr
      refine ⟨_, ?_, _, _, hr.push hm hp hfree hkey, ?_⟩
      · rw [hget.bind_iff, address, Option.elim_none, if_neg (not_not.mpr rfl), if_neg hp, htext,
          pure_bind, hfe]
        exact returns_pure.mpr rfl
      · rw [hfe]
        exact map_update hf (some (p, ⟨text, ConnFields.zero⟩))

theorem dbDelete_returns (h : StandsFor db f) (key : Key) :
    ∃ db', (dbDelete db key.text).Returns db' ∧ StandsFor db' ((DbCall.delete key).apply p f) := by
  obtain ⟨chains, m, hr, hf⟩ := h
  obtain ⟨head, heap, hunlink, hr'⟩ := hr.unlink_returns (sameKey_iff key.text)
  refine ⟨_, ?_, _, _, hr', map_update hf none⟩
  rw [dbDelete]
  exact hunlink.bind_iff.mpr (returns_pure.mpr rfl)

theorem fill_returns (h : StandsFor db f) (key : Key) (fields : ConnEntry ConnTuple) :
    ∃ db', (fill db ((f key.text).elim 0 Prod.fst) fields).Returns db'
      ∧ StandsFor db' ((DbCall.fill key fields).apply p f) := by
  obtain ⟨chains, m, hr, hf⟩ := h
  rw [fill, DbCall.apply]
  cases hm : m key.text with
  | none =>
      have hfe : f key.text = none := by rw [hf, hm]; rfl
      refine ⟨db, ?_, chains, m, hr, ?_⟩
      · rw [hfe, Option.elim_none, if_pos rfl]
        exact returns_pure.mpr rfl
      · rw [hfe, Option.map_none, ← hfe, Function.update_eq_self]
        exact hf
  | some e =>
      obtain ⟨e, entry⟩ := e
      have hfe : f key.text = some (e, entry.fields) := by rw [hf, hm]; rfl
      obtain ⟨hne, node, hnode, hval⟩ := hr.live_of_mem (hr.mem_of_map hm)
      obtain ⟨db', chains', hstore, hr'⟩ :=
        hr.store_returns (w := { entry with fields }) hm (hr.key_of_map hm)
      refine ⟨db', ?_, chains', _, hr', ?_⟩
      · rw [hfe, Option.elim_some, if_neg hne, load_of_some hnode, pure_bind, hval]
        exact hstore
      · rw [hfe]
        exact map_update hf (some (e, { entry with fields }))

/-- Every call returns, and does to the table what it does to the map. -/
theorem DbCall.run_returns (h : StandsFor db f) (halloc : Allocates p db call) :
    ∃ db', (call.run p db).Returns (db', call.answer p f) ∧ StandsFor db' (call.apply p f) := by
  have hget (key : Bytes) : (dbGet db key).Returns ((f key).elim 0 Prod.fst) := by
    obtain ⟨chains, m, hr, hf⟩ := h
    have hfound := dbGet_returns hr key
    rw [hf]
    cases hm : m key <;> rw [hm] at hfound <;> exact hfound
  cases call with
  | put key => exact dbPut_returns h key halloc
  | get key => exact ⟨db, (hget key.text).bind_iff.mpr (returns_pure.mpr rfl), h⟩
  | delete key =>
      obtain ⟨db', hdelete, hstands⟩ := dbDelete_returns (p := p) h key
      exact ⟨db', hdelete.bind_iff.mpr (returns_pure.mpr rfl), hstands⟩
  | fill key fields =>
      obtain ⟨db', hfill, hstands⟩ := fill_returns (p := p) h key fields
      refine ⟨db', (hget key.text).bind_iff.mpr ?_, hstands⟩
      exact hfill.bind_iff.mpr (returns_pure.mpr rfl)

end Calls

/-! ## Runs -/

/-- A call, what `calloc` would give for it, and what is returned. -/
structure DbStep where
  call : DbCall
  calloc : Nat
  ret : Nat

structure DbNext (db : ConnDb) (x : DbStep) (db' : ConnDb) : Prop where
  allocates : Allocates x.calloc db x.call
  returns : (x.call.run x.calloc db).Returns (db', x.ret)

/-- The map that calls lead to. -/
def mapOf (steps : List DbStep) : ConnMap :=
  steps.foldl (fun f x => x.call.apply x.calloc f) fun _ => none

theorem mapOf_snoc (steps : List DbStep) (x : DbStep) :
    mapOf (steps ++ [x]) = x.call.apply x.calloc (mapOf steps) := List.foldl_concat _ _ _ _

theorem run_standsFor {steps : List DbStep} {db : ConnDb}
    (hrun : Trace DbNext Table.empty steps db) : StandsFor db (mapOf steps) := by
  induction hrun with
  | nil => exact ⟨_, fun _ => none, Hashing.represents_empty, fun _ => rfl⟩
  | @snoc steps db db' x _ hx ih =>
      obtain ⟨db₁, hreturns, hstands⟩ := DbCall.run_returns ih hx.allocates
      obtain ⟨rfl, -⟩ := Prod.mk.inj (hreturns.unique hx.returns)
      rw [mapOf_snoc]
      exact hstands

/-! ## The store of the handlers -/

section Handlers

variable {d : Store.Chains Bytes (ConnEntry ConnTuple)} {f : ConnMap}

/-- The store has the entries of the map. -/
def Matches (d : Store.Chains Bytes (ConnEntry ConnTuple)) (f : ConnMap) : Prop :=
  ∀ k, conndb.get d k = (f k).map Prod.snd

theorem Matches.update (h : Matches d f) {key : Bytes} {d' : Store.Chains Bytes (ConnEntry ConnTuple)}
    {e : Option (Nat × ConnEntry ConnTuple)}
    (hd : ∀ k, conndb.get d' k = if k = key then e.map Prod.snd else conndb.get d k) :
    Matches d' (Function.update f key e) := by
  intro k
  rw [hd]
  by_cases hk : k = key
  · rw [if_pos hk, hk, Function.update_self]
  · rw [if_neg hk, Function.update_of_ne hk, h]

theorem Matches.delete (h : Matches d f) (p : Nat) (key : Key) :
    Matches (conndb.delete d key.text) ((DbCall.delete key).apply p f) :=
  h.update (conndb.get_delete d key.text)

/-- What is put into the store is written to the entry, a new one or the one there is. -/
theorem Matches.fill (h : Matches d f) (p : Nat) (key : Key) (fields : ConnEntry ConnTuple)
    (hkey : (f key.text).isSome) :
    Matches (conndb.put d key.text fields) ((DbCall.fill key fields).apply p f) := by
  obtain ⟨e, he⟩ := Option.isSome_iff_exists.mp hkey
  rw [DbCall.apply, he]
  exact h.update (conndb.get_put d key.text fields)

end Handlers

/-! ## Every order of calls -/

/-- A key is in the map if it has been put and not deleted since. -/
theorem mapOf_isSome_iff (steps : List DbStep) (key : Bytes) : (mapOf steps key).isSome ↔
    Since (fun x => ∃ k : Key, k.text = key ∧ x.call = .put k)
      (fun x => ∃ k : Key, k.text = key ∧ x.call = .delete k) steps := by
  induction steps using List.reverseRecOn with
  | nil => exact iff_of_false Bool.false_ne_true not_since_nil
  | append_singleton steps x ih =>
      rw [mapOf_snoc, since_snoc, ← ih]
      cases x.call with
      | put k =>
          simp only [DbCall.put.injEq, reduceCtorEq, and_false, exists_false, exists_eq_right',
            not_false_eq_true, and_true, DbCall.apply]
          by_cases hk : k.text = key
          · rw [hk, Function.update_self]
            exact iff_of_true rfl (Or.inl rfl)
          · rw [Function.update_of_ne (Ne.symm hk), or_iff_right hk]
      | get k =>
          simp only [reduceCtorEq, and_false, exists_false, not_false_eq_true, and_true, false_or,
            DbCall.apply]
      | delete k =>
          simp only [DbCall.delete.injEq, reduceCtorEq, and_false, exists_false, exists_eq_right',
            false_or, DbCall.apply]
          by_cases hk : k.text = key
          · rw [hk, Function.update_self]
            exact iff_of_false Bool.false_ne_true fun h => h.2 rfl
          · rw [Function.update_of_ne (Ne.symm hk), and_iff_left hk]
      | fill k fields =>
          simp only [reduceCtorEq, and_false, exists_false, not_false_eq_true, and_true, false_or,
            DbCall.apply]
          by_cases hk : k.text = key
          · rw [hk, Function.update_self, Option.isSome_map]
          · rw [Function.update_of_ne (Ne.symm hk)]

/-- What the map has for a key is in memory, in an entry with this key. -/
theorem StandsFor.entry {db : ConnDb} {f : ConnMap} (h : StandsFor db f) {key : Bytes}
    {e : Nat × ConnEntry ConnTuple} (he : f key = some e) :
    e.1 ≠ 0 ∧ ∃ node, db.heap e.1 = some node ∧ cstr node.val.key = key
      ∧ node.val.fields = e.2 := by
  obtain ⟨chains, m, hr, hf⟩ := h
  rw [hf] at he
  obtain ⟨e, hm, rfl⟩ := Option.map_eq_some_iff.mp he
  obtain ⟨hne, node, hnode, hval⟩ := hr.live_of_mem (hr.mem_of_map hm)
  exact ⟨hne, node, hnode, hval ▸ hr.key_of_map hm, hval ▸ rfl⟩

/-- From the empty table on, in whatever order the functions are called: the table stands for the
map that the calls lead to; each list ends, and has keys of its own and each of them once; a key is
in the map from when it is put to when it is deleted, and has an entry in memory then; and every
call returns, with the address of its entry, and does to the table what it does to the map. -/
theorem conndb_map {steps : List DbStep} {db : ConnDb}
    (hrun : Trace DbNext Table.empty steps db) :
    StandsFor db (mapOf steps)
      ∧ (∀ b, ∃ l, Chain db.heap (db.heads b) l ∧ (∀ e ∈ l, bucketOf (cstr e.2.key) = b)
        ∧ (l.map fun e => cstr e.2.key).Nodup)
      ∧ (∀ key, (mapOf steps key).isSome ↔
        Since (fun x => ∃ k : Key, k.text = key ∧ x.call = .put k)
          (fun x => ∃ k : Key, k.text = key ∧ x.call = .delete k) steps)
      ∧ (∀ key e, mapOf steps key = some e → e.1 ≠ 0 ∧ ∃ node, db.heap e.1 = some node
        ∧ cstr node.val.key = key ∧ node.val.fields = e.2)
      ∧ ∀ (call : DbCall) p, Allocates p db call →
        ∃ db', (call.run p db).Returns (db', call.answer p (mapOf steps))
          ∧ StandsFor db' (call.apply p (mapOf steps)) := by
  have hstands := run_standsFor hrun
  refine ⟨hstands, fun b => ?_, mapOf_isSome_iff steps, fun key e he => hstands.entry he,
    fun call p halloc => DbCall.run_returns hstands halloc⟩
  obtain ⟨chains, _, hr, -⟩ := hstands
  exact ⟨chains b, hr.chain b, hr.bucket b, hr.once b⟩

def sampleKey : Key := ⟨[97], of_decide_eq_true rfl, of_decide_eq_true rfl⟩

def samplePut : DbStep := ⟨.put sampleKey, 64, 64⟩
def sampleGet : DbStep := ⟨.get sampleKey, 0, 64⟩

theorem sample_put : ∃ db, DbNext Table.empty samplePut db := by
  have halloc : Allocates 64 Table.empty (.put sampleKey) := fun _ _ _ => ⟨by decide, rfl⟩
  obtain ⟨db, hput, -⟩ := DbCall.run_returns (run_standsFor .nil) halloc
  exact ⟨db, halloc, hput⟩

theorem sample_get {db : ConnDb} (hput : DbNext Table.empty samplePut db) :
    ∃ db', DbNext db sampleGet db' := by
  have hrun : Trace DbNext Table.empty [samplePut] db := .snoc .nil hput
  have halloc : Allocates 0 db (.get sampleKey) := nofun
  obtain ⟨db', hget, -⟩ := DbCall.run_returns (run_standsFor hrun) halloc
  exact ⟨db', halloc, hget⟩

/-- A key that is put is in the table, at the address that `calloc` gave. -/
theorem conndb_map_sample : ∃ db,
    StandsFor db (mapOf [samplePut, sampleGet])
      ∧ mapOf [samplePut, sampleGet] [97] = some (64, ConnFields.zero)
      ∧ ∃ db', (DbCall.run 0 db (.delete sampleKey)).Returns (db', 0) := by
  obtain ⟨db, hput⟩ := sample_put
  obtain ⟨db', hget⟩ := sample_get hput
  obtain ⟨hstands, -, -, -, hcall⟩ := conndb_map (.snoc (.snoc .nil hput) hget)
  obtain ⟨db'', hdelete, -⟩ := hcall (.delete sampleKey) 0 nofun
  exact ⟨db', hstands, rfl, db'', hdelete⟩

end Tracep.Nettrace.C
