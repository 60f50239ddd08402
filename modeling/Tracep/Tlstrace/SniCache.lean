import Tracep.Tlstrace.Events

/-!
# The server names that are kept

`set_sni` looks for the slot of the process, then for a free one, and in a
full table takes the slot of the process number, whosever it is. What is
thrown out may be stored again in another slot. Through all of it a process
has one slot at most, with the name stored last (`SlotCache.Caches.puts`),
and nothing is thrown out while the table has a slot for every process
(`SlotCache.Holds.puts`).
-/

namespace Tracep.Tlstrace.C

open SlotCache (Caches Holds Tidy latest)

/-- `sni_cache` after calls of `set_sni`, from the zeroed table. -/
def sniAfter (calls : List (Nat × Bytes)) : SniCache :=
  calls.foldl (fun c call => setSni c call.1 call.2) SlotCache.empty

/-- The host of the last call for a process. -/
def lastHost (calls : List (Nat × Bytes)) (pid : Nat) : Option Bytes := calls.reverse.lookup pid

/-- What is stored of a call. -/
def stored (call : Nat × Bytes) : Nat × Bytes := (call.1, call.2.take 255)

variable {calls : List (Nat × Bytes)} {pid : Nat} {host : Bytes}

theorem sniAfter_eq :
    sniAfter calls = SlotCache.puts overflowSlot SlotCache.empty (calls.map stored) := by
  rw [sniAfter, SlotCache.puts, List.foldl_map]
  rfl

theorem lastHost_snoc (call : Nat × Bytes) :
    lastHost (calls ++ [call]) = Function.update (lastHost calls) call.1 (some call.2) := by
  funext pid
  rw [lastHost, List.reverse_concat, List.lookup_cons]
  by_cases hpid : pid = call.1
  · rw [hpid, beq_self_eq_true, Function.update_self]
  · rw [beq_false_of_ne hpid, Function.update_of_ne hpid]
    rfl

/-- The stored hosts are those of the last calls, as far as they fit. -/
theorem latest_stored (calls : List (Nat × Bytes)) (pid : Nat) :
    latest (fun _ => none) (calls.map stored) pid = (lastHost calls pid).map (·.take 255) := by
  induction calls using List.reverseRecOn with
  | nil => rfl
  | append_singleton calls call ih =>
      rw [lastHost_snoc, List.map_append, latest, List.foldl_append]
      change Function.update (latest (fun _ => none) (calls.map stored)) call.1 _ pid = _
      by_cases hpid : pid = call.1
      · rw [hpid, Function.update_self, Function.update_self]
        rfl
      · rw [Function.update_of_ne hpid, Function.update_of_ne hpid, ih]

/-- At any time the table has for a process what was stored last, or nothing. -/
theorem caches_sniAfter (calls : List (Nat × Bytes)) :
    Caches (sniAfter calls) (latest (fun _ => none) (calls.map stored)) := by
  rw [sniAfter_eq]
  exact SlotCache.holds_empty.toCaches.puts

/-- It has what was stored last for every process while there are no more than slots. -/
theorem holds_sniAfter (h : (calls.map Prod.fst).toFinset.card ≤ 1024) :
    Holds (sniAfter calls) (latest (fun _ => none) (calls.map stored)) := by
  rw [sniAfter_eq]
  refine SlotCache.holds_empty.puts (fun _ hk => absurd rfl hk) (fun e he => ?_) h
  obtain ⟨call, hcall, rfl⟩ := List.mem_map.mp he
  exact List.mem_toFinset.mpr (List.mem_map.mpr ⟨call, hcall, rfl⟩)

/-- After any calls of `set_sni`, no process has two slots, `get_sni` gives nothing or the first
255 bytes of the host that was set last for the process, and it gives these if the process has
been set and no more than 1024 processes have. -/
theorem getSni_fresh (calls : List (Nat × Bytes)) :
    Tidy (sniAfter calls)
      ∧ (∀ pid, getSni (sniAfter calls) pid = []
          ∨ ∃ host, lastHost calls pid = some host ∧ getSni (sniAfter calls) pid = host.take 255)
      ∧ ((calls.map Prod.fst).toFinset.card ≤ 1024 → ∀ pid host,
          lastHost calls pid = some host → getSni (sniAfter calls) pid = host.take 255) := by
  have hcaches := caches_sniAfter calls
  refine ⟨hcaches.tidy, fun pid => ?_, fun hfew pid host hlast => ?_⟩
  · rcases hcaches.get (k := pid) with hget | hget
    · rw [getSni, hget]
      exact Or.inl rfl
    · rw [getSni, hget, latest_stored]
      cases hlast : lastHost calls pid with
      | none => exact Or.inl rfl
      | some host => exact Or.inr ⟨host, rfl, rfl⟩
  · rw [getSni, (holds_sniAfter hfew).get, latest_stored, hlast]
    rfl

/-- One process is set twice, another once. -/
theorem getSni_fresh_sample : getSni (sniAfter [(7, [97]), (9, [98]), (7, [99])]) 7 = [99] :=
  (getSni_fresh [(7, [97]), (9, [98]), (7, [99])]).2.2 (by decide) 7 [99] rfl

end Tracep.Tlstrace.C
