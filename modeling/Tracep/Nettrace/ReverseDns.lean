import Tracep.Lib.Background
import Tracep.Lib.CBuffer
import Tracep.Nettrace.Handlers

/-!
# Names of remote hosts

With `-r` a line shows the name of the remote host, if it is known by then.
`asyncReverseLookup` answers with what its cache holds, and the first time
it is asked about an address it starts a lookup that fills in the name when
it ends. The Go tracer takes its lock twice, to look and to note that it
starts a lookup, and lookups of other addresses end in between; the C tracer
notes it at once, but may then fail to start one.

However the calls and the ends of the lookups come, no address is looked up
twice, and the answer is what its lookup has brought, or empty
(`asyncReverseLookup_go`, `asyncReverseLookup_c`). Where no start
fails the tracers give the same answers (`asyncReverseLookup_agree`).
-/

namespace Tracep.Nettrace

open Background Schedules

/-- A call about an address, its going on to start a lookup, or the end of a lookup, with the
name that was found, the first one if there are several. -/
abbrev LookupAct := Act Bytes (Option Bytes)

abbrev LookupOut := Out Bytes Bytes

/-! ## The code -/

namespace Go

/-- The caches, the lookups under way, and what a call has read that is about to start one. -/
structure ReverseDns where
  dnsCache : Bytes → Option Bytes
  dnsLaunced : Bytes → Option Bool
  lookups : List Bytes
  caller : Option (Bytes × Bytes)

def ReverseDns.start : ReverseDns := ⟨fun _ => none, fun _ => none, [], none⟩

def resolved (names : Option Bytes) : Bytes :=
  names.elim [] fun name => name.rdropWhile (· = 46)

def asyncReverseLookup (s : ReverseDns) : LookupAct → Option (ReverseDns × LookupOut)
  | .call ip =>
      if s.caller.isSome then none
      else
        let name := (s.dnsCache ip).getD []
        let launched := (s.dnsLaunced ip).getD false
        if launched then some (s, ⟨some (ip, name), none⟩)
        else some ({ s with caller := some (ip, name) }, ⟨none, none⟩)
  | .spawn ok =>
      match s.caller with
      | none => none
      | some (ip, name) =>
          -- a goroutine always starts
          if ok then
            some ({ s with
                dnsLaunced := Function.update s.dnsLaunced ip (some true)
                lookups := ip :: s.lookups
                caller := none },
              ⟨some (ip, name), some ip⟩)
          else none
  | .finish ip names =>
      if s.lookups.contains ip then
        some ({ s with
            dnsCache := Function.update s.dnsCache ip (some (resolved names))
            lookups := s.lookups.erase ip },
          ⟨none, none⟩)
      else none

end Go

namespace C

/-- `dns_ent`, without `ip`, which is the key of the entry. -/
structure DnsEnt where
  name : Bytes
  launched : Bool

def dnsBuckets : UInt32 := 256

def dnsBucket (ip : Bytes) : Nat := (strHash ip % dnsBuckets).toNat

abbrev DnsCache := Store.Chains Bytes DnsEnt

def dnsFind (cache : DnsCache) (ip : Bytes) : Option DnsEnt := (cache (dnsBucket ip)).lookup ip

/-- `dns_get_or_create`, where `calloc` gives memory. -/
def dnsGetOrCreate (cache : DnsCache) (ip : Bytes) : DnsCache × DnsEnt :=
  match dnsFind cache ip with
  | some e => (cache, e)
  | none =>
      let b := dnsBucket ip
      let e := ⟨[], false⟩
      (Function.update cache b ((cache b).insert (fitted 46 ip) e), e)

/-- Write to the entry of an address. -/
def dnsStore (cache : DnsCache) (ip : Bytes) (e : DnsEnt) : DnsCache :=
  let b := dnsBucket ip
  Function.update cache b ((cache b).replace (fitted 46 ip) e)

/-- The cache, the arguments of the workers, and the call that is about to create one, with
what it has written to `out`. -/
structure ReverseDns where
  dnsCache : DnsCache
  workers : List Bytes
  caller : Option (Bytes × Bytes)

def ReverseDns.start : ReverseDns := ⟨fun _ => ∅, [], none⟩

/-- What `dns_worker` makes of the name from `getnameinfo`. -/
def workerHost (nb : Option Bytes) : Bytes :=
  nb.elim [] fun nb => fitted 256 (nb.rdropWhile (· = 46))

/-- `async_reverse_lookup` and `dns_worker`. The buffer `out` has 256 bytes. -/
def asyncReverseLookup (s : ReverseDns) : LookupAct → Option (ReverseDns × LookupOut)
  | .call ip =>
      if s.caller.isSome then none
      else
        let e := dnsFind s.dnsCache ip
        let launched := e.any DnsEnt.launched
        let out := e.elim [] fun e => fitted 256 e.name
        if launched then some (s, ⟨some (ip, out), none⟩)
        else
          let (cache, e) := dnsGetOrCreate s.dnsCache ip
          some ({ s with
              dnsCache := dnsStore cache ip { e with launched := true }
              caller := some (ip, out) },
            ⟨none, none⟩)
  | .spawn ok =>
      match s.caller with
      | none => none
      | some (ip, out) =>
          -- `ok` is what `strdup` and `pthread_create` say
          some ({ s with workers := if ok then ip :: s.workers else s.workers, caller := none },
            ⟨some (ip, out), if ok then some ip else none⟩)
  | .finish ip nb =>
      if s.workers.contains ip then
        let (cache, e) := dnsGetOrCreate s.dnsCache ip
        some ({ s with
            dnsCache := dnsStore cache ip { e with name := fitted 256 (workerHost nb) }
            workers := s.workers.erase ip },
          ⟨none, none⟩)
      else none

end C

/-! ## What it is for -/

/-- The Go tracer is where the machine that computes names in the background is. -/
structure Go.Tracks (b : State Bytes Bytes) (s : Go.ReverseDns) : Prop where
  value : ∀ ip, b.value ip =
    if (s.dnsLaunced ip).getD false ∨ b.caller = some ip then some ((s.dnsCache ip).getD [])
    else none
  unknown : ∀ ip, (s.dnsLaunced ip).getD false = false → s.dnsCache ip = none
  launched : ∀ ip ∈ s.lookups, (s.dnsLaunced ip).getD false = true
  fresh : ∀ ip, b.caller = some ip → (s.dnsLaunced ip).getD false = false
  lookups : b.running = s.lookups
  caller : s.caller = b.caller.map fun ip => (ip, [])

/-- So is the C tracer, as to the addresses that fit into an entry. -/
structure C.Tracks (b : State Bytes Bytes) (s : C.ReverseDns) : Prop where
  value : ∀ ip, ip.length < 46 →
    C.dnsFind s.dnsCache ip = (b.value ip).map fun name => ⟨name, true⟩
  short : ∀ ip name, b.value ip = some name → name.length < 256
  asked : ∀ ip ∈ s.workers, (b.value ip).isSome
  calling : ∀ ip, b.caller = some ip → (b.value ip).isSome
  workers : b.running = s.workers
  caller : s.caller = b.caller.map fun ip => (ip, [])

/-- An address is looked up, and asked about again when its name is there. -/
def askedTwice (ip name : Bytes) : List LookupAct :=
  [.call ip, .spawn true, .finish ip (some name), .call ip]

theorem no_name : (default : Bytes) = [] := rfl

theorem erase_lookup (ips : List Bytes) (ip : Bytes) :
    @List.erase Bytes instBEqOfDecidableEq ips ip = ips.erase ip := by
  congr
  exact lawful_beq_subsingleton _ _

/-! ## The Go tracer -/

section GoRuns

variable {b : State Bytes Bytes} {s s' : Go.ReverseDns} {a : LookupAct} {as : List LookupAct}
  {os : List LookupOut} {ip : Bytes} {names : Option Bytes}

theorem Go.tracks_start : Go.Tracks .start .start where
  value := by simp [State.start, Go.ReverseDns.start]
  unknown := by simp [Go.ReverseDns.start]
  launched := by simp [Go.ReverseDns.start]
  fresh := by simp [State.start]
  lookups := rfl
  caller := rfl

theorem Go.Tracks.call (ht : Go.Tracks b s) :
    Matched Go.Tracks (Background.step Go.resolved b (.call ip))
      (Go.asyncReverseLookup s (.call ip)) := by
  unfold Background.step Go.asyncReverseLookup
  simp only [ht.caller, Option.isSome_map]
  cases hcaller : b.caller with
  | some k => exact .none
  | none =>
      have hvalue := ht.value ip
      simp only [hcaller, reduceCtorEq, or_false] at hvalue
      cases hlaunched : (s.dnsLaunced ip).getD false with
      | true =>
          rw [hvalue, hlaunched]
          exact .some ⟨ht, rfl⟩
      | false =>
          rw [hvalue, hlaunched]
          refine .some ⟨⟨?_, ht.unknown, ht.launched, ?_, ht.lookups, ?_⟩, rfl⟩
          · intro k
            by_cases hk : k = ip
            · subst hk
              simp only [Function.update_self, or_true, if_true, ht.unknown k hlaunched]
              rfl
            · have hk' : ip ≠ k := Ne.symm hk
              simp [hk, hk', ht.value k, hcaller]
          · rintro k ⟨⟩
            exact hlaunched
          · simp [ht.unknown ip hlaunched]

theorem Go.Tracks.spawn (ht : Go.Tracks b s) :
    Matched Go.Tracks (Background.step Go.resolved b (.spawn true))
      (Go.asyncReverseLookup s (.spawn true)) := by
  unfold Background.step Go.asyncReverseLookup
  simp only [ht.caller, if_true]
  cases hcaller : b.caller with
  | none => exact .none
  | some ip =>
      refine .some ⟨⟨?_, ?_, ?_, nofun, congrArg (ip :: ·) ht.lookups, rfl⟩, rfl⟩
      · intro k
        have hvalue := ht.value k
        by_cases hk : k = ip
        · subst hk
          simpa [hcaller] using hvalue
        · have hk' : ip ≠ k := Ne.symm hk
          simpa [hcaller, hk, hk'] using hvalue
      · intro k hk
        by_cases hkip : k = ip
        · simp [hkip] at hk
        · exact ht.unknown k (by simpa [hkip] using hk)
      · intro k hk
        by_cases hkip : k = ip
        · simp [hkip]
        · simpa [hkip] using ht.launched k (List.mem_of_ne_of_mem hkip hk)

theorem Go.Tracks.finish (ht : Go.Tracks b s) :
    Matched Go.Tracks (Background.step Go.resolved b (.finish ip names))
      (Go.asyncReverseLookup s (.finish ip names)) := by
  unfold Background.step Go.asyncReverseLookup
  simp only [ht.lookups, List.contains_iff_mem]
  by_cases hmem : ip ∈ s.lookups
  · have hlaunched := ht.launched ip hmem
    rw [if_pos hmem, if_pos hmem]
    refine .some ⟨⟨?_, ?_, ?_, ht.fresh, erase_lookup _ ip, ht.caller⟩, rfl⟩
    · intro k
      by_cases hk : k = ip
      · simp [hk, hlaunched]
      · simp [hk, ht.value k]
    · intro k hk
      have hkip : k ≠ ip := by
        rintro rfl
        simp [hlaunched] at hk
      simpa [hkip] using ht.unknown k hk
    · exact fun k hk => ht.launched k (List.mem_of_mem_erase hk)
  · rw [if_neg hmem, if_neg hmem]
    exact .none

theorem Go.Tracks.step (ht : Go.Tracks b s) (ha : a ≠ .spawn false) :
    Matched Go.Tracks (Background.step Go.resolved b a) (Go.asyncReverseLookup s a) := by
  cases a with
  | call ip => exact ht.call
  | spawn ok =>
      cases ok with
      | false => exact absurd rfl ha
      | true => exact ht.spawn
  | finish ip names => exact ht.finish

theorem Go.said_lookups (has : .spawn false ∉ as) :
    said (Background.step Go.resolved) .start as = said Go.asyncReverseLookup .start as := by
  refine said_eq ?_ Go.tracks_start
  intro a ha b s ht
  exact ht.step fun h => has (h ▸ ha)

/-- Over every interleaving of calls and lookups the Go tracer looks an address up once at most,
and answers with what that has brought. -/
theorem asyncReverseLookup_go
    (hrun : Schedules.run Go.asyncReverseLookup .start as = some (s', os)) :
    Sound Go.resolved (as.zip os) := by
  have has : .spawn false ∉ as := by
    intro hmem
    obtain ⟨s₁, x, hstep⟩ := possible_of_run hrun hmem
    cases hcaller : s₁.caller <;> simp [Go.asyncReverseLookup, hcaller] at hstep
  have hsaid := (Go.said_lookups has).trans (said_eq_some.mpr ⟨s', hrun⟩)
  obtain ⟨b, hb⟩ := said_eq_some.mp hsaid
  exact sound hb

theorem asyncReverseLookup_go_twice : ∃ s' os,
    Schedules.run Go.asyncReverseLookup .start (askedTwice [58, 58, 49] [108, 46]) = some (s', os)
      ∧ Sound Go.resolved ((askedTwice [58, 58, 49] [108, 46]).zip os) :=
  ⟨_, _, rfl, asyncReverseLookup_go rfl⟩

end GoRuns

/-! ## The C tracer -/

section CRuns

variable {b : State Bytes Bytes} {s s' : C.ReverseDns} {a : LookupAct} {as : List LookupAct}
  {os : List LookupOut} {cache : C.DnsCache} {ip ip' name : Bytes} {nb : Option Bytes}
  {e : C.DnsEnt}

/-- The address of an action fits into an entry. -/
def C.Fits : LookupAct → Prop
  | .call ip | .finish ip _ => ip.length < 46
  | .spawn _ => True

theorem C.fitted_key (hip : ip.length < 46) : fitted 46 ip = ip :=
  List.take_of_length_le (Nat.le_of_lt_succ hip)

theorem C.length_fitted (text : Bytes) : (fitted 256 text).length < 256 := by
  unfold fitted
  rw [List.length_take]
  omega

theorem C.fitted_name (hname : name.length < 256) : fitted 256 name = name :=
  List.take_of_length_le (Nat.le_of_lt_succ hname)

theorem C.length_workerHost (nb : Option Bytes) : (C.workerHost nb).length < 256 := by
  cases nb with
  | none => exact Nat.zero_lt_succ _
  | some nb => exact C.length_fitted _

/-- What is written to the entry of an address is found there, and nothing else changes. -/
theorem C.dnsFind_store (hip : ip.length < 46) :
    C.dnsFind (C.dnsStore (C.dnsGetOrCreate cache ip).1 ip e) ip'
      = if ip' = ip then some e else C.dnsFind cache ip' := by
  unfold C.dnsStore C.dnsGetOrCreate
  cases hfind : C.dnsFind cache ip with
  | some old =>
      simp only [C.fitted_key hip]
      refine Store.get_update_chain C.dnsBucket cache ip ip' _ (some e) ?_
      intro k
      refine (Store.dlookup_kreplace ip k e _).trans ?_
      rw [show ((cache (C.dnsBucket ip)).entries).dlookup ip = some old from hfind]
      rfl
  | none =>
      simp only [C.fitted_key hip, Function.update_self, Function.update_idem]
      refine Store.get_update_chain C.dnsBucket cache ip ip' _ (some e) ?_
      intro k
      refine (Store.dlookup_kreplace ip k e _).trans ?_
      by_cases hk : k = ip
      · rw [if_pos hk, if_pos hk]
        exact congrArg _ (AList.lookup_insert _)
      · rw [if_neg hk, if_neg hk]
        exact AList.lookup_insert_ne hk

theorem C.tracks_start : C.Tracks .start .start where
  value _ _ := rfl
  short := by simp [State.start]
  asked := by simp [C.ReverseDns.start]
  calling := by simp [State.start]
  workers := rfl
  caller := rfl

theorem C.Tracks.call (ht : C.Tracks b s) (hip : ip.length < 46) :
    Matched C.Tracks (Background.step C.workerHost b (.call ip))
      (C.asyncReverseLookup s (.call ip)) := by
  have hfind := ht.value ip hip
  unfold Background.step C.asyncReverseLookup
  simp only [ht.caller, Option.isSome_map]
  cases hcaller : b.caller with
  | some k => exact .none
  | none =>
      cases hvalue : b.value ip with
      | some name =>
          rw [hvalue] at hfind
          rw [hfind]
          refine .some ⟨ht, ?_⟩
          simp [C.fitted_name (ht.short ip name hvalue)]
      | none =>
          rw [hvalue] at hfind
          rw [hfind]
          refine .some ⟨⟨?_, ?_, ?_, ?_, ht.workers, rfl⟩, rfl⟩
          · intro k hk
            refine (C.dnsFind_store hip).trans ?_
            by_cases hkip : k = ip
            · simp [hkip, C.dnsGetOrCreate, hfind, no_name]
            · simp [hkip, ht.value k hk]
          · intro k name hname
            by_cases hkip : k = ip
            · subst hkip
              obtain rfl : [] = name := by simpa [no_name] using hname
              exact Nat.zero_lt_succ _
            · exact ht.short k name (by simpa [hkip] using hname)
          · intro k hk
            by_cases hkip : k = ip
            · simp [hkip]
            · simpa [hkip] using ht.asked k hk
          · rintro k ⟨⟩
            simp

theorem C.Tracks.spawn {ok : Bool} (ht : C.Tracks b s) :
    Matched C.Tracks (Background.step C.workerHost b (.spawn ok))
      (C.asyncReverseLookup s (.spawn ok)) := by
  unfold Background.step C.asyncReverseLookup
  simp only [ht.caller]
  cases hcaller : b.caller with
  | none => exact .none
  | some ip =>
      refine .some ⟨⟨ht.value, ht.short, ?_, nofun, ?_, rfl⟩, rfl⟩
      · cases ok with
        | false => exact ht.asked
        | true =>
            intro k hk
            rcases List.mem_cons.mp hk with rfl | hk
            · exact ht.calling k hcaller
            · exact ht.asked k hk
      · simp only [ht.workers]

theorem C.Tracks.finish (ht : C.Tracks b s) (hip : ip.length < 46) :
    Matched C.Tracks (Background.step C.workerHost b (.finish ip nb))
      (C.asyncReverseLookup s (.finish ip nb)) := by
  have hfind := ht.value ip hip
  unfold Background.step C.asyncReverseLookup
  simp only [ht.workers, List.contains_iff_mem]
  by_cases hmem : ip ∈ s.workers
  · obtain ⟨name, hname⟩ := Option.isSome_iff_exists.mp (ht.asked ip hmem)
    rw [hname] at hfind
    rw [if_pos hmem, if_pos hmem]
    refine .some ⟨⟨?_, ?_, ?_, ?_, erase_lookup _ ip, ht.caller⟩, rfl⟩
    · intro k hk
      refine (C.dnsFind_store hip).trans ?_
      by_cases hkip : k = ip
      · simp [hkip, C.dnsGetOrCreate, hfind, C.fitted_name (C.length_workerHost nb)]
      · simp [hkip, ht.value k hk]
    · intro k name hname
      by_cases hkip : k = ip
      · subst hkip
        obtain rfl : C.workerHost nb = name := by simpa using hname
        exact C.length_workerHost nb
      · exact ht.short k name (by simpa [hkip] using hname)
    · intro k hk
      by_cases hkip : k = ip
      · simp [hkip]
      · simpa [hkip] using ht.asked k (List.mem_of_mem_erase hk)
    · intro k hk
      by_cases hkip : k = ip
      · simp [hkip]
      · simpa [hkip] using ht.calling k hk
  · rw [if_neg hmem, if_neg hmem]
    exact .none

theorem C.Tracks.step (ht : C.Tracks b s) (ha : C.Fits a) :
    Matched C.Tracks (Background.step C.workerHost b a) (C.asyncReverseLookup s a) := by
  cases a with
  | call ip => exact ht.call ha
  | spawn ok => exact ht.spawn
  | finish ip nb => exact ht.finish ha

theorem C.said_lookups (has : ∀ a ∈ as, C.Fits a) :
    said (Background.step C.workerHost) .start as = said C.asyncReverseLookup .start as :=
  said_eq (fun a ha _ _ ht => ht.step (has a ha)) C.tracks_start

theorem C.fits_askedTwice : ∀ a ∈ askedTwice [58, 58, 49] [108, 46], C.Fits a := by
  simp [askedTwice, C.Fits]

end CRuns

/-! ## Both -/

section Both

variable {as : List LookupAct}

/-- What happens is the same to both: a lookup is started, and what it finds fits. -/
def Told : LookupAct → Prop
  | .call ip => ip.length < 46
  | .spawn ok => ok = true
  | .finish ip names => ip.length < 46 ∧ ∀ name ∈ names, name.length < 256

theorem workerHost_eq {names : Option Bytes} (h : ∀ name ∈ names, name.length < 256) :
    C.workerHost names = Go.resolved names := by
  cases names with
  | none => rfl
  | some name =>
      refine C.fitted_name (Nat.lt_of_le_of_lt ?_ (h name rfl))
      exact (List.rdropWhile_prefix (p := (· = 46)) name).length_le

/-- Where no lookup fails to start and all names fit, the tracers answer every call alike,
however the calls and the ends of the lookups come. -/
theorem asyncReverseLookup_agree (has : ∀ a ∈ as, Told a) :
    said Go.asyncReverseLookup .start as = said C.asyncReverseLookup .start as := by
  have hgo : .spawn false ∉ as := fun hmem => Bool.false_ne_true (has _ hmem)
  have hc : ∀ a ∈ as, C.Fits a := by
    intro a ha
    have hcommon := has a ha
    cases a with
    | call ip => exact hcommon
    | spawn ok => trivial
    | finish ip names => exact hcommon.1
  rw [← Go.said_lookups hgo, ← C.said_lookups hc]
  refine said_eq (R := Eq) ?_ rfl
  rintro a ha b _ rfl
  have heq : Background.step C.workerHost b a = Background.step Go.resolved b a := by
    refine step_congr fun ip names h => ?_
    subst h
    exact workerHost_eq (has _ ha).2
  rw [heq]
  cases Background.step Go.resolved b a with
  | none => exact .none
  | some x => exact .some ⟨rfl, rfl⟩

theorem asyncReverseLookup_agree_twice :
    said Go.asyncReverseLookup .start (askedTwice [58, 58, 49] [108, 46])
      = said C.asyncReverseLookup .start (askedTwice [58, 58, 49] [108, 46]) :=
  asyncReverseLookup_agree (by simp [askedTwice, Told])

end Both

end Tracep.Nettrace
