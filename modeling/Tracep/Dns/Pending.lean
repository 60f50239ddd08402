import Tracep.Dns.MainLoop
import Tracep.Lib.Matching

/-!
# Which query a response is reported with

Both `pending` tables keep the last unanswered query of each transaction id
(`Go.matcher`, `C.matcher`), so over any run both loops pair a response with
the latest query of its id that has not been answered (`loops_pair_alike`).
The id is all they compare. An event therefore shows a query of the
response's own socket exactly when no other client's query with the same id
was the last to be captured before it (`sameSocket_iff`).
-/

namespace Tracep.Dns

variable {T : Type}

/-- What a packet is to a table of queries. -/
def role (id flags src dst : UInt16) : Role UInt16 :=
  if flags &&& 0x8000 = 0 ∧ dst = 53 then .ask id
  else if flags &&& 0x8000 ≠ 0 ∧ src = 53 then .reply id
  else .skip

theorem role_eq_ask {id flags src dst k : UInt16} (h : role id flags src dst = .ask k) :
    (flags &&& 0x8000 = 0 ∧ dst = 53) ∧ id = k := by
  unfold role at h
  split at h
  · exact ⟨‹_›, Role.ask.inj h⟩
  · split at h <;> cases h

theorem role_eq_reply {id flags src dst k : UInt16} (h : role id flags src dst = .reply k) :
    ¬(flags &&& 0x8000 = 0 ∧ dst = 53) ∧ (flags &&& 0x8000 ≠ 0 ∧ src = 53) ∧ id = k := by
  unfold role at h
  split at h
  · cases h
  · split at h
    · exact ⟨‹_›, ‹_›, Role.reply.inj h⟩
    · cases h

theorem role_eq_skip {id flags src dst : UInt16} (h : role id flags src dst = .skip) :
    ¬(flags &&& 0x8000 = 0 ∧ dst = 53) ∧ ¬(flags &&& 0x8000 ≠ 0 ∧ src = 53) := by
  unfold role at h
  split at h
  · cases h
  · split at h
    · cases h
    · exact ⟨‹_›, ‹_›⟩

/-- What a parsed packet is to the Go table. -/
def Go.roleOf (p : Capture Go.DnsMsg T) : Role UInt16 :=
  role p.msg.id p.msg.flags p.src p.dst

/-- What a parsed packet is to the C table. -/
def C.roleOf (p : Capture C.DnsMsg T) : Role UInt16 :=
  role p.msg.id p.msg.flags p.src p.dst

/-- One captured packet as each loop sees it. -/
structure Packet (T : Type) where
  go : Capture Go.DnsMsg T
  c : Capture C.DnsMsg T
  src_eq : c.src = go.src
  dst_eq : c.dst = go.dst
  id_eq : c.msg.id = go.msg.id
  flags_eq : c.msg.flags = go.msg.flags

def Packet.role (p : Packet T) : Role UInt16 := Go.roleOf p.go

theorem Packet.c_role (p : Packet T) : C.roleOf p.c = p.role := by
  rw [C.roleOf, p.id_eq, p.flags_eq, p.src_eq, p.dst_eq]
  rfl

namespace C

theorem slot_inj {id id' : UInt16} : slot id = slot id' ↔ id = id' := by
  rw [slot, slot, Fin.mk.injEq]
  exact UInt16.toNat_inj

theorem get_set (pending : Table T) (i j : Fin 65536) (s : PendingT T) :
    Vector.get (pending.set i.1 s i.2) j = if j = i then s else pending.get j := by
  obtain ⟨i, hi⟩ := i
  obtain ⟨j, hj⟩ := j
  change (pending.set i s hi)[j] = _
  rw [Vector.getElem_set]
  simp only [Fin.mk.injEq, eq_comm]
  rfl

/-- What a table keeps under an id. -/
def Table.find (pending : Table T) (id : UInt16) : Option (PendingT T) :=
  let s := pending.get (slot id)
  if s.set then some s else none

theorem find_set (pending : Table T) (id id' : UInt16) (s : PendingT T) :
    Table.find (pending.set (slot id).1 s (slot id).2) id'
      = if id' = id then (if s.set then some s else none) else pending.find id' := by
  rw [Table.find, get_set]
  simp only [slot_inj]
  by_cases h : id' = id
  · simp only [if_pos h]
  · simp only [if_neg h]
    rfl

end C

/-! ## The socket of a query -/

/-- Every event of `out` pairs a response with a query sent from the port it goes to. -/
def SameSocket {M E : Type} (roleOf : Capture M T → Role UInt16)
    (report : Capture M T → Capture M T → E) (ps : List (Capture M T))
    (out : List (Option E)) : Prop :=
  ∀ i e, out[i]? = some (some e) → ∃ j r q, Paired (ps.map roleOf) i j
    ∧ ps[i]? = some r ∧ ps[j]? = some q ∧ e = report r q ∧ r.dst = q.src

/-- Wherever the last unanswered query with a response's id is a wanted one, it was sent
from the port the response goes to. -/
def NoForeignQuery {M : Type} (roleOf : Capture M T → Role UInt16)
    (wanted : Capture M T → Bool) (ps : List (Capture M T)) : Prop :=
  ∀ i j r q, Paired (ps.map roleOf) i j → ps[i]? = some r → ps[j]? = some q →
    wanted q = true → r.dst = q.src

/-- A loop that reports the pairs of a run, and emits those with a wanted query, keeps to
sockets exactly when the run has no foreign queries. -/
theorem sameSocket_iff {M E : Type} {roleOf : Capture M T → Role UInt16}
    {report : Capture M T → Capture M T → E} {emit : E → Option E}
    {wanted : Capture M T → Bool}
    (hemit : ∀ r q, emit (report r q) = if wanted q then some (report r q) else none)
    {ps : List (Capture M T)} {out : List (Option E)}
    (hout : ∀ i e, out[i]? = some (some e) ↔ ∃ j r q, Paired (ps.map roleOf) i j
      ∧ ps[i]? = some r ∧ ps[j]? = some q ∧ e = report r q) :
    SameSocket roleOf report ps (out.map (·.bind emit)) ↔ NoForeignQuery roleOf wanted ps := by
  have hfiltered : ∀ (i : Nat) (e : E), (out.map (·.bind emit))[i]? = some (some e) ↔
      ∃ j r q, Paired (ps.map roleOf) i j ∧ ps[i]? = some r ∧ ps[j]? = some q
        ∧ wanted q = true ∧ e = report r q := by
    intro i e
    rw [List.getElem?_map, Option.map_eq_some_iff]
    constructor
    · rintro ⟨o, ho, he⟩
      obtain ⟨e', rfl, he'⟩ := Option.bind_eq_some_iff.mp he
      obtain ⟨j, r, q, hp, hr, hq, rfl⟩ := (hout i e').mp ho
      rw [hemit] at he'
      split at he'
      · exact ⟨j, r, q, hp, hr, hq, ‹_›, (Option.some.inj he').symm⟩
      · cases he'
    · rintro ⟨j, r, q, hp, hr, hq, hw, rfl⟩
      exact ⟨_, (hout i _).mpr ⟨j, r, q, hp, hr, hq, rfl⟩, (hemit r q).trans (if_pos hw)⟩
  constructor
  · intro h i j r q hp hr hq hw
    obtain ⟨j', r', q', hp', hr', hq', -, hport⟩ :=
      h i _ ((hfiltered i _).mpr ⟨j, r, q, hp, hr, hq, hw, rfl⟩)
    obtain rfl := hp.unique_request hp'
    obtain rfl := Option.some.inj (hr.symm.trans hr')
    obtain rfl := Option.some.inj (hq.symm.trans hq')
    exact hport
  · intro h i e he
    obtain ⟨j, r, q, hp, hr, hq, hw, rfl⟩ := (hfiltered i e).mp he
    exact ⟨j, r, q, hp, hr, hq, rfl, h i j r q hp hr hq hw⟩

/-! ## Both loops match -/

variable [Sub T] [Zero T]

namespace Go

/-- The Go loop as a matcher: its map holds the open queries. -/
def matcher : Matcher (Std.HashMap UInt16 (DnsEvent T)) UInt16 (Capture DnsMsg T) (DnsEvent T)
    (DnsEvent T) where
  step := step
  start := ∅
  role := roleOf
  get pending id := pending[id]?
  store := .ofQuery
  report p ev := ev.answered p
  get_start _ := Std.HashMap.getElem?_empty
  step_ask := by
    intro p k pending h
    obtain ⟨hq, rfl⟩ := role_eq_ask h
    rw [step]
    simp only [hq, and_self, ↓reduceIte]
    refine ⟨trivial, fun k' => ?_⟩
    rw [Std.HashMap.getElem?_insert]
    by_cases hk : k' = p.msg.id
    · simp [hk]
    · simp [hk, Ne.symm hk]
  step_reply := by
    intro p k pending h
    obtain ⟨hnq, hr, rfl⟩ := role_eq_reply h
    rw [step, if_neg hnq, if_pos hr]
    cases hev : pending[p.msg.id]? with
    | none =>
        refine ⟨rfl, fun k' => ?_⟩
        by_cases hk : k' = p.msg.id
        · simp [hk, hev]
        · simp [hk]
    | some ev =>
        refine ⟨rfl, fun k' => ?_⟩
        simp only
        rw [Std.HashMap.getElem?_erase]
        by_cases hk : k' = p.msg.id
        · simp [hk]
        · simp [hk, Ne.symm hk]
  step_skip := by
    intro p pending h
    obtain ⟨hnq, hnr⟩ := role_eq_skip h
    rw [step, if_neg hnq, if_neg hnr]
    exact ⟨rfl, fun _ => rfl⟩

/-- The events the main loop hands to `emit`, iteration by iteration. -/
def loop (ps : List (Capture DnsMsg T)) : List (Option (DnsEvent T)) := outputs step ∅ ps

/-- The event for the response `r` to the query `q`. -/
def report (r q : Capture DnsMsg T) : DnsEvent T := (DnsEvent.ofQuery q).answered r

/-- The events that are emitted. -/
def emitted (F : Filters) (ps : List (Capture DnsMsg T)) : List (Option (DnsEvent T)) :=
  (loop ps).map (·.bind (emit F))

end Go

namespace C

/-- The C loop as a matcher: a slot that is set holds an open query. -/
def matcher : Matcher (Table T) UInt16 (Capture DnsMsg T) (PendingT T) (Emission T) where
  step := step
  start := Table.zeroed
  role := roleOf
  get := Table.find
  store := .ofQuery
  report p s := s.answered p
  get_start id := by
    have hzero : (Table.zeroed : Table T).get (slot id) = ⟨false, [], [], 0, [], 0⟩ :=
      Vector.getElem_replicate (slot id).2
    rw [Table.find, hzero]
    rfl
  step_ask := by
    intro p k pending h
    obtain ⟨hq, rfl⟩ := role_eq_ask h
    rw [step]
    simp only
    rw [if_pos hq]
    exact ⟨rfl, fun k' => by rw [find_set]; rfl⟩
  step_reply := by
    intro p k pending h
    obtain ⟨hnq, hr, rfl⟩ := role_eq_reply h
    rw [step]
    simp only
    rw [if_neg hnq, if_pos hr]
    by_cases hset : (pending.get (slot p.msg.id)).set
    · rw [if_pos hset, Table.find, if_pos hset]
      exact ⟨rfl, fun k' => by rw [find_set]; rfl⟩
    · rw [if_neg hset, Table.find, if_neg hset]
      refine ⟨rfl, fun k' => ?_⟩
      by_cases hk : k' = p.msg.id
      · rw [if_pos hk, hk, Table.find, if_neg hset]
      · rw [if_neg hk]
  step_skip := by
    intro p pending h
    obtain ⟨hnq, hnr⟩ := role_eq_skip h
    rw [step]
    simp only
    rw [if_neg hnq, if_neg hnr]
    exact ⟨rfl, fun _ => rfl⟩

/-- The emissions of the main loop before the filters, iteration by iteration. -/
def loop (ps : List (Capture DnsMsg T)) : List (Option (Emission T)) :=
  outputs step Table.zeroed ps

/-- The emission for the response `r` to the query `q`. -/
def report (r q : Capture DnsMsg T) : Emission T := (PendingT.ofQuery q).answered r

/-- The emissions the filters let through. -/
def emitted (F : Filters) (ps : List (Capture DnsMsg T)) : List (Option (Emission T)) :=
  (loop ps).map (·.bind (emit F))

end C

/-! ## The same pairs -/

/-- Over a run of packets seen through `f`, a loop that matches reports the pairs of the
run. -/
theorem reports_map {α β κ σ γ ε : Type} [DecidableEq κ] (M : Matcher σ κ β γ ε) (f : α → β)
    (ps : List α) (i : Nat) (e : ε) :
    (M.run (ps.map f))[i]? = some (some e) ↔ ∃ j r q,
      Paired (ps.map fun p => M.role (f p)) i j ∧ ps[i]? = some r ∧ ps[j]? = some q
        ∧ e = M.report (f r) (M.store (f q)) := by
  rw [M.reports, List.map_map]
  constructor
  · rintro ⟨j, r, q, hp, hr, hq, rfl⟩
    rw [List.getElem?_map, Option.map_eq_some_iff] at hr hq
    obtain ⟨r, hr, rfl⟩ := hr
    obtain ⟨q, hq, rfl⟩ := hq
    exact ⟨j, r, q, hp, hr, hq, rfl⟩
  · rintro ⟨j, r, q, hp, hr, hq, rfl⟩
    refine ⟨j, f r, f q, hp, ?_, ?_, rfl⟩
    · rw [List.getElem?_map, hr, Option.map_some]
    · rw [List.getElem?_map, hq, Option.map_some]

theorem Go.loop_reports (ps : List (Packet T)) (i : Nat) (e : Go.DnsEvent T) :
    (Go.loop (ps.map Packet.go))[i]? = some (some e) ↔ ∃ j r q,
      Paired (ps.map Packet.role) i j ∧ ps[i]? = some r ∧ ps[j]? = some q
        ∧ e = Go.report r.go q.go :=
  reports_map Go.matcher Packet.go ps i e

theorem C.loop_reports (ps : List (Packet T)) (i : Nat) (e : C.Emission T) :
    (C.loop (ps.map Packet.c))[i]? = some (some e) ↔ ∃ j r q,
      Paired (ps.map Packet.role) i j ∧ ps[i]? = some r ∧ ps[j]? = some q
        ∧ e = C.report r.c q.c := by
  have hrole : (fun p : Packet T => C.matcher.role p.c) = Packet.role :=
    funext Packet.c_role
  rw [← hrole]
  exact reports_map C.matcher Packet.c ps i e

/-- Both loops emit, at the same packets, for the same pairs of a response and a query: the
latest query with the response's id that no response has answered in between. A response
emits exactly when there is such a query, and a query is emitted at most once. -/
theorem loops_pair_alike (ps : List (Packet T)) :
    (∀ i e, (Go.loop (ps.map Packet.go))[i]? = some (some e) ↔ ∃ j r q,
        Paired (ps.map Packet.role) i j ∧ ps[i]? = some r ∧ ps[j]? = some q
          ∧ e = Go.report r.go q.go)
      ∧ (∀ i e, (C.loop (ps.map Packet.c))[i]? = some (some e) ↔ ∃ j r q,
        Paired (ps.map Packet.role) i j ∧ ps[i]? = some r ∧ ps[j]? = some q
          ∧ e = C.report r.c q.c)
      ∧ (Go.loop (ps.map Packet.go)).length = ps.length
      ∧ (C.loop (ps.map Packet.c)).length = ps.length
      ∧ (∀ i, (∃ j, Paired (ps.map Packet.role) i j) ↔
        ∃ x, (ps.map Packet.role)[i]? = some (.reply x)
          ∧ ∃ j, Unanswered (ps.map Packet.role) x i j)
      ∧ ∀ i i' j, Paired (ps.map Packet.role) i j → Paired (ps.map Packet.role) i' j → i = i' := by
  refine ⟨Go.loop_reports ps, C.loop_reports ps, ?_, ?_, fun _ => exists_paired,
    fun _ _ _ h h' => h.unique_reply h'⟩
  · rw [Go.loop, outputs_length, List.length_map]
  · rw [C.loop, outputs_length, List.length_map]

/-! ## The socket of a reported query -/

theorem Go.emit_report (F : Filters) (r q : Capture Go.DnsMsg T) :
    Go.emit F (Go.report r q) = if Go.wanted F q then some (Go.report r q) else none := rfl

omit [Zero T] in
theorem C.emit_report (F : Filters) (r q : Capture C.DnsMsg T) :
    C.emit F (C.report r q) = if C.wanted F q then some (C.report r q) else none := rfl

theorem Go.sameSocket_emitted (F : Filters) (gs : List (Capture Go.DnsMsg T)) :
    SameSocket Go.roleOf Go.report gs (Go.emitted F gs)
      ↔ NoForeignQuery Go.roleOf (Go.wanted F) gs :=
  sameSocket_iff (Go.emit_report F) (Go.matcher.reports gs)

theorem C.sameSocket_emitted (F : Filters) (cs : List (Capture C.DnsMsg T)) :
    SameSocket C.roleOf C.report cs (C.emitted F cs)
      ↔ NoForeignQuery C.roleOf (C.wanted F) cs :=
  sameSocket_iff (C.emit_report F) (C.matcher.reports cs)

/-- Over any run, each port's events show queries of the response's own socket exactly when
no wanted query took the place of another port's under the same id. -/
theorem emitted_same_socket_iff (F : Filters) (gs : List (Capture Go.DnsMsg T))
    (cs : List (Capture C.DnsMsg T)) :
    (SameSocket Go.roleOf Go.report gs (Go.emitted F gs)
        ↔ NoForeignQuery Go.roleOf (Go.wanted F) gs)
      ∧ (SameSocket C.roleOf C.report cs (C.emitted F cs)
        ↔ NoForeignQuery C.roleOf (C.wanted F) cs) :=
  ⟨Go.sameSocket_emitted F gs, C.sameSocket_emitted F cs⟩

/-! Two clients use the same id: 40000 asks for `a`, 50000 for `b`, and the answer to the
first is reported with the query of the second. -/

def goCollision : List (Capture Go.DnsMsg Int) :=
  [⟨⟨7, 0x0100, [97], 1, []⟩, 40000, 53, 0, fun _ => (1, [])⟩,
    ⟨⟨7, 0x0100, [98], 1, []⟩, 50000, 53, 1, fun _ => (2, [])⟩,
    ⟨⟨7, 0x8180, [97], 1, []⟩, 53, 40000, 2, fun _ => (0, [])⟩]

def cCollision : List (Capture C.DnsMsg Int) :=
  [⟨⟨7, 0x0100, 1, [97], [], by decide⟩, 40000, 53, 0, fun _ => (1, [])⟩,
    ⟨⟨7, 0x0100, 1, [98], [], by decide⟩, 50000, 53, 1, fun _ => (2, [])⟩,
    ⟨⟨7, 0x8180, 1, [97], [], by decide⟩, 53, 40000, 2, fun _ => (0, [])⟩]

theorem paired_collision : Paired [Role.ask (7 : UInt16), .ask 7, .reply 7] 2 1 := by
  refine ⟨7, rfl, ⟨by decide, rfl, fun l hl hl' => by omega⟩, fun j' h => ?_⟩
  have := h.before
  omega

theorem collision_crosses_sockets :
    (¬∀ (F : Filters) (gs : List (Capture Go.DnsMsg Int)),
        SameSocket Go.roleOf Go.report gs (Go.emitted F gs))
      ∧ ¬∀ (F : Filters) (cs : List (Capture C.DnsMsg Int)),
        SameSocket C.roleOf C.report cs (C.emitted F cs) := by
  constructor
  · intro h
    have hport := (Go.sameSocket_emitted ⟨[], [], [], []⟩ goCollision).mp (h _ _) 2 1 _ _
      paired_collision rfl rfl rfl
    exact absurd hport (by decide)
  · intro h
    have hport := (C.sameSocket_emitted ⟨[], [], [], []⟩ cCollision).mp (h _ _) 2 1 _ _
      paired_collision rfl rfl rfl
    exact absurd hport (by decide)

end Tracep.Dns
