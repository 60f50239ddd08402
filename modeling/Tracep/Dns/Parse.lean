import Tracep.Dns.Sections

/-!
# Whole messages, for both ports at once

`parseDNS` and `parse_dns` are the same program around their two loops
(`MessageParser`), so one result says when a call faults
(`faults_iff`), when it runs forever (`hangs_iff`), and what it returns on a
whole message (`returns_of_whole`). The conditions speak about the layout
alone: the walk of the sections comes to a name that loops (`LoopReached`)
or to a record whose name is looked for before the data (`Underflows`).
-/

namespace Tracep.Dns

open Exec

/-! ## Layouts are unique -/

theorem Records.unique {d : Bytes} {p stop : Nat} {rs : List Record}
    (h : Records d p rs stop) :
    ∀ {rs' : List Record} {stop' : Nat}, Records d p rs' stop' → rs.length = rs'.length →
      rs = rs' ∧ stop = stop' := by
  induction h with
  | nil =>
      intro rs' stop' h' hlen
      cases h' with
      | nil => exact ⟨rfl, rfl⟩
      | cons _ _ => cases hlen
  | cons hr _ ih =>
      intro rs' stop' h' hlen
      cases h' with
      | nil => cases hlen
      | cons hr' hrest =>
          obtain rfl := hr.unique hr'
          obtain ⟨rfl, rfl⟩ := ih hrest (Nat.succ.inj hlen)
          exact ⟨rfl, rfl⟩

/-- Where a shorter list of records ends, the longer one has its next record. -/
theorem Records.next {d : Bytes} {p stop : Nat} {rs : List Record} (h : Records d p rs stop) :
    ∀ {rs' : List Record} {mid : Nat}, Records d p rs' mid → rs'.length < rs.length →
      ∃ r ∈ rs, RecordAt d mid r := by
  induction h with
  | nil => exact fun _ hlt => absurd hlt (Nat.not_lt_zero _)
  | cons hr _ ih =>
      intro rs' mid h' hlt
      cases h' with
      | nil => exact ⟨_, List.mem_cons_self .., hr⟩
      | cons hr' hrest =>
          obtain rfl := hr.unique hr'
          obtain ⟨r, hmem, hrec⟩ := ih hrest (Nat.lt_of_succ_lt_succ hlt)
          exact ⟨r, List.mem_cons_of_mem _ hmem, hrec⟩

/-! ## Where a call can go wrong -/

/-- The answers start at `mid`. -/
def AnswersAt (d : Bytes) (mid : Nat) : Prop :=
  12 ≤ d.length ∧ ∃ qs, Questions d 12 qs mid ∧ qs.length = (word d 4).toNat

/-- The answer loop comes to look for a record at `p`. -/
def Reached (d : Bytes) (nameAt : Record → Option Int) (p : Nat) : Prop :=
  ∃ mid rs, AnswersAt d mid ∧ Records d mid rs p ∧ (∀ r ∈ rs, Passable d (nameAt r))
    ∧ rs.length < (word d 6).toNat

/-- The walk of the sections comes to a name that loops: a question's, a record's own,
or the one inside its RDATA. -/
inductive LoopReached (d : Bytes) (nameAt : Record → Option Int) : Prop where
  | question {qs : List (List Bytes × UInt16)} {mid : Nat} :
      12 ≤ d.length → Questions d 12 qs mid → qs.length < (word d 4).toNat → Looping d mid →
      LoopReached d nameAt
  | owner {p : Nat} : Reached d nameAt p → Looping d p → LoopReached d nameAt
  | rdata {p t : Nat} {r : Record} : Reached d nameAt p → RecordAt d p r →
      nameAt r = some (t : Int) → Looping d t → LoopReached d nameAt

/-- The walk of the sections comes to a record whose name is looked for before the data. -/
def Underflows (d : Bytes) (nameAt : Record → Option Int) : Prop :=
  ∃ p r q, Reached d nameAt p ∧ RecordAt d p r ∧ nameAt r = some q ∧ q < 0

/-! ## Parsers -/

/-- A parser of messages: refuse what is too short for a header, read the questions, then
the answers. -/
structure MessageParser (d : Bytes) (M : Type) where
  questions : QuestionLoop d M
  answers : AnswerLoop d M
  start : M
  parse : Exec (Option M)
  parse_short : d.length < 12 → parse = pure none
  parse_hangs : 12 ≤ d.length →
    (questions.run (word d 4).toNat 0 12 start).Hangs → parse.Hangs
  parse_none : 12 ≤ d.length →
    (questions.run (word d 4).toNat 0 12 start).Returns none → parse.Returns none
  parse_some : ∀ {p : Nat} {m}, 12 ≤ d.length →
    (questions.run (word d 4).toNat 0 12 start).Returns (some ((p : Int), m)) →
    Same parse (answers.run (word d 6).toNat p m >>= fun m => pure (some m))

namespace MessageParser

variable {d : Bytes} {M : Type} (P : MessageParser d M)

/-- The questions consumed, what is left is the answer loop. -/
theorem same_answers {mid : Nat} (h : AnswersAt d mid) :
    ∃ m, Same P.parse
      (P.answers.run (word d 6).toNat mid m >>= fun m => pure (some m)) := by
  obtain ⟨hlen, qs, hq, hn⟩ := h
  exact ⟨_, P.parse_some hlen (P.questions.returns_done hq hn)⟩

theorem hangs_of_loopReached (h : LoopReached d P.answers.nameAt) : P.parse.Hangs := by
  cases h with
  | question hlen hq hn hl => exact P.parse_hangs hlen (P.questions.hangs hq hn hl)
  | owner hreach hl =>
      obtain ⟨mid, rs, hmid, hrs, hpass, hn⟩ := hreach
      obtain ⟨m, hsame⟩ := P.same_answers hmid
      exact hsame.hangs.mpr ((P.answers.hangs_loops hrs hpass hn hl m).bind _)
  | rdata hreach hr ht hl =>
      obtain ⟨mid, rs, hmid, hrs, hpass, hn⟩ := hreach
      obtain ⟨m, hsame⟩ := P.same_answers hmid
      exact hsame.hangs.mpr ((P.answers.hangs_dataLoops hrs hpass hn hr ht hl m).bind _)

theorem faults_of_underflows (h : Underflows d P.answers.nameAt) : P.parse.Faults := by
  obtain ⟨p, r, q, ⟨mid, rs, hmid, hrs, hpass, hn⟩, hr, hq, hneg⟩ := h
  obtain ⟨m, hsame⟩ := P.same_answers hmid
  exact hsame.faults.mpr ((P.answers.faults hrs hpass hn hr hq hneg m).bind _)

/-- A call that does not go wrong returns. -/
theorem outcome : LoopReached d P.answers.nameAt ∨ Underflows d P.answers.nameAt
    ∨ ∃ r, P.parse.Returns r := by
  by_cases hlen : d.length < 12
  · exact Or.inr (Or.inr ⟨none, by rw [P.parse_short hlen]; exact returns_pure.mpr rfl⟩)
  have hlen : 12 ≤ d.length := Nat.not_lt.mp hlen
  cases questions_ending d (word d 4).toNat 12 with
  | stuck hq hn hl hno =>
      exact Or.inr (Or.inr ⟨none, P.parse_none hlen (P.questions.returns_stuck hq hn hl hno)⟩)
  | loops hq hn hl => exact Or.inl (.question hlen hq hn hl)
  | @done qs mid hq hn =>
      have hmid : AnswersAt d mid := ⟨hlen, qs, hq, hn⟩
      obtain ⟨m, hsame⟩ := P.same_answers hmid
      have hret : (∃ m', (P.answers.run (word d 6).toNat mid m).Returns m') →
          ∃ r, P.parse.Returns r := by
        rintro ⟨m', hm'⟩
        exact ⟨some m', (hsame.returns _).mpr (hm'.bind_iff.mpr (returns_pure.mpr rfl))⟩
      cases records_ending d P.answers.nameAt (word d 6).toNat mid with
      | done hrs hpass hn' =>
          obtain ⟨vs, hvs⟩ := P.answers.reads_of_passable hpass
          exact Or.inr (Or.inr (hret ⟨_, P.answers.returns_done hrs hvs hn'⟩))
      | stuck hrs hpass hn' hl hno =>
          exact Or.inr (Or.inr (hret (P.answers.returns_stuck hrs hpass hn' hl hno m)))
      | loops hrs hpass hn' hl => exact Or.inl (.owner ⟨mid, _, hmid, hrs, hpass, hn'⟩ hl)
      | dataLoops hrs hpass hn' hr ht hl =>
          exact Or.inl (.rdata ⟨mid, _, hmid, hrs, hpass, hn'⟩ hr ht hl)
      | before hrs hpass hn' hr hq hneg =>
          exact Or.inr (Or.inl ⟨_, _, _, ⟨mid, _, hmid, hrs, hpass, hn'⟩, hr, hq, hneg⟩)

theorem hangs_iff_loopReached : P.parse.Hangs ↔ LoopReached d P.answers.nameAt := by
  refine ⟨fun hh => ?_, P.hangs_of_loopReached⟩
  rcases P.outcome with hl | hu | ⟨r, hr⟩
  · exact hl
  · exact absurd (P.faults_of_underflows hu) (hangs_iff.mp hh).1
  · exact absurd hh hr.not_hangs

theorem faults_iff_underflows : P.parse.Faults ↔ Underflows d P.answers.nameAt := by
  refine ⟨fun hf => ?_, P.faults_of_underflows⟩
  rcases P.outcome with hl | hu | ⟨r, hr⟩
  · exact absurd hf (hangs_iff.mp (P.hangs_of_loopReached hl)).1
  · exact hu
  · exact absurd hf hr.not_faults

/-- A call returns unless a name loops or is looked for before the data. -/
theorem returns_iff : (∃ r, P.parse.Returns r) ↔
    ¬LoopReached d P.answers.nameAt ∧ ¬Underflows d P.answers.nameAt := by
  rw [← P.hangs_iff_loopReached, ← P.faults_iff_underflows]
  constructor
  · rintro ⟨r, hr⟩
    exact ⟨hr.not_hangs, hr.not_faults⟩
  · rintro ⟨hh, hf⟩
    exact (returns_iff_not_hangs hf).mpr hh

/-! ## Whole messages -/

variable {qs : List (List Bytes × UInt16)} {rs : List Record}

/-- On a whole message the answers are the values of its records, as the port reads them. -/
theorem returns_of_whole (h : Whole d qs rs) {vs : List Bytes} (hvs : P.answers.Reads rs vs) :
    P.parse.Returns (some (P.answers.addAll (P.questions.asked P.start qs) vs)) := by
  obtain ⟨mid, stop, hq, hrs⟩ := h.layout
  have hsame := P.parse_some h.header (P.questions.returns_done hq h.qdcount)
  refine (hsame.returns _).mpr ?_
  rw [(P.answers.returns_done hrs hvs h.ancount).bind_iff]
  exact returns_pure.mpr rfl

/-- A call that returns on a whole message has passed all its records. -/
theorem whole_of_returns (h : Whole d qs rs) {r : Option M} (hr : P.parse.Returns r) :
    ∃ vs, P.answers.Reads rs vs
      ∧ r = some (P.answers.addAll (P.questions.asked P.start qs) vs) := by
  obtain ⟨mid, stop, hq, hrs⟩ := h.layout
  have hmid : AnswersAt d mid := ⟨h.header, qs, hq, h.qdcount⟩
  obtain ⟨hnl, hnu⟩ := P.returns_iff.mp ⟨r, hr⟩
  have hpass : ∀ r ∈ rs, Passable d (P.answers.nameAt r) := by
    cases records_ending d P.answers.nameAt (word d 6).toNat mid with
    | done hrs' hpass hn' =>
        obtain ⟨rfl, -⟩ := hrs'.unique hrs (hn'.trans h.ancount.symm)
        exact hpass
    | stuck hrs' _ hn' _ hno =>
        obtain ⟨r', -, hr'⟩ := hrs.next hrs' (h.ancount ▸ hn')
        exact absurd hr' (hno r')
    | loops hrs' hpass hn' hl => exact absurd (.owner ⟨mid, _, hmid, hrs', hpass, hn'⟩ hl) hnl
    | dataLoops hrs' hpass hn' hr' ht hl =>
        exact absurd (.rdata ⟨mid, _, hmid, hrs', hpass, hn'⟩ hr' ht hl) hnl
    | before hrs' hpass hn' hr' hq' hneg =>
        exact absurd ⟨_, _, _, ⟨mid, _, hmid, hrs', hpass, hn'⟩, hr', hq', hneg⟩ hnu
  obtain ⟨vs, hvs⟩ := P.answers.reads_of_passable hpass
  exact ⟨vs, hvs, hr.unique (P.returns_of_whole h hvs)⟩

/-- What a returned message says about the questions. -/
theorem asked_of_returns {m : M} (h : P.parse.Returns (some m)) :
    ∃ qs mid vs, 12 ≤ d.length ∧ Questions d 12 qs mid ∧ qs.length = (word d 4).toNat
      ∧ m = P.answers.addAll (P.questions.asked P.start qs) vs := by
  by_cases hlen : d.length < 12
  · rw [P.parse_short hlen] at h
    cases returns_pure.mp h
  have hlen : 12 ≤ d.length := Nat.not_lt.mp hlen
  cases questions_ending d (word d 4).toNat 12 with
  | stuck hq hn hl hno =>
      cases h.unique (P.parse_none hlen (P.questions.returns_stuck hq hn hl hno))
  | loops hq hn hl =>
      exact absurd (P.parse_hangs hlen (P.questions.hangs hq hn hl)) h.not_hangs
  | @done qs mid hq hn =>
      have hsame := P.parse_some hlen (P.questions.returns_done hq hn)
      obtain ⟨m', hm', hsome⟩ := returns_bind.mp ((hsame.returns _).mp h)
      obtain rfl := Option.some.inj (returns_pure.mp hsome)
      obtain ⟨vs, rfl⟩ := P.answers.returns_addAll hm'
      exact ⟨qs, mid, vs, hlen, hq, hn, rfl⟩

theorem returns_none {mid : Nat} (hlen : 12 ≤ d.length) (hq : Questions d 12 qs mid)
    (hn : qs.length = (word d 4).toNat) : ¬P.parse.Returns none := by
  intro h
  have hsame := P.parse_some hlen (P.questions.returns_done hq hn)
  obtain ⟨m', -, hnone⟩ := returns_bind.mp ((hsame.returns _).mp h)
  cases returns_pure.mp hnone

end MessageParser

/-! ## The two parsers -/

def Go.messageParser (data : Bytes) : MessageParser data Go.DnsMsg where
  questions := Go.questionLoop data
  answers := Go.answerLoop data
  start := ⟨word data 0, word data 2, [], 0, []⟩
  parse := Go.parseDNS data
  parse_short := Go.parseDNS_short
  parse_hangs hlen h := by
    rw [Go.parseDNS_eq hlen]
    exact h.bind _
  parse_none hlen h := by
    rw [Go.parseDNS_eq hlen]
    exact h.bind_iff.mpr (returns_pure.mpr rfl)
  parse_some hlen h := by
    rw [Go.parseDNS_eq hlen]
    exact h.same_bind _

def C.messageParser (ntop : C.InetNtop) (stack : C.Stack) (d : Bytes) :
    MessageParser d C.DnsMsg where
  questions := C.questionLoop stack.name d
  answers := C.answerLoop ntop stack.nm d
  start := C.DnsMsg.start d
  parse := C.parseDns ntop stack d
  parse_short := C.parseDns_short
  parse_hangs hlen h := by
    rw [C.parseDns_eq hlen]
    exact h.bind _
  parse_none hlen h := by
    rw [C.parseDns_eq hlen]
    exact h.bind_iff.mpr (returns_pure.mpr rfl)
  parse_some hlen h := by
    rw [C.parseDns_eq hlen]
    exact h.same_bind _

end Tracep.Dns
