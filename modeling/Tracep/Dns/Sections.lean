import Tracep.Dns.CSpec

/-!
# The two sections of a message, for both ports at once

Both ports walk the questions and then the answers of a message in the
same way, and differ in what they make of what they find: where they look
for the name a record carries, and how they keep values. `QuestionLoop`
and `AnswerLoop` collect the facts of `GoSpec` and `CSpec` about one loop,
and the results here hold of any loop with these facts.

A loop first advances over the questions or records that are there
(`QuestionLoop.advance`, `AnswerLoop.advance`); the offset it then stands
at decides how it ends (`questions_ending`, `records_ending`): by the
declared count, at something malformed, or, forever or with a fault, at a
name that loops or that is looked for before the data.
-/

namespace Tracep.Dns

open Exec

/-! ## Questions -/

/-- A question loop over messages `M`; `ask` keeps the first question. -/
structure QuestionLoop (d : Bytes) (M : Type) where
  ask : M → List Bytes × UInt16 → M
  run : Nat → Nat → Nat → M → Exec (Option (Int × M))
  run_zero : ∀ i p m, run 0 i p m = pure (some ((p : Int), m))
  run_question : ∀ {p q stop} n i m, QuestionAt d p q stop →
    Same (run (n + 1) i p m) (run n (i + 1) stop (if i = 0 then ask m q else m))
  run_stop : ∀ {p} n i m, ¬Looping d p → (∀ q stop, ¬QuestionAt d p q stop) →
    (run (n + 1) i p m).Returns none
  run_hangs : ∀ {p} n i m, Looping d p → (run (n + 1) i p m).Hangs

/-- What stands after the questions that are there, `n` of them declared. -/
inductive QuestionsEnding (d : Bytes) (p n : Nat) : Prop where
  | done {qs : List (List Bytes × UInt16)} {stop : Nat} :
      Questions d p qs stop → qs.length = n → QuestionsEnding d p n
  | stuck {qs : List (List Bytes × UInt16)} {mid : Nat} :
      Questions d p qs mid → qs.length < n → ¬Looping d mid →
      (∀ q stop, ¬QuestionAt d mid q stop) → QuestionsEnding d p n
  | loops {qs : List (List Bytes × UInt16)} {mid : Nat} :
      Questions d p qs mid → qs.length < n → Looping d mid → QuestionsEnding d p n

theorem questions_ending (d : Bytes) : ∀ n p : Nat, QuestionsEnding d p n
  | 0, _ => .done .nil rfl
  | n + 1, p => by
      rcases question_cases d p with hloop | ⟨q, stop, hq⟩ | ⟨hloop, hno⟩
      · exact .loops .nil (Nat.succ_pos n) hloop
      · cases questions_ending d n stop with
        | done h hn => exact .done (.cons hq h) (by rw [List.length_cons, hn])
        | stuck h hn hl hno =>
            exact .stuck (.cons hq h) (by rw [List.length_cons]; omega) hl hno
        | loops h hn hl => exact .loops (.cons hq h) (by rw [List.length_cons]; omega) hl
      · exact .stuck .nil (Nat.succ_pos n) hloop hno

namespace QuestionLoop

variable {d : Bytes} {M : Type} (Q : QuestionLoop d M)

/-- The message after a list of questions. -/
def asked (m : M) : List (List Bytes × UInt16) → M
  | [] => m
  | q :: _ => Q.ask m q

theorem advance_rest {p mid : Nat} {qs : List (List Bytes × UInt16)}
    (h : Questions d p qs mid) : ∀ (k i : Nat) (m : M),
      Same (Q.run (qs.length + k) (i + 1) p m) (Q.run k (i + 1 + qs.length) mid m) := by
  induction h with
  | nil =>
      intro k i m
      rw [List.length_nil, Nat.zero_add, Nat.add_zero]
      exact Same.refl _
  | @cons off next stop q qs hq _ ih =>
      intro k i m
      have hstep := Q.run_question (qs.length + k) (i + 1) m hq
      rw [if_neg (Nat.succ_ne_zero i)] at hstep
      have := hstep.trans (ih k (i + 1) m)
      rwa [List.length_cons, show qs.length + 1 + k = qs.length + k + 1 by omega,
        show i + 1 + (qs.length + 1) = i + 1 + 1 + qs.length by omega]

/-- The questions that are there are consumed, and the first one kept. -/
theorem advance {p mid : Nat} {qs : List (List Bytes × UInt16)} (h : Questions d p qs mid)
    (k : Nat) (m : M) :
    Same (Q.run (qs.length + k) 0 p m) (Q.run k qs.length mid (Q.asked m qs)) := by
  cases h with
  | nil =>
      rw [List.length_nil, Nat.zero_add]
      exact Same.refl _
  | @cons off next stop q qs hq hrest =>
      have hstep := Q.run_question (qs.length + k) 0 m hq
      rw [if_pos rfl] at hstep
      have := hstep.trans (Q.advance_rest hrest k 0 (Q.ask m q))
      rwa [List.length_cons, show qs.length + 1 + k = qs.length + k + 1 by omega,
        show qs.length + 1 = 0 + 1 + qs.length by omega]

variable {p n : Nat} {qs : List (List Bytes × UInt16)} {mid : Nat} {m : M}

theorem returns_done (h : Questions d p qs mid) (hn : qs.length = n) :
    (Q.run n 0 p m).Returns (some ((mid : Int), Q.asked m qs)) := by
  have hsame := Q.advance h 0 m
  rw [Nat.add_zero, hn, Q.run_zero] at hsame
  exact (hsame.returns _).mpr (returns_pure.mpr rfl)

theorem returns_stuck (h : Questions d p qs mid) (hn : qs.length < n)
    (hloop : ¬Looping d mid) (hno : ∀ q stop, ¬QuestionAt d mid q stop) :
    (Q.run n 0 p m).Returns none := by
  obtain ⟨k, rfl⟩ : ∃ k, n = qs.length + (k + 1) := ⟨n - qs.length - 1, by omega⟩
  exact ((Q.advance h (k + 1) m).returns _).mpr (Q.run_stop _ _ _ hloop hno)

theorem hangs (h : Questions d p qs mid) (hn : qs.length < n) (hloop : Looping d mid) :
    (Q.run n 0 p m).Hangs := by
  obtain ⟨k, rfl⟩ : ∃ k, n = qs.length + (k + 1) := ⟨n - qs.length - 1, by omega⟩
  exact (Q.advance h (k + 1) m).hangs.mpr (Q.run_hangs _ _ _ hloop)

end QuestionLoop

/-! ## Answers -/

/-- The values of a record whose name, if it carries one, is looked for at `off`:
none, if no name is found there. -/
def ReadsAs (R : Rendering) (d : Bytes) (off : Option Int) (r : Record) (vs : List Bytes) :
    Prop :=
  match off with
  | none => vs = plainValues R r.rtype (r.rdata d)
  | some q => ∃ p : Nat, q = p ∧
      ((∃ L, NameAt d p L ∧ vs = [namePrefix r.rtype ++ R.text (dotted L)])
        ∨ (¬Resolves d p ∧ ¬Looping d p ∧ vs = []))

/-- Looking for the name of `r` at `off` neither loops nor leaves the data. -/
def Passable (d : Bytes) (off : Option Int) : Prop :=
  ∀ q, off = some q → ∃ p : Nat, q = p ∧ ¬Looping d p

theorem Passable.readsAs {d : Bytes} {off : Option Int} (h : Passable d off) (R : Rendering)
    (r : Record) : ∃ vs, ReadsAs R d off r vs := by
  cases off with
  | none => exact ⟨_, rfl⟩
  | some q =>
      obtain ⟨p, rfl, hl⟩ := h q rfl
      by_cases hres : Resolves d p
      · obtain ⟨L, hL⟩ := hres
        exact ⟨_, p, rfl, .inl ⟨L, hL, rfl⟩⟩
      · exact ⟨_, p, rfl, .inr ⟨hres, hl, rfl⟩⟩

/-- An answer loop over messages `M`, which looks for the name of a record at `nameAt`
and shows values by `R`. -/
structure AnswerLoop (d : Bytes) (M : Type) where
  R : Rendering
  nameAt : Record → Option Int
  addAll : M → List Bytes → M
  read : Nat → Record → M → Exec M
  run : Nat → Nat → M → Exec M
  addAll_nil : ∀ m, addAll m [] = m
  addAll_addAll : ∀ m vs ws, addAll (addAll m vs) ws = addAll m (vs ++ ws)
  run_zero : ∀ p m, run 0 p m = pure m
  run_record : ∀ {p r} n m, RecordAt d p r →
    Same (run (n + 1) p m) (read n r m >>= run n r.stop)
  run_stop : ∀ {p} n m, ¬Looping d p → (∀ r, ¬RecordAt d p r) →
    (run (n + 1) p m).Returns m
  run_hangs : ∀ {p} n m, Looping d p → (run (n + 1) p m).Hangs
  read_returns : ∀ {r vs} n m, r.stop ≤ d.length → ReadsAs R d (nameAt r) r vs →
    (read n r m).Returns (addAll m vs)
  read_hangs : ∀ {r} {p : Nat} n m, nameAt r = some (p : Int) → Looping d p →
    (read n r m).Hangs
  read_faults : ∀ {r q} n m, nameAt r = some q → q < 0 → (read n r m).Faults

/-- What stands after the records that can be passed, `n` of them declared, when names
are looked for at `nameAt`. -/
inductive RecordsEnding (d : Bytes) (nameAt : Record → Option Int) (p n : Nat) : Prop where
  | done {rs : List Record} {stop : Nat} :
      Records d p rs stop → (∀ r ∈ rs, Passable d (nameAt r)) → rs.length = n →
      RecordsEnding d nameAt p n
  | stuck {rs : List Record} {mid : Nat} :
      Records d p rs mid → (∀ r ∈ rs, Passable d (nameAt r)) → rs.length < n →
      ¬Looping d mid → (∀ r, ¬RecordAt d mid r) → RecordsEnding d nameAt p n
  | loops {rs : List Record} {mid : Nat} :
      Records d p rs mid → (∀ r ∈ rs, Passable d (nameAt r)) → rs.length < n →
      Looping d mid → RecordsEnding d nameAt p n
  | dataLoops {rs : List Record} {mid t : Nat} {r : Record} :
      Records d p rs mid → (∀ r ∈ rs, Passable d (nameAt r)) → rs.length < n →
      RecordAt d mid r → nameAt r = some (t : Int) → Looping d t → RecordsEnding d nameAt p n
  | before {rs : List Record} {mid : Nat} {r : Record} {q : Int} :
      Records d p rs mid → (∀ r ∈ rs, Passable d (nameAt r)) → rs.length < n →
      RecordAt d mid r → nameAt r = some q → q < 0 → RecordsEnding d nameAt p n

/-- A record is passed, or it is where the walk ends. -/
theorem passable_cases (d : Bytes) (off : Option Int) :
    Passable d off ∨ (∃ t : Nat, off = some (t : Int) ∧ Looping d t)
      ∨ ∃ q, off = some q ∧ q < 0 := by
  cases off with
  | none => exact Or.inl fun _ h => by cases h
  | some q =>
      rcases Int.lt_or_le q 0 with hneg | hpos
      · exact Or.inr (Or.inr ⟨q, rfl, hneg⟩)
      · obtain ⟨t, rfl⟩ := Int.eq_ofNat_of_zero_le hpos
        by_cases hl : Looping d t
        · exact Or.inr (Or.inl ⟨t, rfl, hl⟩)
        · refine Or.inl fun q hq => ⟨t, (Option.some.inj hq).symm, hl⟩

theorem records_ending (d : Bytes) (nameAt : Record → Option Int) :
    ∀ n p : Nat, RecordsEnding d nameAt p n
  | 0, _ => .done .nil (by simp) rfl
  | n + 1, p => by
      rcases record_cases d p with hloop | ⟨r, hr⟩ | ⟨hloop, hno⟩
      · exact .loops .nil (by simp) (Nat.succ_pos n) hloop
      · rcases passable_cases d (nameAt r) with hpass | ⟨t, ht, hl⟩ | ⟨q, hq, hneg⟩
        · -- the record is passed: the walk goes on after it
          have hall : ∀ {rs : List Record}, (∀ r ∈ rs, Passable d (nameAt r)) →
              ∀ r' ∈ r :: rs, Passable d (nameAt r') := by
            intro rs hrs r' hr'
            rcases List.mem_cons.mp hr' with rfl | hr'
            · exact hpass
            · exact hrs r' hr'
          have hlen : ∀ {rs : List Record}, rs.length < n → (r :: rs).length < n + 1 := by
            intro rs h
            rw [List.length_cons]
            omega
          cases records_ending d nameAt n r.stop with
          | done h hp hn => exact .done (.cons hr h) (hall hp) (by rw [List.length_cons, hn])
          | stuck h hp hn hl hno => exact .stuck (.cons hr h) (hall hp) (hlen hn) hl hno
          | loops h hp hn hl => exact .loops (.cons hr h) (hall hp) (hlen hn) hl
          | dataLoops h hp hn hr' ht hl =>
              exact .dataLoops (.cons hr h) (hall hp) (hlen hn) hr' ht hl
          | before h hp hn hr' hq hneg =>
              exact .before (.cons hr h) (hall hp) (hlen hn) hr' hq hneg
        · exact .dataLoops .nil (by simp) (Nat.succ_pos n) hr ht hl
        · exact .before .nil (by simp) (Nat.succ_pos n) hr hq hneg
      · exact .stuck .nil (by simp) (Nat.succ_pos n) hloop hno

namespace AnswerLoop

variable {d : Bytes} {M : Type} (A : AnswerLoop d M)

/-- The values of `rs` as the loop reads them. -/
def Reads : List Record → List Bytes → Prop :=
  Yields fun r vs => ReadsAs A.R d (A.nameAt r) r vs

theorem reads_of_passable {rs : List Record} (h : ∀ r ∈ rs, Passable d (A.nameAt r)) :
    ∃ vs, A.Reads rs vs :=
  Yields.exists fun r hr => (h r hr).readsAs A.R r

/-- The records that can be passed are consumed, and their values kept. -/
theorem advance {p mid : Nat} {rs : List Record} (h : Records d p rs mid) :
    ∀ {vs : List Bytes} (k : Nat) (m : M), A.Reads rs vs →
      Same (A.run (rs.length + k) p m) (A.run k mid (A.addAll m vs)) := by
  induction h with
  | nil =>
      rintro _ k m rfl
      rw [List.length_nil, Nat.zero_add, A.addAll_nil]
      exact Same.refl _
  | @cons off stop r rs hr _ ih =>
      rintro _ k m ⟨v, w, hv, hw, rfl⟩
      have hread := A.read_returns (rs.length + k) m hr.bounds.2 hv
      have := ((A.run_record (rs.length + k) m hr).trans (hread.same_bind _)).trans
        (ih k (A.addAll m v) hw)
      rwa [A.addAll_addAll, ← show rs.length + 1 + k = rs.length + k + 1 by omega] at this

variable {p mid n : Nat} {rs : List Record} {m : M}

/-- A loop that still has records to go behaves as it does where the passed ones end. -/
theorem same_after (h : Records d p rs mid) (hp : ∀ r ∈ rs, Passable d (A.nameAt r))
    (hn : rs.length < n) (m : M) :
    ∃ k vs, A.Reads rs vs ∧ Same (A.run n p m) (A.run (k + 1) mid (A.addAll m vs)) := by
  obtain ⟨vs, hvs⟩ := A.reads_of_passable hp
  obtain ⟨k, rfl⟩ : ∃ k, n = rs.length + (k + 1) := ⟨n - rs.length - 1, by omega⟩
  exact ⟨k, vs, hvs, A.advance h (k + 1) m hvs⟩

theorem returns_done {vs : List Bytes} (h : Records d p rs mid) (hvs : A.Reads rs vs)
    (hn : rs.length = n) : (A.run n p m).Returns (A.addAll m vs) := by
  have hsame := A.advance h 0 m hvs
  rw [Nat.add_zero, hn, A.run_zero] at hsame
  exact (hsame.returns _).mpr (returns_pure.mpr rfl)

theorem returns_stuck (h : Records d p rs mid) (hp : ∀ r ∈ rs, Passable d (A.nameAt r))
    (hn : rs.length < n) (hl : ¬Looping d mid) (hno : ∀ r, ¬RecordAt d mid r) (m : M) :
    ∃ m', (A.run n p m).Returns m' := by
  obtain ⟨k, vs, -, hsame⟩ := A.same_after h hp hn m
  exact ⟨_, (hsame.returns _).mpr (A.run_stop _ _ hl hno)⟩

theorem hangs_loops (h : Records d p rs mid) (hp : ∀ r ∈ rs, Passable d (A.nameAt r))
    (hn : rs.length < n) (hl : Looping d mid) (m : M) : (A.run n p m).Hangs := by
  obtain ⟨k, vs, -, hsame⟩ := A.same_after h hp hn m
  exact hsame.hangs.mpr (A.run_hangs _ _ hl)

theorem hangs_dataLoops {t : Nat} {r : Record} (h : Records d p rs mid)
    (hp : ∀ r ∈ rs, Passable d (A.nameAt r)) (hn : rs.length < n) (hr : RecordAt d mid r)
    (ht : A.nameAt r = some (t : Int)) (hl : Looping d t) (m : M) : (A.run n p m).Hangs := by
  obtain ⟨k, vs, -, hsame⟩ := A.same_after h hp hn m
  exact (hsame.trans (A.run_record _ _ hr)).hangs.mpr ((A.read_hangs _ _ ht hl).bind _)

theorem faults {r : Record} {q : Int} (h : Records d p rs mid)
    (hp : ∀ r ∈ rs, Passable d (A.nameAt r)) (hn : rs.length < n) (hr : RecordAt d mid r)
    (hq : A.nameAt r = some q) (hneg : q < 0) (m : M) : (A.run n p m).Faults := by
  obtain ⟨k, vs, -, hsame⟩ := A.same_after h hp hn m
  exact (hsame.trans (A.run_record _ _ hr)).faults.mpr ((A.read_faults _ _ hq hneg).bind _)

/-- Whatever an answer loop returns, it has only added values. -/
theorem returns_addAll {m' : M} (h : (A.run n p m).Returns m') : ∃ vs, m' = A.addAll m vs := by
  cases records_ending d A.nameAt n p with
  | done hrs hp hn =>
      obtain ⟨vs, hvs⟩ := A.reads_of_passable hp
      exact ⟨vs, h.unique (A.returns_done hrs hvs hn)⟩
  | stuck hrs hp hn hl hno =>
      obtain ⟨k, vs, -, hsame⟩ := A.same_after hrs hp hn m
      exact ⟨vs, h.unique ((hsame.returns _).mpr (A.run_stop _ _ hl hno))⟩
  | loops hrs hp hn hl => exact absurd (A.hangs_loops hrs hp hn hl m) h.not_hangs
  | dataLoops hrs hp hn hr ht hl =>
      exact absurd (A.hangs_dataLoops hrs hp hn hr ht hl m) h.not_hangs
  | before hrs hp hn hr hq hneg => exact absurd (A.faults hrs hp hn hr hq hneg m) h.not_faults

end AnswerLoop

/-! ## The four loops -/

namespace Go

/-- The Go port looks `rdlen` bytes before the RDATA. -/
def nameAt (r : Record) : Option Int :=
  (nameSkip r.rtype r.rdlen).map fun k : Nat => (r.rdoff : Int) - r.rdlen + k

theorem nameAt_eq_some {r : Record} {q : Int} (h : nameAt r = some q) :
    ∃ k, nameSkip r.rtype r.rdlen = some k ∧ q = (r.rdoff : Int) - r.rdlen + k := by
  obtain ⟨k, hk, rfl⟩ := Option.map_eq_some_iff.mp h
  exact ⟨k, hk, rfl⟩

def questionLoop (data : Bytes) : QuestionLoop data DnsMsg where
  ask msg q := { msg with question := dotted q.1, qtype := q.2 }
  run n i p msg := parseQuestions data n i p msg
  run_zero _ _ _ := rfl
  run_question n _ _ h := parseQuestions_question h n
  run_stop n _ _ hl h := parseQuestions_stop hl h n
  run_hangs n _ _ hl := parseQuestions_hangs hl n

def answerLoop (data : Bytes) : AnswerLoop data DnsMsg where
  R := rendering
  nameAt := nameAt
  addAll := DnsMsg.addAll
  read _ r msg :=
    addAnswers data r.rtype (r.rdata data) r.rdlen ((r.rdoff : Int) - r.rdlen) msg
  run n p msg := parseAnswers data n p msg
  addAll_nil := DnsMsg.addAll_nil
  addAll_addAll := DnsMsg.addAll_addAll
  run_zero _ _ := rfl
  run_record n _ h := parseAnswers_record h n
  run_stop n _ hl h := parseAnswers_stop hl h n
  run_hangs n _ hl := parseAnswers_hangs hl n
  read_returns := by
    intro r vs n msg hstop h
    cases hk : nameSkip r.rtype r.rdlen with
    | none =>
        simp only [nameAt, hk, Option.map_none] at h
        obtain rfl := h
        exact addAnswers_plain hk data _ _ msg
    | some k =>
        simp only [nameAt, hk, Option.map_some] at h
        obtain ⟨p, hp, hname⟩ := h
        rw [addAnswers_name hk, hp]
        rcases hname with ⟨L, hL, rfl⟩ | ⟨hres, hl, rfl⟩
        · exact appendName_of_nameAt hL
        · rw [DnsMsg.addAll_nil]
          exact appendName_of_broken hres hl
  read_hangs := by
    intro r p n msg h hl
    obtain ⟨k, hk, hp⟩ := nameAt_eq_some h
    rw [addAnswers_name hk, ← hp]
    exact appendName_hangs hl
  read_faults := by
    intro r q n msg h hneg
    obtain ⟨k, hk, rfl⟩ := nameAt_eq_some h
    rw [addAnswers_name hk]
    exact appendName_faults hneg

end Go

namespace C

/-- The C port looks where the record carries the name. -/
def nameAt (r : Record) : Option Int := r.nameOff.map Int.ofNat

theorem nameAt_eq_some {r : Record} {q : Int} (h : nameAt r = some q) :
    ∃ k, nameSkip r.rtype r.rdlen = some k ∧ q = (r.rdoff : Int) + k := by
  obtain ⟨p, hp, rfl⟩ := Option.map_eq_some_iff.mp h
  obtain ⟨k, hk, rfl⟩ := Option.map_eq_some_iff.mp hp
  exact ⟨k, hk, rfl⟩

def questionLoop (junk : Nat → NameBuf) (d : Bytes) : QuestionLoop d DnsMsg where
  ask m q := { m with question := cstr ((dotted q.1).take 255), qtype := q.2 }
  run n i p m := parseQuestions junk d n i p m
  run_zero _ _ _ := rfl
  run_question n _ _ h := parseQuestions_question h n
  run_stop n _ _ hl h := parseQuestions_stop hl h n
  run_hangs n _ _ hl := parseQuestions_hangs hl n

def answerLoop (ntop : InetNtop) (junk : Nat → NameBuf) (d : Bytes) :
    AnswerLoop d DnsMsg where
  R := rendering ntop
  nameAt := nameAt
  addAll := DnsMsg.addAll
  read n r m := addAnswers ntop d r.rtype r.rdlen r.rdoff (junk n) m
  run n p m := parseAnswers ntop junk d n p m
  addAll_nil := addAll_nil
  addAll_addAll := addAll_addAll
  run_zero _ _ := rfl
  run_record n _ h := parseAnswers_record h n
  run_stop n _ hl h := parseAnswers_stop hl h n
  run_hangs n _ hl := parseAnswers_hangs hl n
  read_returns := by
    intro r vs n m hstop h
    cases hp : r.nameOff with
    | none =>
        simp only [nameAt, hp, Option.map_none] at h
        obtain rfl := h
        exact addAnswers_plain hp hstop (junk n) m
    | some p =>
        obtain ⟨q, hq, hname⟩ : ReadsAs (rendering ntop) d (some (p : Int)) r vs := by
          simpa [nameAt, hp] using h
        obtain rfl := Int.ofNat_inj.mp hq
        obtain ⟨k, hk, rfl⟩ := Option.map_eq_some_iff.mp hp
        rw [addAnswers_name hk, ← Nat.cast_add]
        rcases hname with ⟨L, hL, rfl⟩ | ⟨hres, hl, rfl⟩
        · exact addName_of_nameAt hL
        · rw [addAll_nil]
          exact addName_of_broken hres hl
  read_hangs := by
    intro r p n m h hl
    obtain ⟨k, hk, hp⟩ := nameAt_eq_some h
    rw [addAnswers_name hk, ← hp]
    exact addName_hangs hl
  read_faults := by
    intro r q n m h hneg
    obtain ⟨k, hk, hp⟩ := nameAt_eq_some h
    omega

end C

end Tracep.Dns
