import Tracep.Nettrace.Handlers

/-!
# What a message does

Everything that the handling of a message can do, one case for each way out
of a handler (`Effect`), with the answers that decide between them: whether
an opening is admitted (`Admits`), and whether a line about a process passes
the filters (`Passes`). The handlers do nothing else (`step_effect`), so all
that follows about runs is read off these cases.
-/

namespace Tracep.Nettrace

open Exec Asking Machine

variable {ε π τ δ : Type}

/-- The process, its command and the direction, as a line and an entry have them. -/
abbrev Who := Int32 × Bytes × Direction

def Line.who (line : Line τ) : Who := (line.pid, line.comm, line.dir)

def ConnEntry.who (e : ConnEntry τ) : Who := (e.pid, e.comm, e.dir)

/-- The line is about this connection. -/
structure Line.Is (line : Line τ) (orig : τ) (w : Who) (event : Event) : Prop where
  orig : line.orig = orig
  who : line.who = w
  event : line.event = event

/-- The handler is called for the tuple. -/
structure Called (v : Visit π τ) (c : Call) (orig : τ) : Prop where
  call : v.call = some c
  orig : v.orig = some orig

section Answers

variable (P : Port ε π τ δ) (opts : Settings) (env : Env)

/-- What is asked from now on says that a line about the process passes the filters. -/
def Passes (now : Nat) (pid : Int32) (dir : Direction) : Prop :=
  (∃ later, Gives (unwatched P opts env pid) now false later) ∧ unwanted opts dir = false

/-- What is asked from now on finds the connection to be this process's, and admits it. -/
def Admits (now : Nat) (orig : τ) (w : Who) : Prop :=
  ∃ mid, Gives (P.findPIDAndDir env orig) now w mid ∧ Passes P opts env mid w.1 w.2.2

/-- What is known of the connection with this key, else nothing. -/
def whoIs (db : δ) (key : Bytes) : Who :=
  ((P.conns.get db key).map ConnEntry.who).getD (0, [], .unknown)

/-- What the handling of a visit does to the connections, and prints. -/
inductive Effect (db : δ) (now : Nat) (v : Visit π τ) : δ → List (Line τ) → Prop
  | idle : v.call = none → Effect db now v db []
  | refused {orig : τ} : Called v .new orig → (∀ w, ¬Admits P opts env now orig w) →
      Effect db now v db []
  | opened {orig : τ} {e : ConnEntry τ} {line : Line τ} : Called v .new orig →
      Admits P opts env now orig e.who → line.Is orig e.who .opened →
      Effect db now v (P.conns.put db (P.key orig) e) [line]
  | hidden {orig : τ} : Called v .update orig →
      ¬Passes P opts env now (whoIs P db (P.key orig)).1 (whoIs P db (P.key orig)).2.2 →
      Effect db now v db []
  | updated {orig : τ} {line : Line τ} {db' : δ} : Called v .update orig →
      Passes P opts env now (whoIs P db (P.key orig)).1 (whoIs P db (P.key orig)).2.2 →
      line.Is orig (whoIs P db (P.key orig)) .update →
      (∀ key, (P.conns.get db' key).map ConnEntry.who = (P.conns.get db key).map ConnEntry.who) →
      Effect db now v db' [line]
  | predates {orig : τ} : Called v .destroy orig → P.conns.get db (P.key orig) = none →
      Effect db now v (P.conns.delete db (P.key orig)) []
  | unwatched {orig : τ} {e : ConnEntry τ} : Called v .destroy orig →
      P.conns.get db (P.key orig) = some e →
      (∃ later, Gives (Nettrace.unwatched P opts env e.pid) now true later) →
      Effect db now v (P.conns.delete db (P.key orig)) []
  | closed {orig : τ} {e : ConnEntry τ} {line : Line τ} : Called v .destroy orig →
      P.conns.get db (P.key orig) = some e →
      (∃ later, Gives (Nettrace.unwatched P opts env e.pid) now false later) →
      line.Is orig e.who .closed →
      Effect db now v (P.conns.delete db (P.key orig)) [line]
  | dropped {orig : τ} : Called v .delete orig →
      Effect db now v (P.conns.delete db (P.key orig)) []

end Answers

variable {P : Port ε π τ δ} {opts : Settings} {env : Env} {db db' : δ} {now later : Nat}
  {orig : τ} {payload : π} {key : Bytes} {lines : List (Line τ)} {v : Visit π τ} {w w' : Who}

theorem Passes.not_unwatched {pid : Int32} {dir : Direction} (h : Passes P opts env now pid dir) :
    ¬Gives (unwatched P opts env pid) now true later := by
  obtain ⟨⟨later', h⟩, -⟩ := h
  intro htrue
  exact absurd (h.unique htrue).1 Bool.false_ne_true

theorem Admits.unique (h : Admits P opts env now orig w) (h' : Admits P opts env now orig w') :
    w = w' := by
  obtain ⟨mid, hfind, -⟩ := h
  obtain ⟨mid', hfind', -⟩ := h'
  exact (hfind.unique hfind').1

theorem Called.unique {c c' : Call} {orig' : τ} (h : Called v c orig) (h' : Called v c' orig') :
    c = c' ∧ orig = orig' :=
  ⟨Option.some.inj (h.call.symm.trans h'.call), Option.some.inj (h.orig.symm.trans h'.orig)⟩

/-! ## The handlers -/

theorem printEvent_is {pid : Int32} {comm : Bytes} {dir : Direction} {event : Event}
    {extra : Extra} {line : Line τ}
    (h : Gives (printEvent P opts env orig pid comm dir event extra) now line later) :
    line.Is orig (pid, comm, dir) event := by
  obtain ⟨user, now₁, -, h⟩ := gives_bind.mp h
  obtain ⟨host, now₂, -, h⟩ := gives_bind.mp h
  obtain ⟨rfl, -⟩ := gives_pure.mp h
  exact ⟨rfl, rfl, rfl⟩

theorem handleNew_effect (hv : Called v .new orig)
    (h : Gives (handleNew P opts env db (P.key orig) orig payload) now (db', lines) later) :
    Effect P opts env db now v db' lines := by
  obtain ⟨⟨pid, comm, dir⟩, mid, hfind, h⟩ := gives_bind.mp h
  obtain ⟨hide, now₁, hwatch, h⟩ := gives_bind.mp h
  have hadmits : ∀ w, Admits P opts env now orig w →
      hide = false ∧ unwanted opts dir = false := by
    rintro w ⟨mid', hfind', ⟨now', hwatch'⟩, hwanted⟩
    obtain ⟨rfl, rfl⟩ := hfind.unique hfind'
    exact ⟨(hwatch.unique hwatch').1, hwanted⟩
  cases hide with
  | true =>
      obtain ⟨heq, -⟩ := gives_pure.mp h
      obtain ⟨rfl, rfl⟩ := Prod.mk.inj heq
      exact .refused hv fun w hw => Bool.noConfusion (hadmits w hw).1
  | false =>
      cases hwanted : unwanted opts dir with
      | true =>
          simp only [Bool.false_eq_true, if_false, hwanted, if_true] at h
          obtain ⟨heq, -⟩ := gives_pure.mp h
          obtain ⟨rfl, rfl⟩ := Prod.mk.inj heq
          exact .refused hv fun w hw => Bool.noConfusion (hwanted.symm.trans (hadmits w hw).2)
      | false =>
          simp only [Bool.false_eq_true, if_false, hwanted] at h
          obtain ⟨tcpState, now₂, -, h⟩ := gives_bind.mp h
          obtain ⟨startAt, now₃, -, h⟩ := gives_bind.mp h
          obtain ⟨line, now₄, hline, h⟩ := gives_bind.mp h
          obtain ⟨heq, -⟩ := gives_pure.mp h
          obtain ⟨rfl, rfl⟩ := Prod.mk.inj heq
          have hpasses : Passes P opts env mid pid dir := ⟨⟨now₁, hwatch⟩, hwanted⟩
          exact .opened hv ⟨mid, hfind, hpasses⟩ (printEvent_is hline)

theorem noteState_who {extra : Extra}
    (h : Gives (noteState P db key orig payload) now (db', extra) later) (key' : Bytes) :
    (P.conns.get db' key').map ConnEntry.who = (P.conns.get db key').map ConnEntry.who := by
  unfold noteState at h
  split at h
  · obtain ⟨s, now₁, -, h⟩ := gives_bind.mp h
    split at h
    · obtain ⟨heq, -⟩ := gives_pure.mp h
      obtain ⟨rfl, -⟩ := Prod.mk.inj heq
      rfl
    · next e he =>
        obtain ⟨heq, -⟩ := gives_pure.mp h
        obtain ⟨rfl, -⟩ := Prod.mk.inj heq
        rw [P.conns.get_put]
        split
        · next hkey =>
            rw [hkey, he]
            rfl
        · rfl
  · obtain ⟨heq, -⟩ := gives_pure.mp h
    obtain ⟨rfl, -⟩ := Prod.mk.inj heq
    rfl

theorem handleUpdate_effect (hv : Called v .update orig)
    (h : Gives (handleUpdate P opts env db (P.key orig) orig payload) now (db', lines) later) :
    Effect P opts env db now v db' lines := by
  have hwho : whoIs P db (P.key orig) = (((P.conns.get db (P.key orig)).map ConnEntry.pid).getD 0,
      ((P.conns.get db (P.key orig)).map ConnEntry.comm).getD [],
      ((P.conns.get db (P.key orig)).map ConnEntry.dir).getD .unknown) := by
    rw [whoIs]
    cases P.conns.get db (P.key orig) <;> rfl
  obtain ⟨hide, now₁, hwatch, h⟩ := gives_bind.mp h
  have hpid : ((P.conns.get db (P.key orig)).map ConnEntry.pid).getD 0
      = (whoIs P db (P.key orig)).1 := (congrArg Prod.fst hwho).symm
  have hdir : ((P.conns.get db (P.key orig)).map ConnEntry.dir).getD .unknown
      = (whoIs P db (P.key orig)).2.2 := (congrArg (Prod.snd ∘ Prod.snd) hwho).symm
  rw [hpid] at hwatch
  cases hide with
  | true =>
      obtain ⟨heq, -⟩ := gives_pure.mp h
      obtain ⟨rfl, rfl⟩ := Prod.mk.inj heq
      exact .hidden hv fun hpass => hpass.not_unwatched hwatch
  | false =>
      cases hwanted : unwanted opts (whoIs P db (P.key orig)).2.2 with
      | true =>
          simp only [Bool.false_eq_true, if_false, hdir, hwanted, if_true] at h
          obtain ⟨heq, -⟩ := gives_pure.mp h
          obtain ⟨rfl, rfl⟩ := Prod.mk.inj heq
          exact .hidden hv fun hpass => Bool.noConfusion (hwanted.symm.trans hpass.2)
      | false =>
          simp only [Bool.false_eq_true, if_false, hdir, hwanted] at h
          obtain ⟨⟨db₁, extra⟩, now₂, hnote, h⟩ := gives_bind.mp h
          obtain ⟨line, now₃, hline, h⟩ := gives_bind.mp h
          obtain ⟨heq, -⟩ := gives_pure.mp h
          obtain ⟨rfl, rfl⟩ := Prod.mk.inj heq
          have his := printEvent_is hline
          rw [← hdir, ← hwho] at his
          exact .updated hv ⟨⟨now₁, hwatch⟩, hwanted⟩ his (noteState_who hnote)

theorem handleDestroy_effect (hv : Called v .destroy orig)
    (h : Gives (handleDestroy P opts env db (P.key orig) orig) now (db', lines) later) :
    Effect P opts env db now v db' lines := by
  unfold handleDestroy at h
  cases hent : P.conns.get db (P.key orig) with
  | none =>
      simp only [hent] at h
      obtain ⟨heq, -⟩ := gives_pure.mp h
      obtain ⟨rfl, rfl⟩ := Prod.mk.inj heq
      exact .predates hv hent
  | some e =>
      simp only [hent] at h
      obtain ⟨hide, now₁, hwatch, h⟩ := gives_bind.mp h
      cases hide with
      | true =>
          obtain ⟨heq, -⟩ := gives_pure.mp h
          obtain ⟨rfl, rfl⟩ := Prod.mk.inj heq
          exact .unwatched hv hent ⟨now₁, hwatch⟩
      | false =>
          simp only [Bool.false_eq_true, if_false] at h
          obtain ⟨t, now₂, -, h⟩ := gives_bind.mp h
          obtain ⟨line, now₃, hline, h⟩ := gives_bind.mp h
          obtain ⟨heq, -⟩ := gives_pure.mp h
          obtain ⟨rfl, rfl⟩ := Prod.mk.inj heq
          exact .closed hv hent ⟨now₁, hwatch⟩ (printEvent_is hline)

/-- A message is inspected, and has one of the effects. -/
theorem step_effect {msg : ε} {out : Handled π τ}
    (h : Gives (step P opts env db msg) now (db', out) later) :
    (P.inspect opts.toOptions msg).Returns out.visit
      ∧ Effect P opts env db now out.visit db' out.lines := by
  obtain ⟨v, now₁, hlift, hrest⟩ := gives_bind.mp h
  obtain ⟨hv, rfl⟩ := gives_lift.mp hlift
  obtain ⟨⟨db₁, lines⟩, now₂, hhandle, hlast⟩ := gives_bind.mp hrest
  obtain ⟨heq, -⟩ := gives_pure.mp hlast
  obtain ⟨rfl, rfl⟩ := Prod.mk.inj heq
  refine ⟨hv, ?_⟩
  unfold handle at hhandle
  cases hcall : v.call with
  | none =>
      simp only [hcall] at hhandle
      obtain ⟨heq, -⟩ := gives_pure.mp hhandle
      obtain ⟨rfl, rfl⟩ := Prod.mk.inj heq
      exact .idle hcall
  | some c =>
      obtain ⟨⟨orig, horig⟩, ⟨payload, hpayload⟩, -⟩ := P.dispatched hv hcall
      have hcalled : Called v c orig := ⟨hcall, horig⟩
      simp only [hcall, horig, hpayload] at hhandle
      cases c with
      | new => exact handleNew_effect hcalled hhandle
      | update => exact handleUpdate_effect hcalled hhandle
      | destroy => exact handleDestroy_effect hcalled hhandle
      | delete =>
          obtain ⟨heq, -⟩ := gives_pure.mp hhandle
          obtain ⟨rfl, rfl⟩ := Prod.mk.inj heq
          exact .dropped hcalled

end Tracep.Nettrace
