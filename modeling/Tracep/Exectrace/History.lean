import Tracep.Lib.History
import Tracep.Exectrace.TableTracer

/-!
# What the lines say of the events before them

The entry of a process is the one made at its latest accepted exec, if it
has not exited since (`Map.db_iff`). So an `execed` or `exited` line says
what that exec found, and no process has an entry after its exit
(`run_reports`).

Whether a start line precedes an `exited` line is another matter: the entry
is made before `printExec` reads the command once more, and stays when there
is nothing left to print. The lines of a process come in pairs exactly when
each exit that finds an entry is that of a process whose command `printExec`
has seen (`run_paired_iff`).

A handler prints nothing before the depth is known and the entry is there,
so the lines of a run that is cut short at an event are those of the events
before it.
-/

namespace Tracep.Exectrace

open Exec History
open C (watchInit orphans)

/-! ## Runs as traces -/

namespace Map

/-- A step handles its event. -/
structure Next (P : Port) (opts : Options) (proc : Proc) (s : State) (x : Step) (s' : State) :
    Prop where
  before : x.before = s
  after : x.after = s'
  handled : (handle P opts proc s x.event).Returns (s', x.lines)

/-- The runs of the tracer. -/
abbrev Runs (P : Port) (opts : Options) (proc : Proc) : List Step → State → Prop :=
  Trace (Next P opts proc) ⟨fun _ => none, 0⟩

variable {P : Port} {opts : Options} {proc : Proc} {s s' : State} {h rest steps : List Step}
  {x : Step}

theorem runWith_runs {evs : List Event} (hruns : Runs P opts proc h s)
    (hret : (runWith (handle P opts proc) id s evs).Returns (s', steps)) :
    Runs P opts proc (h ++ steps) s' := by
  induction evs generalizing h s steps with
  | nil =>
      obtain ⟨rfl, rfl⟩ := Prod.mk.inj (returns_pure.mp hret)
      rw [List.append_nil]
      exact hruns
  | cons ev evs ih =>
      obtain ⟨s₁, lines, rest, hev, hevs, rfl⟩ := runWith_cons_iff.mp hret
      have hnext := ih (hruns.snoc (x := ⟨s, ev, lines, s₁⟩) ⟨rfl, rfl, hev⟩) hevs
      rw [List.append_assoc] at hnext
      exact hnext

theorem run_runs {evs : List Event} (hret : (run P opts proc evs).Returns (s, steps)) :
    Runs P opts proc steps s := runWith_runs .nil hret

/-- Each event of a run is handled with the entries that the events before it left. -/
theorem run_next {evs : List Event} (hret : (run P opts proc evs).Returns (s, h ++ x :: rest)) :
    Runs P opts proc h x.before ∧ Next P opts proc x.before x x.after := by
  obtain ⟨s₁, s₂, hruns, hnext⟩ := (run_runs hret).split
  obtain ⟨rfl, rfl, hev⟩ := hnext
  exact ⟨hruns, rfl, rfl, hev⟩

end Map

/-! ## The latest exec of a process -/

section Latest

variable (P : Port) (opts : Options) (proc : Proc) (pid : Int32)

/-- The step is an accepted exec of the process, and this is the entry made of it. -/
def Notes (e : Entry) (x : Step) : Prop :=
  ∃ tsNs d now, Accepted P opts proc x.before x.event pid tsNs d now
    ∧ e = noted P proc pid tsNs d now

/-- The entry made at the latest accepted exec of the process, which has not exited since. -/
def LatestExec (e : Entry) : List Step → Prop :=
  Since (Notes P opts proc pid e)
    fun x => Accepts P opts proc x.before x.event pid ∨ Exits x.event pid

end Latest

variable {P : Port} {opts : Options} {proc : Proc} {s s' : State} {h rest steps : List Step}
  {pid : Int32} {e : Entry} {x : Step} {evs : List Event}

theorem Notes.accepts (hx : Notes P opts proc pid e x) :
    Accepts P opts proc x.before x.event pid := by
  obtain ⟨tsNs, d, now, hacc, -⟩ := hx
  exact ⟨tsNs, d, now, hacc⟩

/-- What one event does to the entry of a process. -/
theorem Map.Next.db_iff (hx : Next P opts proc s x s') :
    s'.db pid = some e ↔ Notes P opts proc pid e x ∨ s.db pid = some e
      ∧ ¬(Accepts P opts proc x.before x.event pid ∨ Exits x.event pid) := by
  obtain ⟨rfl, -, hret⟩ := hx
  rcases process_cases pid hret with ⟨hnone, hempty, hdb, -⟩ | ⟨tsNs, d, now, hacc, hdb, -⟩
    | ⟨tsNs, ent, c, hexit, -, hdb, -⟩
  · rw [hdb, or_iff_right fun hx => hnone hx.accepts, iff_self_and]
    rintro hent (haccepts | hexits)
    · exact hnone haccepts
    · exact Option.some_ne_none e (hent.symm.trans (hempty hexits))
  · have haccepts : Accepts P opts proc x.before x.event pid := ⟨tsNs, d, now, hacc⟩
    rw [hdb, Option.some_inj, or_iff_left fun hx => hx.2 (Or.inl haccepts)]
    constructor
    · rintro rfl
      exact ⟨tsNs, d, now, hacc, rfl⟩
    · rintro ⟨tsNs', d', now', hacc', rfl⟩
      obtain ⟨-, rfl, rfl, rfl⟩ := hacc.unique hacc'
      rfl
  · rw [hdb, or_iff_right fun hx => hexit.not_accepts hx.accepts]
    exact iff_of_false nofun fun hx => hx.2 (Or.inr ⟨tsNs, hexit⟩)

/-- The entry of a process is the one made at its latest exec since it last exited. -/
theorem Map.db_iff (hruns : Runs P opts proc h s) :
    s.db pid = some e ↔ LatestExec P opts proc pid e h := by
  induction hruns with
  | nil => exact iff_of_false nofun not_since_nil
  | snoc hruns hx ih => rw [hx.db_iff, ih, LatestExec, since_snoc]

/-- `pidDBLen` counts the processes with such an exec, and there is room for no more of them
than the table has slots. -/
theorem C.run_len {s : C.State} (hret : (C.run opts proc evs).Returns (s, steps)) :
    s.table.len = {pid | ∃ e, LatestExec port opts proc pid e steps}.ncard
      ∧ s.table.len ≤ pidCap := by
  obtain ⟨⟨m, hm⟩, hmap⟩ := run_returns hret
  have hlive : Probing.keys m = {pid | ∃ e, LatestExec port opts proc pid e steps} := by
    ext pid
    rw [← keys_view hm]
    change (s.view.db pid).isSome ↔ ∃ e, LatestExec port opts proc pid e steps
    simp only [← Map.db_iff (Map.run_runs hmap)]
    exact Option.isSome_iff_exists
  rw [hm.len_eq, ← hlive]
  exact ⟨rfl, Int.ofNat_le.mpr hm.keys_ncard_le⟩

/-! ## What the lines report -/

section Reports

variable (P : Port) (opts : Options) (proc : Proc)

/-- A line about a program that has ended says what the latest exec of the process found, and
for an exit how long ago that was. -/
def LineReports (h : List Step) (x : Step) : Line → Prop
  | .start _ => True
  | .execed pid depth name => ∃ e, LatestExec P opts proc pid e h
      ∧ Accepts P opts proc x.before x.event pid ∧ depth = e.depth ∧ name = e.cmdline
  | .exited pid depth name _ elapsed => ∃ e tsNs, LatestExec P opts proc pid e h
      ∧ ExitsAt x.event pid tsNs ∧ depth = e.depth ∧ name = e.cmdline
      ∧ elapsed = tsNs - e.startNs

/-- The step tells what the history has come to, and ends it for a process that exits. -/
structure Reports (h : List Step) (x : Step) : Prop where
  lines : ∀ line ∈ x.lines, LineReports P opts proc h x line
  exited : ∀ pid, Exits x.event pid → x.after.db pid = none

end Reports

theorem Map.reports (hret : (run P opts proc evs).Returns (s, h ++ x :: rest)) :
    Reports P opts proc h x := by
  obtain ⟨hruns, hx⟩ := run_next hret
  refine ⟨?_, ?_⟩
  · intro line hline
    rcases process_cases line.pid hx.handled with ⟨-, -, -, hother⟩
      | ⟨tsNs, d, now, hacc, -, hlines⟩ | ⟨tsNs, ent, c, hexit, hent, -, hlines⟩
    · exact absurd rfl (hother line hline)
    · rw [hlines] at hline
      rcases List.mem_append.mp hline with hexeced | hstart
      · obtain ⟨hfound, heq⟩ := mem_execedLines hexeced
        obtain ⟨ent, hent⟩ := Option.isSome_iff_exists.mp hfound
        rw [hent] at heq
        rw [heq]
        exact ⟨ent, (db_iff hruns).mp hent, ⟨tsNs, d, now, hacc⟩, rfl, rfl⟩
      · obtain ⟨l, -, rfl⟩ := Option.map_eq_some_iff.mp (Option.mem_toList.mp hstart)
        trivial
    · rw [hlines] at hline
      rw [mem_exitLines hline]
      exact ⟨ent, tsNs, (db_iff hruns).mp hent, hexit, rfl, rfl, rfl⟩
  · intro pid hexits
    rw [Option.eq_none_iff_forall_ne_some]
    intro e he
    rcases hx.db_iff.mp he with hnotes | ⟨-, hstays⟩
    · obtain ⟨tsNs, hexits⟩ := hexits
      exact hexits.not_accepts hnotes.accepts
    · exact hstays (Or.inr hexits)

/-- What a run of either port prints of a program that has ended is what the latest exec of
the process found, and no process has an entry after its exit. -/
theorem run_reports (opts : Options) (proc : Proc) (evs : List Event) :
    (∀ s h x rest, (Go.run opts proc evs).Returns (s, h ++ x :: rest) →
        Reports Go.port opts proc h x)
      ∧ ∀ s h x rest, (C.run opts proc evs).Returns (s, h ++ x :: rest) →
        Reports C.port opts proc h x := by
  constructor
  · intro s h x rest hret
    exact Map.reports hret
  · intro s h x rest hret
    exact Map.reports (C.run_returns hret).2

/-! ### A shell -/

/-- The processes are children of `init` and run `/bin/sh`. -/
def shells : Proc where
  ppid _ _ := 1
  cmdline _ _ := some [0x2f, 0x62, 0x69, 0x6e, 0x2f, 0x73, 0x68, 0]
  comm _ _ := none
  environ _ _ := none
  exe _ _ := []
  cwd _ _ := []
  user _ _ := []

/-- A process executes a program at time 5, and exits at time 9. -/
def execThenExit : List Event :=
  [.exec [7, 0, 0, 0, 7, 0, 0, 0] 5, .exit ([7, 0, 0, 0, 7, 0, 0, 0] ++ List.replicate 16 0) 9]

theorem shell_reports :
    (∃ s h x, (Go.run watchInit shells execThenExit).Returns (s, h ++ [x])
        ∧ x.lines = [.exited 7 0 [0x73, 0x68] 0 4] ∧ Reports Go.port watchInit shells h x)
      ∧ ∃ s h x, (C.run watchInit shells execThenExit).Returns (s, h ++ [x])
        ∧ x.lines = [.exited 7 0 [0x73, 0x68] 0 4] ∧ Reports C.port watchInit shells h x := by
  constructor
  · have hret : ∃ s y x, (Go.run watchInit shells execThenExit).Returns (s, [y] ++ [x])
        ∧ x.lines = [.exited 7 0 [0x73, 0x68] 0 4] := ⟨_, _, _, ⟨2, rfl⟩, rfl⟩
    obtain ⟨s, y, x, hret, hlines⟩ := hret
    exact ⟨s, [y], x, hret, hlines,
      (run_reports watchInit shells execThenExit).1 s [y] x [] hret⟩
  · have hret : ∃ s y x, (C.run watchInit shells execThenExit).Returns (s, [y] ++ [x])
        ∧ x.lines = [.exited 7 0 [0x73, 0x68] 0 4] := ⟨_, _, _, ⟨2, rfl⟩, rfl⟩
    obtain ⟨s, y, x, hret, hlines⟩ := hret
    exact ⟨s, [y], x, hret, hlines,
      (run_reports watchInit shells execThenExit).2 s [y] x [] hret⟩

/-! ## Start lines -/

/-- What a run prints. -/
def output (steps : List Step) : List Line := steps.flatMap Step.lines

/-- The line that `printExec` prints for the process, with its `+`. -/
def IsStart (pid : Int32) (line : Line) : Prop := ∃ l, line = .start l ∧ l.pid = pid ∧ l.plus = true

def IsExited (pid : Int32) (line : Line) : Prop :=
  ∃ depth name exitCode elapsed, line = .exited pid depth name exitCode elapsed

/-- A start line was printed for the process after its last `exited` line. -/
def Started (pid : Int32) : List Line → Prop := Since (IsStart pid) (IsExited pid)

/-- Each `exited` line follows a start line of its own. -/
def Paired (steps : List Step) : Prop :=
  ∀ pid before line after, output steps = before ++ line :: after → IsExited pid line →
    Started pid before

section Shown

variable (P : Port) (opts : Options) (proc : Proc)

/-- The step is an accepted exec of the process, whose command is there for `printExec` to
read after the entry is made. -/
def Shows (pid : Int32) (x : Step) : Prop :=
  ∃ tsNs d now, Accepted P opts proc x.before x.event pid tsNs d now
    ∧ Visible P opts proc pid (notedAt P proc pid now)

/-- The command of the process was there to read at an accepted exec since it last exited. -/
def Seen (pid : Int32) : List Step → Prop :=
  Since (Shows P opts proc pid) fun y => Exits y.event pid

/-- Whenever a process exits for which an exec was accepted since it last exited, its command
was there to read at one of these. -/
def ExitsSeen (steps : List Step) : Prop :=
  ∀ pid h x rest, steps = h ++ x :: rest → Exits x.event pid →
    (∃ e, LatestExec P opts proc pid e h) → Seen P opts proc pid h

end Shown

theorem Shows.accepts (hx : Shows P opts proc pid x) :
    Accepts P opts proc x.before x.event pid := by
  obtain ⟨tsNs, d, now, hacc, -⟩ := hx
  exact ⟨tsNs, d, now, hacc⟩

theorem IsStart.pid_eq {line : Line} (h : IsStart pid line) : line.pid = pid := by
  obtain ⟨l, rfl, hpid, -⟩ := h
  exact hpid

theorem IsExited.pid_eq {line : Line} (h : IsExited pid line) : line.pid = pid := by
  obtain ⟨d, n, c, t, rfl⟩ := h
  rfl

theorem not_isExited_of_execLines {d : Int} {now : Nat} {line : Line}
    (hline : line ∈ execLines P opts proc s pid d now) : ¬IsExited pid line := by
  rintro ⟨d, n, c, t, rfl⟩
  rcases List.mem_append.mp hline with hline | hline
  · obtain ⟨-, heq⟩ := mem_execedLines hline
    cases heq
  · obtain ⟨l, -, heq⟩ := Option.map_eq_some_iff.mp (Option.mem_toList.mp hline)
    cases heq

/-- There is a start line among the lines of an exec exactly when the command is visible. -/
theorem started_execLines (hshow : opts.showExit = true) {d : Int} {now : Nat} :
    Started pid (execLines P opts proc s pid d now) ↔ Visible P opts proc pid now := by
  have hexeced : ¬Started pid (execedLines opts (s.db pid).isSome pid
      ((s.db pid).getD ⟨0, 0, []⟩)) := by
    apply not_since_of_forall
    rintro line hline ⟨l, rfl, -⟩
    obtain ⟨-, heq⟩ := mem_execedLines hline
    cases heq
  unfold execLines
  rw [Started, since_append, or_iff_left fun h => hexeced h.1]
  rcases printExec_cases P opts proc pid d now with ⟨hvisible, l, hl, hpid, hplus⟩ | ⟨hvisible, hl⟩
  · rw [hl]
    refine iff_of_true ?_ hvisible
    exact since_singleton.mpr ⟨l, rfl, hpid, hplus.trans hshow⟩
  · rw [hl]
    exact iff_of_false not_since_nil hvisible

/-- What one event does to the start line of a process that waits for its `exited` line. -/
theorem Map.Next.started_iff (hshow : opts.showExit = true) (hx : Next P opts proc s x s')
    (hsome : Started pid (output h) → s.db pid ≠ none)
    (hseen : Started pid (output h) ↔ Seen P opts proc pid h) :
    (Started pid (output (h ++ [x])) ↔ Seen P opts proc pid (h ++ [x]))
      ∧ (Started pid (output (h ++ [x])) → s'.db pid ≠ none) := by
  have hout : Started pid (output (h ++ [x])) ↔
      Started pid x.lines ∨ Started pid (output h) ∧ ∀ line ∈ x.lines, ¬IsExited pid line := by
    rw [output, List.flatMap_append, List.flatMap_singleton]
    exact since_append
  have hsnoc : Seen P opts proc pid (h ++ [x]) ↔
      Shows P opts proc pid x ∨ Seen P opts proc pid h ∧ ¬Exits x.event pid := since_snoc
  obtain ⟨rfl, -, hret⟩ := hx
  rw [hout, hsnoc, ← hseen]
  rcases process_cases pid hret with ⟨hnone, hempty, hdb, hother⟩
    | ⟨tsNs, d, now, hacc, hdb, hlines⟩ | ⟨tsNs, ent, c, hexit, -, hdb, hlines⟩
  · have hstart : ¬Started pid x.lines :=
      not_since_of_forall fun line hline hstart => hother line hline hstart.pid_eq
    have hexited : ∀ line ∈ x.lines, ¬IsExited pid line :=
      fun line hline hexited => hother line hline hexited.pid_eq
    rw [hdb, or_iff_right hstart, or_iff_right fun hx => hnone hx.accepts, and_iff_left hexited,
      iff_self_and]
    refine ⟨?_, hsome⟩
    intro hstarted hexits
    exact hsome hstarted (hempty hexits)
  · have hexited : ∀ line ∈ x.lines, ¬IsExited pid line := by
      rw [hlines]
      exact fun line => not_isExited_of_execLines
    have hshows : Shows P opts proc pid x ↔ Visible P opts proc pid (notedAt P proc pid now) := by
      constructor
      · rintro ⟨tsNs', d', now', hacc', hvisible⟩
        obtain ⟨-, -, -, rfl⟩ := hacc.unique hacc'
        exact hvisible
      · intro hvisible
        exact ⟨tsNs, d, now, hacc, hvisible⟩
    rw [and_iff_left hexited, and_iff_left hacc.not_exits, hshows, hlines, started_execLines hshow,
      hdb]
    refine ⟨Iff.rfl, ?_⟩
    intro
    exact Option.some_ne_none _
  · have hline : x.lines = [.exited pid ent.depth ent.cmdline c (tsNs - ent.startNs)] := by
      rw [hlines, exitLines, if_pos hshow]
    have hstart : ¬Started pid x.lines := by
      rw [hline, Started, since_singleton]
      rintro ⟨l, heq, -⟩
      cases heq
    have hexited : ¬∀ line ∈ x.lines, ¬IsExited pid line := by
      rw [hline, List.forall_mem_singleton, not_not]
      exact ⟨_, _, _, _, rfl⟩
    have hgone : ¬(Started pid x.lines
        ∨ Started pid (output h) ∧ ∀ line ∈ x.lines, ¬IsExited pid line) := by
      rintro (hstarted | ⟨-, hnone⟩)
      · exact hstart hstarted
      · exact hexited hnone
    refine ⟨iff_of_false hgone ?_, fun hstarted => absurd hstarted hgone⟩
    rintro (hshows | ⟨-, hstays⟩)
    · exact hexit.not_accepts hshows.accepts
    · exact hstays ⟨tsNs, hexit⟩

/-- A start line waits for the `exited` line of a process exactly when its command was there
to read, and then the process has an entry. -/
theorem Map.started_iff (hshow : opts.showExit = true) (hruns : Runs P opts proc h s) :
    (Started pid (output h) ↔ Seen P opts proc pid h)
      ∧ (Started pid (output h) → s.db pid ≠ none) := by
  induction hruns with
  | nil => exact ⟨iff_of_false not_since_nil not_since_nil, fun h => absurd h not_since_nil⟩
  | snoc hruns hx ih => exact hx.started_iff hshow ih.2 ih.1

/-- An exit that finds an entry prints an `exited` line and no more. -/
theorem Map.Next.exited_line (hshow : opts.showExit = true) (hx : Next P opts proc s x s')
    (hexits : Exits x.event pid) (hent : s.db pid = some e) :
    ∃ line, x.lines = [line] ∧ IsExited pid line := by
  obtain ⟨rfl, -, hret⟩ := hx
  rcases process_cases pid hret with ⟨-, hempty, -⟩ | ⟨tsNs, d, now, hacc, -⟩
    | ⟨tsNs, ent, c, -, -, -, hlines⟩
  · exact absurd (hent.symm.trans (hempty hexits)) (Option.some_ne_none e)
  · exact absurd hexits hacc.not_exits
  · rw [exitLines, if_pos hshow] at hlines
    exact ⟨_, hlines, _, _, _, _, rfl⟩

/-- Only such an exit prints one. -/
theorem Map.Next.of_exited (hshow : opts.showExit = true) (hx : Next P opts proc s x s')
    {line : Line} (hline : line ∈ x.lines) (hexited : IsExited pid line) :
    Exits x.event pid ∧ x.lines = [line] ∧ ∃ e, s.db pid = some e := by
  obtain ⟨rfl, -, hret⟩ := hx
  rcases process_cases pid hret with ⟨-, -, -, hother⟩ | ⟨tsNs, d, now, -, -, hlines⟩
    | ⟨tsNs, ent, c, hexit, hent, -, hlines⟩
  · exact absurd hexited.pid_eq (hother line hline)
  · rw [hlines] at hline
    exact absurd hexited (not_isExited_of_execLines hline)
  · rw [exitLines, if_pos hshow] at hlines
    rw [hlines] at hline
    obtain rfl := List.mem_singleton.mp hline
    exact ⟨⟨tsNs, hexit⟩, hlines, ent, hent⟩

theorem Map.paired_iff (hshow : opts.showExit = true)
    (hret : (run P opts proc evs).Returns (s, steps)) :
    Paired steps ↔ ExitsSeen P opts proc steps := by
  constructor
  · rintro hpaired pid h x rest rfl hexits ⟨e, he⟩
    obtain ⟨hruns, hx⟩ := run_next hret
    obtain ⟨line, hlines, hexited⟩ := hx.exited_line hshow hexits ((db_iff hruns).mpr he)
    have hout : output (h ++ x :: rest) = output h ++ line :: output rest := by
      rw [output, List.flatMap_append, List.flatMap_cons, hlines]
      rfl
    exact (started_iff hshow hruns).1.mp (hpaired pid (output h) line (output rest) hout hexited)
  · intro hseen pid before line after hout hexited
    obtain ⟨h, x, rest, b, a, rfl, hlines, rfl⟩ := exists_split_of_flatMap hout
    obtain ⟨hruns, hx⟩ := run_next hret
    have hline : line ∈ x.lines := by
      rw [hlines]
      exact List.mem_append_right b List.mem_cons_self
    obtain ⟨hexits, hone, e, he⟩ := hx.of_exited hshow hline hexited
    obtain rfl := eq_nil_of_singleton hlines hone
    rw [List.append_nil]
    exact (started_iff hshow hruns).1.mpr
      (hseen pid h x rest rfl hexits ⟨e, (db_iff hruns).mp he⟩)

/-- In a run of either port each `exited` line has a start line exactly when the command of
each process that exits was there to read, at one of its execs, once the entry was made. -/
theorem run_paired_iff (opts : Options) (proc : Proc) (evs : List Event)
    (hshow : opts.showExit = true) :
    (∀ s steps, (Go.run opts proc evs).Returns (s, steps) →
        (Paired steps ↔ ExitsSeen Go.port opts proc steps))
      ∧ ∀ s steps, (C.run opts proc evs).Returns (s, steps) →
        (Paired steps ↔ ExitsSeen C.port opts proc steps) := by
  constructor
  · intro s steps hret
    exact Map.paired_iff hshow hret
  · intro s steps hret
    exact Map.paired_iff hshow (C.run_returns hret).2

theorem shell_paired : ∃ s steps, (Go.run watchInit shells execThenExit).Returns (s, steps)
    ∧ output steps = [.start ⟨7, 0, true, none, none,
        .argv [0x2f, 0x62, 0x69, 0x6e, 0x2f, 0x73, 0x68] [], none⟩, .exited 7 0 [0x73, 0x68] 0 4]
    ∧ (Paired steps ↔ ExitsSeen Go.port watchInit shells steps) := by
  have hret : ∃ s steps, (Go.run watchInit shells execThenExit).Returns (s, steps)
      ∧ output steps = [.start ⟨7, 0, true, none, none,
        .argv [0x2f, 0x62, 0x69, 0x6e, 0x2f, 0x73, 0x68] [], none⟩,
        .exited 7 0 [0x73, 0x68] 0 4] := ⟨_, _, ⟨2, rfl⟩, rfl⟩
  obtain ⟨s, steps, hret, hout⟩ := hret
  exact ⟨s, steps, hret, hout,
    (run_paired_iff watchInit shells execThenExit rfl).1 s steps hret⟩

/-- All that is printed of a process that vanishes is its `exited` line. -/
theorem vanished_not_paired :
    (∃ s steps, (Go.run watchInit orphans execThenExit).Returns (s, steps) ∧ ¬Paired steps)
      ∧ ∃ s steps, (C.run watchInit orphans execThenExit).Returns (s, steps) ∧ ¬Paired steps := by
  have hout {steps : List Step} (hout : output steps = [.exited 7 0 [] 0 4]) : ¬Paired steps := by
    intro hpaired
    exact not_since_nil (hpaired 7 [] _ [] hout ⟨_, _, _, _, rfl⟩)
  exact ⟨⟨_, _, ⟨2, rfl⟩, hout rfl⟩, ⟨_, _, ⟨2, rfl⟩, hout rfl⟩⟩

end Tracep.Exectrace
