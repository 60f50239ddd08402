import Tracep.Exectrace.Proc
import Tracep.Exectrace.PidDb
import Tracep.Exectrace.Dispatch

/-!
# The handlers of the Linux exec tracer

`handleExec` notes the depth, the time and the name of a process that is
under a watched one, and prints what it finds of it; an entry that is there
already belongs to the program the process ran before, which is reported as
`execed`. `handleExit` takes the entry out and reports the process as
`exited`.

The Go port keeps the entries in a map, and its handlers are `Map.handleExec`
and `Map.handleExit` with its way of reading (`Port`). The C port keeps them
in the table of `PidDb`, and stores through the pointer that `piddb_get`
returns. A run lists for each event the lines printed and the entries before
and after (`Step`).
-/

namespace Tracep.Exectrace

open Exec Probing

/-! ## Lines and entries -/

/-- A line of output, by what is printed in it. -/
inductive Line where
  | start (l : StartLine)
  | execed (pid : Int32) (depth : Int) (name : Bytes)
  | exited (pid : Int32) (depth : Int) (name : Bytes) (exitCode : UInt32) (elapsed : UInt64)
deriving Repr, DecidableEq

def Line.pid : Line → Int32
  | .start l => l.pid
  | .execed pid _ _ => pid
  | .exited pid _ _ _ _ => pid

/-- `pidEntry`. -/
structure Entry where
  depth : Int
  startNs : UInt64
  cmdline : Bytes
deriving Repr, DecidableEq

/-- The entries and the time. -/
structure State where
  db : Int32 → Option Entry
  now : Nat

def readPid (data : Bytes) : Exec Int32 := do return (← readLe32 data 0).toInt32

/-- The PID of an event. -/
def pidOf (data : Bytes) : Int32 := (leWord32 data 0).toInt32

theorem readPid_eq {data : Bytes} (h : 8 ≤ data.length) : readPid data = pure (pidOf data) := by
  have hread := readLe32_eq (d := data) (i := 0) 0 rfl (by omega)
  rw [readPid, hread]
  rfl

/-- The line for the program that the process ran before, if it is to be printed. -/
def execedLines (opts : Options) (found : Bool) (pid : Int32) (ent : Entry) : List Line :=
  if opts.showExit && found && ent.cmdline ≠ [] then [.execed pid ent.depth ent.cmdline] else []

/-! ## Entries in a map -/

namespace Map

variable (P : Port) (opts : Options) (proc : Proc)

def pidDepth (s : State) (pid : Int32) : Exec (Int × Nat) :=
  Exectrace.pidDepth P opts proc (fun ppid => (s.db ppid).map Entry.depth) pid s.now

def handleExec (s : State) (data : Bytes) (tsNs : UInt64) : Exec (State × List Line) :=
  if data.length < 8 then return (s, [])
  else do
    let pid ← readPid data
    let (d, now) ← pidDepth P opts proc s pid
    if d < 0 then return (⟨s.db, now⟩, [])
    else
      let found := (s.db pid).isSome
      let ent := (s.db pid).getD ⟨0, 0, []⟩
      let execed := execedLines opts found pid ent
      let (cmdline, now) := (readFirstArg P proc pid).run now
      let db := Function.update s.db pid (some ⟨d, tsNs, cmdline⟩)
      let (line, now) := (printExec P opts proc pid d).run now
      return (⟨db, now⟩, execed ++ (line.map Line.start).toList)

def handleExit (s : State) (data : Bytes) (tsNs : UInt64) : Exec (State × List Line) :=
  if data.length < 24 then return (s, [])
  else do
    let pid ← readPid data
    let exitCode ← readLe32 data 8
    match s.db pid with
    | none => return (s, [])
    | some ent =>
        let db := Function.update s.db pid none
        if !opts.showExit then return (⟨db, s.now⟩, [])
        else return (⟨db, s.now⟩,
          [.exited pid ent.depth ent.cmdline exitCode (tsNs - ent.startNs)])

def handle (s : State) : Event → Exec (State × List Line)
  | .exec data tsNs => handleExec P opts proc s data tsNs
  | .exit data tsNs => handleExit opts s data tsNs

end Map

/-! ### What a handler does -/

/-- The event is an exec of the process at this timestamp, and is accepted: the process is
under a watched one, at a depth that is known by the time `now`. -/
structure Accepted (P : Port) (opts : Options) (proc : Proc) (s : State) (ev : Event)
    (pid : Int32) (tsNs : UInt64) (d : Int) (now : Nat) : Prop where
  exec : ∃ data, ev = .exec data tsNs ∧ 8 ≤ data.length ∧ pidOf data = pid
  depth : (Map.pidDepth P opts proc s pid).Returns (d, now)
  nonneg : 0 ≤ d

/-- The event is an exec of the process, and is accepted. -/
def Accepts (P : Port) (opts : Options) (proc : Proc) (s : State) (ev : Event) (pid : Int32) :
    Prop :=
  ∃ tsNs d now, Accepted P opts proc s ev pid tsNs d now

/-- The event is the exit of the process at this timestamp. -/
def ExitsAt (ev : Event) (pid : Int32) (tsNs : UInt64) : Prop :=
  ∃ data, ev = .exit data tsNs ∧ 24 ≤ data.length ∧ pidOf data = pid

/-- The event is the exit of the process. -/
def Exits (ev : Event) (pid : Int32) : Prop := ∃ tsNs, ExitsAt ev pid tsNs

/-- The entry for an exec whose depth is known by the time `now`. -/
def noted (P : Port) (proc : Proc) (pid : Int32) (tsNs : UInt64) (d : Int) (now : Nat) : Entry :=
  ⟨d, tsNs, ((readFirstArg P proc pid).run now).1⟩

/-- The time when the entry for it is made. -/
def notedAt (P : Port) (proc : Proc) (pid : Int32) (now : Nat) : Nat :=
  ((readFirstArg P proc pid).run now).2

/-- The lines for an accepted exec, at the time when the entry for it has been made. -/
def execLines (P : Port) (opts : Options) (proc : Proc) (s : State) (pid : Int32) (d : Int)
    (now : Nat) : List Line :=
  execedLines opts (s.db pid).isSome pid ((s.db pid).getD ⟨0, 0, []⟩)
    ++ (((printExec P opts proc pid d).run now).1.map Line.start).toList

/-- The line for an exit that takes out an entry. -/
def exitLines (opts : Options) (pid : Int32) (ent : Entry) (exitCode : UInt32) (tsNs : UInt64) :
    List Line :=
  if opts.showExit then [.exited pid ent.depth ent.cmdline exitCode (tsNs - ent.startNs)] else []

section Events

variable {P : Port} {opts : Options} {proc : Proc} {s s' : State} {ev : Event}
  {pid pid' : Int32} {tsNs tsNs' : UInt64} {d d' : Int} {now now' : Nat} {lines : List Line}

theorem Accepted.unique (h : Accepted P opts proc s ev pid tsNs d now)
    (h' : Accepted P opts proc s ev pid' tsNs' d' now') :
    pid' = pid ∧ tsNs' = tsNs ∧ d' = d ∧ now' = now := by
  obtain ⟨data, hev, -, hpid⟩ := h.exec
  obtain ⟨data', hev', -, hpid'⟩ := h'.exec
  obtain ⟨rfl, rfl⟩ := Event.exec.inj (hev.symm.trans hev')
  obtain rfl := hpid.symm.trans hpid'
  obtain ⟨rfl, rfl⟩ := Prod.mk.inj (h.depth.unique h'.depth)
  exact ⟨rfl, rfl, rfl, rfl⟩

theorem ExitsAt.unique (h : ExitsAt ev pid tsNs) (h' : ExitsAt ev pid' tsNs') :
    pid' = pid ∧ tsNs' = tsNs := by
  obtain ⟨data, hev, -, hpid⟩ := h
  obtain ⟨data', hev', -, hpid'⟩ := h'
  obtain ⟨rfl, rfl⟩ := Event.exit.inj (hev.symm.trans hev')
  exact ⟨hpid'.symm.trans hpid, rfl⟩

theorem ExitsAt.not_accepts (h : ExitsAt ev pid' tsNs') : ¬Accepts P opts proc s ev pid := by
  rintro ⟨tsNs, d, now, hacc⟩
  obtain ⟨data, rfl, -⟩ := h
  obtain ⟨data', heq, -⟩ := hacc.exec
  cases heq

theorem Accepted.not_exits (h : Accepted P opts proc s ev pid tsNs d now) : ¬Exits ev pid' := by
  rintro ⟨tsNs', hexits⟩
  exact hexits.not_accepts ⟨tsNs, d, now, h⟩

theorem mem_execedLines {found : Bool} {ent : Entry} {line : Line}
    (hline : line ∈ execedLines opts found pid ent) :
    found = true ∧ line = .execed pid ent.depth ent.cmdline := by
  unfold execedLines at hline
  split at hline
  · next hcond =>
      simp only [Bool.and_eq_true] at hcond
      exact ⟨hcond.1.2, List.mem_singleton.mp hline⟩
  · cases hline

theorem pid_of_mem_execLines {line : Line} (hline : line ∈ execLines P opts proc s pid d now) :
    line.pid = pid := by
  rcases List.mem_append.mp hline with hline | hline
  · obtain ⟨-, rfl⟩ := mem_execedLines hline
    rfl
  · rcases printExec_cases P opts proc pid d now with ⟨-, l, hl, hpid, -⟩ | ⟨-, hl⟩
    · rw [hl] at hline
      obtain rfl := List.mem_singleton.mp hline
      exact hpid
    · rw [hl] at hline
      cases hline

theorem mem_exitLines {ent : Entry} {exitCode : UInt32} {line : Line}
    (hline : line ∈ exitLines opts pid ent exitCode tsNs) :
    line = .exited pid ent.depth ent.cmdline exitCode (tsNs - ent.startNs) := by
  unfold exitLines at hline
  split at hline
  · exact List.mem_singleton.mp hline
  · cases hline

namespace Map

theorem handleExec_cases {data : Bytes} {tsNs : UInt64}
    (hret : (handleExec P opts proc s data tsNs).Returns (s', lines)) :
    (s'.db = s.db ∧ lines = [] ∧ ∀ pid, ¬Accepts P opts proc s (.exec data tsNs) pid)
      ∨ ∃ pid d now, Accepted P opts proc s (.exec data tsNs) pid tsNs d now
        ∧ s'.db = Function.update s.db pid (some (noted P proc pid tsNs d now))
        ∧ lines = execLines P opts proc s pid d (notedAt P proc pid now) := by
  unfold handleExec at hret
  by_cases h8 : data.length < 8
  · rw [if_pos h8] at hret
    obtain ⟨rfl, rfl⟩ := Prod.mk.inj (returns_pure.mp hret)
    refine Or.inl ⟨rfl, rfl, ?_⟩
    rintro pid ⟨tsNs', d, now, hacc⟩
    obtain ⟨data', heq, hlen, -⟩ := hacc.exec
    obtain ⟨rfl, -⟩ := Event.exec.inj heq
    omega
  rw [if_neg h8, readPid_eq (Nat.le_of_not_lt h8), pure_bind] at hret
  obtain ⟨⟨d, now⟩, hdepth, hrest⟩ := returns_bind.mp hret
  by_cases hd : d < 0
  · simp only [if_pos hd] at hrest
    obtain ⟨rfl, rfl⟩ := Prod.mk.inj (returns_pure.mp hrest)
    refine Or.inl ⟨rfl, rfl, ?_⟩
    rintro pid ⟨tsNs', d', now', hacc⟩
    obtain ⟨data', heq, -, rfl⟩ := hacc.exec
    obtain ⟨rfl, -⟩ := Event.exec.inj heq
    obtain ⟨rfl, -⟩ := Prod.mk.inj (hdepth.unique hacc.depth)
    exact absurd hd (Int.not_lt.mpr hacc.nonneg)
  · simp only [if_neg hd] at hrest
    obtain ⟨rfl, rfl⟩ := Prod.mk.inj (returns_pure.mp hrest)
    exact Or.inr ⟨pidOf data, d, now, ⟨⟨data, rfl, Nat.le_of_not_lt h8, rfl⟩, hdepth,
      Int.not_lt.mp hd⟩, rfl, rfl⟩

theorem handleExit_cases {data : Bytes} {tsNs : UInt64}
    (hret : (handleExit opts s data tsNs).Returns (s', lines)) :
    (s'.db = s.db ∧ lines = [] ∧ ∀ pid, Exits (.exit data tsNs) pid → s.db pid = none)
      ∨ ∃ pid ent exitCode, ExitsAt (.exit data tsNs) pid tsNs ∧ s.db pid = some ent
        ∧ s'.db = Function.update s.db pid none
        ∧ lines = exitLines opts pid ent exitCode tsNs := by
  unfold handleExit at hret
  by_cases h24 : data.length < 24
  · rw [if_pos h24] at hret
    obtain ⟨rfl, rfl⟩ := Prod.mk.inj (returns_pure.mp hret)
    refine Or.inl ⟨rfl, rfl, ?_⟩
    rintro pid ⟨tsNs', data', heq, hlen, -⟩
    obtain ⟨rfl, -⟩ := Event.exit.inj heq
    omega
  have hcode := readLe32_eq (d := data) (i := 8) 8 rfl (by omega)
  rw [if_neg h24, readPid_eq (by omega), hcode, pure_bind, pure_bind] at hret
  cases hent : s.db (pidOf data) with
  | none =>
      simp only [hent] at hret
      obtain ⟨rfl, rfl⟩ := Prod.mk.inj (returns_pure.mp hret)
      refine Or.inl ⟨rfl, rfl, ?_⟩
      rintro pid ⟨tsNs', data', heq, -, rfl⟩
      obtain ⟨rfl, -⟩ := Event.exit.inj heq
      exact hent
  | some ent =>
      simp only [hent] at hret
      refine Or.inr ⟨pidOf data, ent, leWord32 data 8,
        ⟨data, rfl, Nat.le_of_not_lt h24, rfl⟩, hent, ?_⟩
      unfold exitLines
      cases hexit : opts.showExit with
      | true =>
          rw [hexit] at hret
          obtain ⟨rfl, rfl⟩ := Prod.mk.inj (returns_pure.mp hret)
          exact ⟨rfl, rfl⟩
      | false =>
          rw [hexit] at hret
          obtain ⟨rfl, rfl⟩ := Prod.mk.inj (returns_pure.mp hret)
          exact ⟨rfl, rfl⟩

/-- An event is without effect, or notes an exec, or takes out an entry. -/
theorem handle_cases (hret : (handle P opts proc s ev).Returns (s', lines)) :
    (s'.db = s.db ∧ lines = [] ∧ (∀ pid, ¬Accepts P opts proc s ev pid)
        ∧ ∀ pid, Exits ev pid → s.db pid = none)
      ∨ (∃ pid tsNs d now, Accepted P opts proc s ev pid tsNs d now
        ∧ s'.db = Function.update s.db pid (some (noted P proc pid tsNs d now))
        ∧ lines = execLines P opts proc s pid d (notedAt P proc pid now))
      ∨ ∃ pid tsNs ent exitCode, ExitsAt ev pid tsNs ∧ s.db pid = some ent
        ∧ s'.db = Function.update s.db pid none
        ∧ lines = exitLines opts pid ent exitCode tsNs := by
  cases ev with
  | exec data tsNs =>
      rcases handleExec_cases hret with ⟨hdb, hlines, hnone⟩ | ⟨pid, d, now, h⟩
      · refine Or.inl ⟨hdb, hlines, hnone, ?_⟩
        rintro pid ⟨tsNs', data', heq, -⟩
        cases heq
      · exact Or.inr (Or.inl ⟨pid, tsNs, d, now, h⟩)
  | exit data tsNs =>
      rcases handleExit_cases hret with ⟨hdb, hlines, hnone⟩ | ⟨pid, ent, exitCode, h⟩
      · refine Or.inl ⟨hdb, hlines, ?_, hnone⟩
        rintro pid ⟨tsNs', d, now, hacc⟩
        obtain ⟨data', heq, -⟩ := hacc.exec
        cases heq
      · exact Or.inr (Or.inr ⟨pid, tsNs, ent, exitCode, h⟩)

/-- What an event does to one process: nothing, or it is its accepted exec, or the exit that
takes out its entry. -/
theorem process_cases (pid : Int32) (hret : (handle P opts proc s ev).Returns (s', lines)) :
    (¬Accepts P opts proc s ev pid ∧ (Exits ev pid → s.db pid = none) ∧ s'.db pid = s.db pid
        ∧ ∀ line ∈ lines, line.pid ≠ pid)
      ∨ (∃ tsNs d now, Accepted P opts proc s ev pid tsNs d now
        ∧ s'.db pid = some (noted P proc pid tsNs d now)
        ∧ lines = execLines P opts proc s pid d (notedAt P proc pid now))
      ∨ ∃ tsNs ent exitCode, ExitsAt ev pid tsNs ∧ s.db pid = some ent ∧ s'.db pid = none
        ∧ lines = exitLines opts pid ent exitCode tsNs := by
  rcases handle_cases hret with ⟨hdb, hlines, hnone, hempty⟩ | ⟨pid₀, tsNs, d, now, hacc, hdb, hlines⟩
    | ⟨pid₀, tsNs, ent, exitCode, hexit, hent, hdb, hlines⟩
  · refine Or.inl ⟨hnone pid, hempty pid, congrFun hdb pid, ?_⟩
    rw [hlines]
    exact List.forall_mem_nil _
  · by_cases hpid : pid = pid₀
    · subst hpid
      refine Or.inr (Or.inl ⟨tsNs, d, now, hacc, ?_, hlines⟩)
      rw [hdb, Function.update_self]
    · refine Or.inl ⟨?_, ?_, ?_, ?_⟩
      · rintro ⟨tsNs', d', now', hacc'⟩
        exact hpid (hacc.unique hacc').1
      · intro hexits
        exact absurd hexits hacc.not_exits
      · rw [hdb, Function.update_of_ne hpid]
      · rw [hlines]
        intro line hline
        rw [pid_of_mem_execLines hline]
        exact Ne.symm hpid
  · by_cases hpid : pid = pid₀
    · subst hpid
      refine Or.inr (Or.inr ⟨tsNs, ent, exitCode, hexit, hent, ?_, hlines⟩)
      rw [hdb, Function.update_self]
    · refine Or.inl ⟨hexit.not_accepts, ?_, ?_, ?_⟩
      · rintro ⟨tsNs', hexits⟩
        exact absurd (hexit.unique hexits).1 hpid
      · rw [hdb, Function.update_of_ne hpid]
      · rw [hlines]
        intro line hline
        rw [mem_exitLines hline]
        exact Ne.symm hpid

end Map

end Events

/-! ## The C code -/

namespace C

/-- The table and the time. -/
structure State where
  table : PidDb
  now : Nat

/-- An entry of the table, its name as it is printed. -/
def PidEntry.toEntry (e : PidEntry) : Entry := ⟨e.depth, e.startNs, e.cmdline.getD []⟩

variable (opts : Options) (proc : Proc)

def pidDepth (s : State) (pid : Int32) : Exec (Int × Nat) :=
  Exectrace.pidDepth port opts proc
    (fun ppid => (piddbFind s.table ppid).map fun ent => (s.table.slots ent).val.depth) pid s.now

/-- To use an entry that `piddb_get` did not return is a fault. -/
def handleExec (s : State) (data : Bytes) (tsNs : UInt64) : Exec (State × List Line) :=
  if data.length < 8 then return (s, [])
  else do
    let pid ← readPid data
    let (d, now) ← pidDepth opts proc s pid
    if d < 0 then return (⟨s.table, now⟩, [])
    else
      match piddbGet s.table pid with
      | none => fault
      | some (table, ent, created) =>
          let old := (table.slots ent).val
          let execed := execedLines opts (!created) pid old.toEntry
          let (cmdline, now) := (readFirstArg port proc pid).run now
          let table := table.set ent { table.slots ent with val := ⟨d, tsNs, some cmdline⟩ }
            table.len
          let (line, now) := (printExec port opts proc pid d).run now
          return (⟨table, now⟩, execed ++ (line.map Line.start).toList)

def handleExit (s : State) (data : Bytes) (tsNs : UInt64) : Exec (State × List Line) :=
  if data.length < 24 then return (s, [])
  else do
    let pid ← readPid data
    let exitCode ← readLe32 data 8
    match piddbFind s.table pid with
    | none => return (s, [])
    | some ent =>
        let saved := (s.table.slots ent).val
        let table ← piddbDelete s.table pid
        if !opts.showExit then return (⟨table, s.now⟩, [])
        else return (⟨table, s.now⟩,
          [.exited pid saved.depth (saved.cmdline.getD []) exitCode (tsNs - saved.startNs)])

def handle (s : State) : Event → Exec (State × List Line)
  | .exec data tsNs => handleExec opts proc s data tsNs
  | .exit data tsNs => handleExit opts s data tsNs

end C

/-! ## Runs -/

/-- An event with the lines printed for it and the entries before and after. -/
structure Step where
  before : State
  event : Event
  lines : List Line
  after : State

/-- Handle events one after another. -/
def runWith {σ : Type} (handle : σ → Event → Exec (σ × List Line)) (view : σ → State) (s : σ) :
    List Event → Exec (σ × List Step)
  | [] => return (s, [])
  | ev :: evs => do
      let (s', lines) ← handle s ev
      let (s'', steps) ← runWith handle view s' evs
      return (s'', ⟨view s, ev, lines, view s'⟩ :: steps)

section Runs

variable {σ : Type} {handle : σ → Event → Exec (σ × List Line)} {view : σ → State} {s s' : σ}
  {steps : List Step}

theorem runWith_cons_iff {ev : Event} {evs : List Event} :
    (runWith handle view s (ev :: evs)).Returns (s', steps) ↔
      ∃ s₁ lines rest, (handle s ev).Returns (s₁, lines)
        ∧ (runWith handle view s₁ evs).Returns (s', rest)
        ∧ steps = ⟨view s, ev, lines, view s₁⟩ :: rest := by
  rw [runWith, returns_bind]
  constructor
  · rintro ⟨⟨s₁, lines⟩, hev, hrest⟩
    obtain ⟨⟨s₂, rest⟩, hevs, hlast⟩ := returns_bind.mp hrest
    obtain ⟨rfl, rfl⟩ := Prod.mk.inj (returns_pure.mp hlast)
    exact ⟨s₁, lines, rest, hev, hevs, rfl⟩
  · rintro ⟨s₁, lines, rest, hev, hevs, rfl⟩
    exact ⟨_, hev, hevs.bind_iff.mpr (returns_pure.mpr rfl)⟩

theorem runWith_append (s : σ) (evs evs' : List Event) :
    runWith handle view s (evs ++ evs') = do
      let (s', steps) ← runWith handle view s evs
      let (s'', steps') ← runWith handle view s' evs'
      return (s'', steps ++ steps') := by
  induction evs generalizing s with
  | nil => simp [runWith]
  | cons ev evs ih => simp [runWith, ih]

theorem runWith_snoc {evs : List Event} {ev : Event} {s'' : σ} {lines : List Line}
    (hrun : (runWith handle view s evs).Returns (s', steps))
    (hev : (handle s' ev).Returns (s'', lines)) :
    (runWith handle view s (evs ++ [ev])).Returns
      (s'', steps ++ [⟨view s', ev, lines, view s''⟩]) := by
  have hlast : (runWith handle view s' [ev]).Returns (s'', [⟨view s', ev, lines, view s''⟩]) :=
    runWith_cons_iff.mpr ⟨s'', lines, [], hev, returns_pure.mpr rfl, rfl⟩
  rw [runWith_append, hrun.bind_iff, hlast.bind_iff]
  exact returns_pure.mpr rfl

/-- A run faults at an event that its handler faults on. -/
theorem runWith_faults_iff {evs : List Event} : (runWith handle view s evs).Faults ↔
    ∃ pre ev post, evs = pre ++ ev :: post
      ∧ ∃ s' steps, (runWith handle view s pre).Returns (s', steps) ∧ (handle s' ev).Faults := by
  induction evs generalizing s with
  | nil => 
      refine iff_of_false not_faults_pure ?_
      rintro ⟨pre, ev, post, heq, -⟩
      exact List.append_ne_nil_of_right_ne_nil pre (List.cons_ne_nil ev post) heq.symm
  | cons ev evs ih =>
      rw [runWith, faults_bind]
      constructor
      · rintro (hfault | ⟨⟨s₁, lines⟩, hret, hrest⟩)
        · exact ⟨[], ev, evs, rfl, s, [], returns_pure.mpr rfl, hfault⟩
        · rcases faults_bind.mp hrest with hfault | ⟨_, -, hfault⟩
          · obtain ⟨pre, ev', post, rfl, s', steps, hpre, hfault⟩ := ih.mp hfault
            exact ⟨ev :: pre, ev', post, rfl, s', _,
              runWith_cons_iff.mpr ⟨s₁, lines, steps, hret, hpre, rfl⟩, hfault⟩
          · exact absurd hfault not_faults_pure
      · rintro ⟨pre, ev', post, heq, s', steps, hpre, hfault⟩
        cases pre with
        | nil =>
            obtain ⟨rfl, rfl⟩ := List.cons.inj heq
            obtain ⟨rfl, -⟩ := Prod.mk.inj (returns_pure.mp hpre)
            exact Or.inl hfault
        | cons ev₁ pre =>
            obtain ⟨rfl, rfl⟩ := List.cons.inj heq
            obtain ⟨s₁, lines, rest, hev, hevs, -⟩ := runWith_cons_iff.mp hpre
            have hfaults := ih.mpr ⟨pre, ev', post, rfl, s', rest, hevs, hfault⟩
            exact Or.inr ⟨_, hev, hfaults.bind _⟩

end Runs

/-- The tracer that keeps its entries in a map. -/
def Map.run (P : Port) (opts : Options) (proc : Proc) : List Event → Exec (State × List Step) :=
  runWith (Map.handle P opts proc) id ⟨fun _ => none, 0⟩

namespace Go

def handleExec := Map.handleExec port
def handleExit := Map.handleExit

def run (opts : Options) (proc : Proc) : List Event → Exec (Exectrace.State × List Step) :=
  Map.run port opts proc

end Go

namespace C

/-- The entries that the table holds. -/
def State.view (s : State) : Exectrace.State :=
  ⟨fun pid => ((piddbFind s.table pid).map fun ent => (s.table.slots ent).val).map
    PidEntry.toEntry, s.now⟩

def run (opts : Options) (proc : Proc) : List Event → Exec (State × List Step) :=
  runWith (handle opts proc) State.view ⟨pidDB, 0⟩

end C

end Tracep.Exectrace
