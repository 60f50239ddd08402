import Tracep.Exectrace.Proc
import Tracep.Lib.CBuffer
import Tracep.Lib.Fields
import Mathlib.Data.List.Basic

/-!
# Command lines

The kernel writes a command line with a NUL after each argument. Both ports
take all NULs off its end before they split it at the others, so empty
arguments at the end are lost with the NUL of the last one
(`readCmdline_iff`).

They agree on what is left (`splitNul_eq`), but where nothing is left Go has
one empty argument and C has none, and then shows the name of the process
instead (`sameCommand_iff`).
-/

namespace Tracep.Exectrace

variable {s t : Bytes} {a b : UInt8} {args : List Bytes} {cmdline comm : Option Bytes}

/-! ## Trimming and splitting -/

theorem trimRight_snoc (b : UInt8) (s : Bytes) : trimRight b (s ++ [b]) = trimRight b s := by
  rw [trimRight, List.reverse_append, List.reverse_singleton, List.singleton_append,
    List.dropWhile_cons_of_pos (by simp)]
  rfl

theorem trimRight_of_ne (h : a ≠ b) : trimRight b (s ++ [a]) = s ++ [a] := by
  rw [trimRight, List.reverse_append, List.reverse_singleton, List.singleton_append,
    List.dropWhile_cons_of_neg (by simpa using h), List.reverse_cons, List.reverse_reverse]

theorem trimRight_begins (b : UInt8) (s : Bytes) : trimRight b s <+: s := by
  rw [trimRight, ← List.reverse_suffix, List.reverse_reverse]
  exact List.dropWhile_suffix _

theorem trimRight_eq_nil_iff : trimRight b s = [] ↔ ∀ a ∈ s, a = b := by
  rw [trimRight, List.reverse_eq_nil_iff, List.dropWhile_eq_nil_iff]
  simp

theorem mem_trimRight (h : a ≠ b) : a ∈ trimRight b s ↔ a ∈ s := by
  induction s using List.reverseRecOn with
  | nil => rfl
  | append_singleton s c ih =>
      by_cases hc : c = b
      · rw [hc, trimRight_snoc, ih, List.mem_append, List.mem_singleton, or_iff_left h]
      · rw [trimRight_of_ne hc]

theorem modifyHead_self (l : List Bytes) : l.modifyHead (fun x => x) = l := by
  cases l <;> rfl

/-- The loop of the C port splits as `bytes.Split` does. -/
theorem splitNul_eq (s : Bytes) : C.splitNul [] s = s.splitOn 0 := by
  have hacc : ∀ arg, C.splitNul arg s = (s.splitOn 0).modifyHead (arg ++ ·) := by
    induction s with
    | nil => simp [C.splitNul]
    | cons b s ih =>
        intro arg
        rw [C.splitNul, List.splitOn_cons_eq_if_modifyHead]
        by_cases hb : b = 0
        · rw [if_pos hb, if_pos (beq_iff_eq.mpr hb), ih]
          simp [modifyHead_self]
        · rw [if_neg hb, if_neg (by simpa using hb), ih, List.modifyHead_modifyHead]
          simp [Function.comp_def]
  rw [hacc []]
  exact modifyHead_self _

theorem length_splitOn (b : UInt8) (s : Bytes) : (s.splitOn b).length = s.count b + 1 := by
  induction s with
  | nil => simp
  | cons a s ih =>
      rw [List.splitOn_cons_eq_if_modifyHead, List.count_cons]
      split <;> simp [ih]

/-! ## What the kernel writes -/

/-- A command line as the kernel has it. -/
def cmdlineOf (args : List Bytes) : Bytes := args.flatMap (· ++ [0])

theorem cmdlineOf_snoc (args : List Bytes) (last : Bytes) :
    cmdlineOf (args ++ [last]) = cmdlineOf args ++ last ++ [0] := by
  rw [cmdlineOf, List.flatMap_append, List.flatMap_singleton, List.append_assoc]
  rfl

theorem splitOn_cmdlineOf (hargs : ∀ arg ∈ args, (0 : UInt8) ∉ arg) (hs : 0 ∉ s) :
    (cmdlineOf args ++ s).splitOn 0 = args ++ [s] := Fields.splitOn_terminated hargs hs

theorem count_cmdlineOf (hargs : ∀ arg ∈ args, (0 : UInt8) ∉ arg) :
    (cmdlineOf args).count 0 = args.length := by
  induction args with
  | nil => rfl
  | cons arg args ih =>
      obtain ⟨harg, hargs⟩ := List.forall_mem_cons.mp hargs
      rw [cmdlineOf, List.flatMap_cons, List.count_append, List.count_append,
        List.count_eq_zero_of_not_mem harg, ← cmdlineOf, ih hargs, List.length_cons]
      simp [Nat.add_comm]

/-! ## What comes back -/

theorem cReadCmdline_eq (data : Bytes) : C.readCmdline (some data)
    = if trimRight 0 data = [] then [] else (trimRight 0 data).splitOn 0 := by
  rw [← splitNul_eq, C.readCmdline]
  simp only [List.length_eq_zero_iff]

theorem goReadCmdline_eq (data : Bytes) : Go.readCmdline (some data)
    = if data = [] then [] else (trimRight 0 data).splitOn 0 := by
  rw [Go.readCmdline]
  simp only [List.length_eq_zero_iff]

theorem trimRight_cmdlineOf {init : List Bytes} {last : Bytes} (hlast : 0 ∉ last)
    (hne : last ≠ []) : trimRight 0 (cmdlineOf (init ++ [last])) = cmdlineOf init ++ last := by
  obtain ⟨l, c, rfl⟩ := (List.eq_nil_or_concat' last).resolve_left hne
  have hc : c ≠ 0 := fun heq => hlast (heq ▸ List.mem_append_right l (List.mem_singleton.mpr rfl))
  rw [cmdlineOf_snoc, trimRight_snoc, ← List.append_assoc, trimRight_of_ne hc]

/-- An empty argument at the end is lost, and the one before it if that is empty too. -/
theorem length_splitOn_trimRight {init : List Bytes} {arg : Bytes}
    (hinit : ∀ arg ∈ init, (0 : UInt8) ∉ arg) (harg : 0 ∉ arg) :
    ((trimRight 0 (cmdlineOf (init ++ [arg] ++ [[]]))).splitOn 0).length ≤ init.length + 1 := by
  rw [cmdlineOf_snoc, List.append_nil, trimRight_snoc, cmdlineOf_snoc, trimRight_snoc,
    length_splitOn]
  have hcount := (trimRight_begins 0 (cmdlineOf init ++ arg)).sublist.count_le 0
  rw [List.count_append, count_cmdlineOf hinit, List.count_eq_zero_of_not_mem harg] at hcount
  exact Nat.add_le_add_right hcount 1

/-- Arguments are lost when the last one is empty and there are others. -/
theorem splitOn_trimRight_iff (hargs : ∀ arg ∈ args, (0 : UInt8) ∉ arg) (hne : args ≠ []) :
    (trimRight 0 (cmdlineOf args)).splitOn 0 = args
      ↔ args.getLast? ≠ some [] ∨ args = [[]] := by
  obtain ⟨init, last, rfl⟩ := (List.eq_nil_or_concat' args).resolve_left hne
  obtain ⟨hinit, hlast⟩ := List.forall_mem_append.mp hargs
  have hnul : 0 ∉ last := hlast last (List.mem_singleton.mpr rfl)
  rw [List.getLast?_concat]
  by_cases hempty : last = []
  · subst hempty
    rcases List.eq_nil_or_concat' init with rfl | ⟨init, arg, rfl⟩
    · exact ⟨fun _ => Or.inr rfl, fun _ => rfl⟩
    · obtain ⟨hinit, harg⟩ := List.forall_mem_append.mp hinit
      refine iff_of_false (fun heq => ?_) ?_
      · have hshort := length_splitOn_trimRight hinit (harg arg (List.mem_singleton.mpr rfl))
        rw [heq] at hshort
        simp at hshort
      · rintro (h | h)
        · exact h rfl
        · have hlen := congrArg List.length h
          simp at hlen
  · rw [trimRight_cmdlineOf hnul hempty, splitOn_cmdlineOf hinit hnul]
    exact iff_of_true rfl (Or.inl fun h => hempty (Option.some.inj h))

theorem trimRight_cmdlineOf_eq_nil (hargs : ∀ arg ∈ args, (0 : UInt8) ∉ arg) :
    trimRight 0 (cmdlineOf args) = [] ↔ ∀ arg ∈ args, arg = [] := by
  rw [trimRight_eq_nil_iff]
  constructor
  · intro hall arg harg
    refine List.eq_nil_iff_forall_not_mem.mpr fun b hb => hargs arg harg ?_
    have hmem : b ∈ cmdlineOf args :=
      List.mem_flatMap.mpr ⟨arg, harg, List.mem_append_left _ hb⟩
    rwa [← hall b hmem]
  · intro hempty b hb
    obtain ⟨arg, harg, hb⟩ := List.mem_flatMap.mp hb
    rw [hempty arg harg] at hb
    exact List.mem_singleton.mp hb

/-- Both ports return the arguments that the kernel wrote exactly when the last one is not empty,
but that Go returns a single empty one as well. -/
theorem readCmdline_iff (hargs : ∀ arg ∈ args, (0 : UInt8) ∉ arg) (hne : args ≠ []) :
    (Go.readCmdline (some (cmdlineOf args)) = args ↔ args.getLast? ≠ some [] ∨ args = [[]])
      ∧ (C.readCmdline (some (cmdlineOf args)) = args ↔ args.getLast? ≠ some []) := by
  have hdata : cmdlineOf args ≠ [] := by
    obtain ⟨init, last, rfl⟩ := (List.eq_nil_or_concat' args).resolve_left hne
    rw [cmdlineOf_snoc]
    exact List.concat_ne_nil _ _
  constructor
  · rw [goReadCmdline_eq, if_neg hdata]
    exact splitOn_trimRight_iff hargs hne
  · rw [cReadCmdline_eq]
    by_cases htrim : trimRight 0 (cmdlineOf args) = []
    · have hempty := (trimRight_cmdlineOf_eq_nil hargs).mp htrim
      rw [if_pos htrim]
      refine iff_of_false (fun h => hne h.symm) (not_not_intro ?_)
      rw [List.getLast?_eq_some_getLast hne, hempty _ (List.getLast_mem hne)]
    · rw [if_neg htrim, splitOn_trimRight_iff hargs hne]
      refine or_iff_left fun h => htrim ?_
      rw [h]
      rfl

theorem readCmdline_ls :
    (Go.readCmdline (some (cmdlineOf [[108, 115], [], [97]])) = [[108, 115], [], [97]]
        ↔ ([[108, 115], [], [97]] : List Bytes).getLast? ≠ some []
          ∨ [[108, 115], [], [97]] = [([] : Bytes)])
      ∧ (C.readCmdline (some (cmdlineOf [[108, 115], [], [97]])) = [[108, 115], [], [97]]
        ↔ ([[108, 115], [], [97]] : List Bytes).getLast? ≠ some []) := by
  have hargs : ∀ arg ∈ ([[108, 115], [], [97]] : List Bytes), (0 : UInt8) ∉ arg := by decide
  exact readCmdline_iff hargs (List.cons_ne_nil _ _)

/-- A command with an empty argument, `a ""`. -/
theorem readCmdline_loses : ¬(Go.readCmdline (some (cmdlineOf [[97], []])) = [[97], []]
    ∧ C.readCmdline (some (cmdlineOf [[97], []])) = [[97], []]) := by
  decide

/-! ## Both ports -/

/-- The contents of a `cmdline` file that has nothing but NULs. -/
def AllNul (cmdline : Option Bytes) : Prop := ∃ data, cmdline = some data ∧ data ≠ [] ∧ ∀ b ∈ data, b = 0

/-- The command line is unreadable or empty. -/
def NoCmdline (cmdline : Option Bytes) : Prop := cmdline = none ∨ cmdline = some []

/-- The name of a process in brackets; the C port writes it to `br[300]`. -/
def bracketed (name : Bytes) : Bytes := [91] ++ name ++ [93]

/-- The command part of a line, with the text that a name is shown as. -/
def partOf (shown : Bytes → Bytes) : Command → Command
  | .comm name => .comm (shown name)
  | .argv cmd args => .argv cmd args

/-- The command part of the line that `printExec` prints when it is called at time `now`. -/
def commandPart (P : Port) (shown : Bytes → Bytes) (opts : Options) (proc : Proc) (pid : Int32)
    (depth : Int) (now : Nat) : Option Command :=
  ((printExec P opts proc pid depth).run now).1.map fun line => partOf shown line.command

def Go.commandPart (opts : Options) (proc : Proc) (pid : Int32) (depth : Int) (now : Nat) :
    Option Command := Exectrace.commandPart Go.port bracketed opts proc pid depth now

def C.commandPart (opts : Options) (proc : Proc) (pid : Int32) (depth : Int) (now : Nat) :
    Option Command :=
  Exectrace.commandPart C.port (fun name => fitted 300 (bracketed name)) opts proc pid depth now

/-- Reads of the two files give these contents at all times. -/
structure Steady (proc : Proc) (pid : Int32) (cmdline comm : Option Bytes) : Prop where
  cmdline : ∀ t, proc.cmdline t pid = cmdline
  comm : ∀ t, proc.comm t pid = comm

/-- A first argument that is a name or a path to one. -/
def Named (argv : List Bytes) : Prop :=
  ∀ a0 ∈ argv.head?, a0 ≠ [] ∧ a0.getLast? ≠ some slash

/-- With these contents of the files, the ports make the same of the command. -/
structure SameCommand (cmdline comm : Option Bytes) : Prop where
  argv : C.readCmdline cmdline = Go.readCmdline cmdline
  part : ∀ {proc pid}, Steady proc pid cmdline comm → ∀ opts depth now,
    C.commandPart opts proc pid depth now = Go.commandPart opts proc pid depth now
  first : ∀ {proc pid}, Steady proc pid cmdline comm → Named (Go.readCmdline cmdline) → ∀ now,
    ((readFirstArg C.port proc pid).run now).1 = ((readFirstArg Go.port proc pid).run now).1

theorem argv_eq_iff : C.readCmdline cmdline = Go.readCmdline cmdline ↔ ¬AllNul cmdline := by
  cases cmdline with
  | none => exact iff_of_true rfl (by rintro ⟨data, h, -⟩; cases h)
  | some data =>
      have hnul : AllNul (some data) ↔ data ≠ [] ∧ trimRight 0 data = [] := by
        rw [trimRight_eq_nil_iff]
        exact ⟨fun ⟨_, h, hne, hall⟩ => Option.some.inj h ▸ ⟨hne, hall⟩,
          fun h => ⟨data, rfl, h⟩⟩
      rw [cReadCmdline_eq, goReadCmdline_eq, hnul]
      by_cases hdata : data = []
      · subst hdata
        exact iff_of_true rfl fun h => h.1 rfl
      by_cases htrim : trimRight 0 data = []
      · rw [if_pos htrim, if_neg hdata]
        exact iff_of_false (fun h => List.splitOn_ne_nil _ _ h.symm) (not_not_intro ⟨hdata, htrim⟩)
      · rw [if_neg htrim, if_neg hdata]
        exact iff_of_true rfl fun h => htrim h.2

theorem goReadCmdline_eq_nil_iff : Go.readCmdline cmdline = [] ↔ NoCmdline cmdline := by
  unfold NoCmdline
  cases cmdline with
  | none => exact iff_of_true rfl (Or.inl rfl)
  | some data =>
      rw [goReadCmdline_eq]
      by_cases hdata : data = []
      · exact iff_of_true (if_pos hdata) (Or.inr (congrArg some hdata))
      · rw [if_neg hdata]
        refine iff_of_false (List.splitOn_ne_nil _ _) ?_
        rintro (h | h) <;> cases h
        exact hdata rfl

section Steady

variable {proc : Proc} {pid : Int32} (hsteady : Steady proc pid cmdline comm)
include hsteady

theorem commandPart_comm {P : Port} (hargv : P.readCmdline cmdline = []) (shown : Bytes → Bytes)
    (opts : Options) (depth : Int) (now : Nat) : commandPart P shown opts proc pid depth now
      = if P.readComm comm = [] then none else some (.comm (shown (P.readComm comm))) := by
  unfold commandPart printExec
  simp only [StateT.run_bind, askIf_run, ask_run, pure_bind, hsteady.cmdline, hargv,
    hsteady.comm]
  by_cases hcomm : P.readComm comm = []
  · simp only [if_pos hcomm]
    rfl
  · simp only [if_neg hcomm, StateT.run_bind, askIf_run, pure_bind]
    rfl

/-- Where there are arguments, the command part depends on the port by nothing but them. -/
theorem commandPart_argv {P Q : Port} {a0 : Bytes} (hP : P.readCmdline cmdline = a0 :: args)
    (hQ : Q.readCmdline cmdline = a0 :: args) (shown shown' : Bytes → Bytes) (opts : Options)
    (depth : Int) (now : Nat) : commandPart P shown opts proc pid depth now
      = commandPart Q shown' opts proc pid depth now := by
  unfold commandPart printExec
  simp only [StateT.run_bind, askIf_run, ask_run, pure_bind, hsteady.cmdline, hP, hQ]
  rfl

theorem readFirstArg_run (P : Port) (now : Nat) : ((readFirstArg P proc pid).run now).1
    = (P.readCmdline cmdline).head?.elim (P.readComm comm) P.base := by
  unfold readFirstArg
  simp only [StateT.run_bind, ask_run, pure_bind, hsteady.cmdline]
  cases P.readCmdline cmdline with
  | nil =>
      simp only [StateT.run_bind, ask_run, pure_bind, hsteady.comm]
      rfl
  | cons a0 args => rfl

end Steady

/-! ## Names -/

theorem base_eq {a0 : Bytes} (hne : a0 ≠ []) (hslash : a0.getLast? ≠ some slash) :
    C.base a0 = Go.base a0 := by
  obtain ⟨init, c, rfl⟩ := (List.eq_nil_or_concat' a0).resolve_left hne
  have hc : c ≠ slash := fun heq => hslash (by rw [List.getLast?_concat, heq])
  have hlast : ((init ++ [c]).reverse.takeWhile (· ≠ slash)).reverse ≠ [] := by
    rw [List.reverse_append, List.reverse_singleton, List.singleton_append,
      List.takeWhile_cons_of_pos (by simpa using hc), List.reverse_cons]
    exact List.concat_ne_nil _ _
  rw [C.base, Go.base, if_neg hne, trimRight_of_ne hc]
  simp only [if_neg hlast]

/-- A name is shown in full in the buffer of the C port. -/
theorem fitted_bracketed_iff {name : Bytes} :
    fitted 300 (bracketed (cstr name)) = bracketed name ↔ 0 ∉ name ∧ name.length ≤ 297 := by
  constructor
  · intro heq
    have hlen := congrArg List.length heq
    have hbegins : cstr name <+: name := List.takeWhile_prefix _
    have hle := hbegins.length_le
    simp only [fitted, bracketed, List.length_take, List.length_append,
      List.length_singleton] at hlen
    have hsame : cstr name = name := hbegins.eq_of_length (by omega)
    refine ⟨fun hmem => ?_, by omega⟩
    have hnul := List.mem_takeWhile_imp (hsame.symm ▸ hmem)
    simp at hnul
  · rintro ⟨hnul, hlen⟩
    rw [cstr_of_noNul hnul, fitted, List.take_of_length_le]
    simp only [bracketed, List.length_append, List.length_singleton]
    omega

theorem shown_trimmed_iff {n : Bytes} : (if cstr n = [] then none
        else some (Command.comm (fitted 300 (bracketed (cstr n)))))
      = (if n = [] then none else some (.comm (bracketed n))) ↔ 0 ∉ n ∧ n.length ≤ 297 := by
  rw [← fitted_bracketed_iff]
  by_cases hn : n = []
  · subst hn
    exact iff_of_true rfl rfl
  by_cases hcut : cstr n = []
  · rw [if_pos hcut, if_neg hn, hcut]
    refine iff_of_false nofun fun heq => hn ?_
    have hlen := congrArg List.length heq
    simpa [fitted, bracketed] using hlen
  · rw [if_neg hcut, if_neg hn, Option.some.injEq, Command.comm.injEq]

/-- What the two ports show of the name, if there are no arguments. -/
theorem shown_eq_iff : (if C.readComm comm = [] then none
        else some (Command.comm (fitted 300 (bracketed (C.readComm comm)))))
      = (if Go.readComm comm = [] then none else some (.comm (bracketed (Go.readComm comm))))
    ↔ ∀ name, comm = some name → 0 ∉ name ∧ (trimRight 10 name).length ≤ 297 := by
  cases comm with
  | none => exact iff_of_true rfl nofun
  | some name =>
      have hnul : 0 ∈ trimRight 10 name ↔ 0 ∈ name := mem_trimRight (by decide)
      simp only [Option.some.injEq, forall_eq', ← hnul, C.readComm, Go.readComm]
      exact shown_trimmed_iff

theorem readComm_eq (h : ∀ name, comm = some name → 0 ∉ name) :
    C.readComm comm = Go.readComm comm := by
  cases comm with
  | none => rfl
  | some name =>
      exact cstr_of_noNul fun hmem => h name rfl ((mem_trimRight (by decide)).mp hmem)

/-- The contents of the two files, at all times. -/
def Proc.steady (cmdline comm : Option Bytes) : Proc :=
  ⟨fun _ _ => 0, fun _ _ => cmdline, fun _ _ => comm, fun _ _ => none, fun _ _ => [],
    fun _ _ => [], fun _ _ => []⟩

def Options.none : Options := ⟨[], false, false, false, false, false, false⟩

/-- The ports make the same of a command exactly when its command line is not all NULs, and where
it has none, its name has no NUL and fits. -/
theorem sameCommand_iff (cmdline comm : Option Bytes) : SameCommand cmdline comm
    ↔ ¬AllNul cmdline ∧ (NoCmdline cmdline →
      ∀ name, comm = some name → 0 ∉ name ∧ (trimRight 10 name).length ≤ 297) := by
  rw [← goReadCmdline_eq_nil_iff, ← shown_eq_iff]
  constructor
  · intro same
    refine ⟨argv_eq_iff.mp same.argv, fun hgo => ?_⟩
    have hsteady : Steady (Proc.steady cmdline comm) 1 cmdline comm := ⟨fun _ => rfl, fun _ => rfl⟩
    have hpart := same.part hsteady Options.none 0 0
    rwa [C.commandPart, Go.commandPart,
      commandPart_comm hsteady (P := C.port) (same.argv.trans hgo),
      commandPart_comm hsteady (P := Go.port) hgo] at hpart
  · rintro ⟨hall, hcomm⟩
    have hargv := argv_eq_iff.mpr hall
    refine ⟨hargv, fun {proc pid} hsteady opts depth now => ?_, fun {proc pid} hsteady hnamed now => ?_⟩
    · unfold C.commandPart Go.commandPart
      cases hgo : Go.readCmdline cmdline with
      | nil =>
          rw [commandPart_comm hsteady (P := C.port) (hargv.trans hgo),
            commandPart_comm hsteady (P := Go.port) hgo]
          exact hcomm hgo
      | cons a0 args => exact commandPart_argv hsteady (hargv.trans hgo) hgo _ _ opts depth now
    · rw [readFirstArg_run hsteady, readFirstArg_run hsteady]
      change (C.readCmdline cmdline).head?.elim (C.readComm comm) C.base
        = (Go.readCmdline cmdline).head?.elim (Go.readComm comm) Go.base
      rw [hargv]
      cases hgo : Go.readCmdline cmdline with
      | nil => exact readComm_eq fun name hname => (shown_eq_iff.mp (hcomm hgo) name hname).1
      | cons a0 args =>
          obtain ⟨hne, hslash⟩ := hnamed a0 (by rw [hgo]; rfl)
          exact base_eq hne hslash

/-- A command line that is one NUL. -/
theorem one_nul_differs : ¬SameCommand (some [0]) none := by
  intro same
  exact absurd same.argv (by decide)

end Tracep.Exectrace
