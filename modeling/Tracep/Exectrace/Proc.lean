import Tracep.Lib.Exec
import Tracep.Lib.Bytes

/-!
# What the exec tracer reads of a process

Everything the Linux exec tracer knows of a process it reads from `/proc`,
where each read is answered on its own: the process may have changed its
command, or be gone, by the next one. The answers are functions of time
here, and a read moves the time on (`Reading`).

The ports read alike but for how they take the contents of a file apart
(`Port`). `pidDepth` follows the parents up to a watched PID or to one whose
depth is known, and calls itself for as long as there are parents.
`printExec` reads the command once more for its line, and prints none when
there is nothing left to read (`printExec_cases`).
-/

namespace Tracep.Exectrace

open Exec

/-! ## Answers -/

/-- The answers of `/proc` about a PID, by the time of the read: the parent that `statPPID`
makes out, the contents of a file that can be read, or the text shown for it. -/
structure Proc where
  ppid : Nat → Int32 → Int32
  cmdline : Nat → Int32 → Option Bytes
  comm : Nat → Int32 → Option Bytes
  environ : Nat → Int32 → Option Bytes
  exe : Nat → Int32 → Bytes
  cwd : Nat → Int32 → Bytes
  user : Nat → Int32 → Bytes

structure Options where
  watchPIDs : List Int32
  showCwd : Bool
  showEnv : Bool
  fullPath : Bool
  showArgs : Bool
  showExit : Bool
  showUser : Bool

/-- A computation that reads at the time it has come to. -/
abbrev Reading := StateM Nat

def ask {α : Type} (answers : Nat → Int32 → α) (pid : Int32) : Reading α :=
  fun now => (answers now pid, now + 1)

/-! ## The contents of files -/

/-- `strings.TrimRight`, by one byte. -/
def trimRight (b : UInt8) (s : Bytes) : Bytes := (s.reverse.dropWhile (· = b)).reverse

/-- What the ports do each in their own way: the arguments in a file, the name in a `comm`
file, the last element of a path, and the next `int`. -/
structure Port where
  readCmdline : Option Bytes → List Bytes
  readComm : Option Bytes → Bytes
  base : Bytes → Bytes
  succ : Int → Int

def slash : UInt8 := 0x2f

namespace Go

/-- `readCmdline` and `readEnviron`. -/
def readCmdline (data : Option Bytes) : List Bytes :=
  match data with
  | none => []
  | some data => if data.length = 0 then [] else (trimRight 0 data).splitOn 0

def readComm (data : Option Bytes) : Bytes :=
  match data with
  | none => []
  | some data => trimRight 10 data

/-- `filepath.Base`. -/
def base (path : Bytes) : Bytes :=
  if path = [] then [0x2e]
  else
    let last := ((trimRight slash path).reverse.takeWhile (· ≠ slash)).reverse
    if last = [] then [slash] else last

def port : Port := ⟨readCmdline, readComm, base, fun d => (BitVec.ofInt 64 (d + 1)).toInt⟩

end Go

namespace C

/-- The loop of `readCmdline` over the rest of the data, with the argument begun. -/
def splitNul (arg : Bytes) : Bytes → List Bytes
  | [] => [arg]
  | b :: rest => if b = 0 then arg :: splitNul [] rest else splitNul (arg ++ [b]) rest

/-- `readCmdline` and `readEnviron`. -/
def readCmdline (data : Option Bytes) : List Bytes :=
  match data with
  | none => []
  | some data =>
      let data := trimRight 0 data
      if data.length = 0 then [] else splitNul [] data

/-- The name is a C string. -/
def readComm (data : Option Bytes) : Bytes :=
  match data with
  | none => []
  | some data => cstr (trimRight 10 data)

/-- The end of `readFirstArg`. -/
def base (a0 : Bytes) : Bytes :=
  let last := (a0.reverse.takeWhile (· ≠ slash)).reverse
  if last = [] then if a0 ≠ [] then [slash] else [0x2e] else last

def port : Port := ⟨readCmdline, readComm, base, fun d => int32 (d + 1)⟩

end C

/-- The name that is kept of a process. -/
def readFirstArg (P : Port) (proc : Proc) (pid : Int32) : Reading Bytes := do
  match P.readCmdline (← ask proc.cmdline pid) with
  | [] => return P.readComm (← ask proc.comm pid)
  | a0 :: _ => return P.base a0

/-! ## Depth -/

def isWatchRoot (opts : Options) (pid : Int32) : Bool := opts.watchPIDs.contains pid

/-- `pidDepth` up to the call of itself: what it returns, or the parent that it asks about. -/
def pidDepthStep (P : Port) (opts : Options) (proc : Proc) (cached : Int32 → Option Int)
    (pid : Int32) : Reading (Int ⊕ Int32) := do
  if isWatchRoot opts pid then return .inl 0
  else
    let ppid ← ask proc.ppid pid
    if ppid < 0 then return .inl (-1)
    else if ppid = 0 then return .inl (-1)
    else if isWatchRoot opts ppid then return .inl 0
    else
      match cached ppid with
      | some depth => return .inl (P.succ depth)
      | none => return .inr ppid

/-- `pidDepth` with room for so many calls. -/
def pidDepthRun (P : Port) (opts : Options) (proc : Proc) (cached : Int32 → Option Int) :
    Nat → Int32 → Nat → Outcome (Int × Nat)
  | 0, _, _ => .hang
  | calls + 1, pid, now =>
      match (pidDepthStep P opts proc cached pid).run now with
      | (.inl d, now) => .ok (d, now)
      | (.inr ppid, now) => (pidDepthRun P opts proc cached calls ppid now).bind fun (d, now) =>
          .ok (if d < 0 then -1 else P.succ d, now)

theorem pidDepthRun_mono (P : Port) (opts : Options) (proc : Proc) (cached : Int32 → Option Int) :
    ∀ {n m : Nat} {pid : Int32} {now : Nat}, n ≤ m →
      pidDepthRun P opts proc cached n pid now ≠ .hang →
        pidDepthRun P opts proc cached m pid now = pidDepthRun P opts proc cached n pid now
  | 0, _, _, _, _, hne => absurd rfl hne
  | n + 1, m, pid, now, hnm, hne => by
      obtain ⟨m, rfl⟩ := Nat.exists_eq_add_one.mpr (Nat.zero_lt_of_lt hnm)
      simp only [pidDepthRun] at hne ⊢
      cases hstep : (pidDepthStep P opts proc cached pid).run now with
      | mk r now' =>
          cases r with
          | inl d => rfl
          | inr ppid =>
              rw [hstep] at hne
              have hcall : pidDepthRun P opts proc cached n ppid now' ≠ .hang := by
                rcases Outcome.bind_ne_hang.mp hne with h | ⟨a, h, -⟩
                · rw [h]
                  exact nofun
                · rw [h]
                  exact nofun
              simp only [pidDepthRun_mono P opts proc cached (Nat.le_of_succ_le_succ hnm) hcall]

/-- The depth of a process under the nearest watched one, `-1` if there is none, and the time
when that is known. -/
def pidDepth (P : Port) (opts : Options) (proc : Proc) (cached : Int32 → Option Int)
    (pid : Int32) (now : Nat) : Exec (Int × Nat) :=
  ⟨fun calls => pidDepthRun P opts proc cached calls pid now, pidDepthRun_mono P opts proc cached⟩

theorem not_faults_pidDepth {P : Port} {opts : Options} {proc : Proc}
    {cached : Int32 → Option Int} {pid : Int32} {now : Nat} :
    ¬(pidDepth P opts proc cached pid now).Faults := by
  rintro ⟨n, hn⟩
  change pidDepthRun P opts proc cached n pid now = .fault at hn
  induction n generalizing pid now with
  | zero => cases hn
  | succ n ih =>
      unfold pidDepthRun at hn
      split at hn
      · cases hn
      · rcases Outcome.bind_eq_fault.mp hn with h | ⟨a, -, h⟩
        · exact ih h
        · cases h

/-! ## The line of an exec -/

/-- What stands for the command. -/
inductive Command where
  | comm (name : Bytes)
  | argv (cmd : Bytes) (args : List Bytes)
deriving Repr, DecidableEq

/-- The line that `printExec` prints. -/
structure StartLine where
  pid : Int32
  depth : Int
  plus : Bool
  user : Option Bytes
  cwd : Option Bytes
  command : Command
  env : Option (List Bytes)
deriving Repr, DecidableEq

/-- Read if the option is set. -/
def askIf {α : Type} (opt : Bool) (answers : Nat → Int32 → α) (pid : Int32) :
    Reading (Option α) :=
  if opt then some <$> ask answers pid else pure none

theorem ask_run {α : Type} (answers : Nat → Int32 → α) (pid : Int32) (now : Nat) :
    (ask answers pid).run now = pure (answers now pid, now + 1) := rfl

theorem askIf_run {α : Type} (opt : Bool) (answers : Nat → Int32 → α) (pid : Int32) (now : Nat) :
    (askIf opt answers pid).run now
      = pure (if opt then some (answers now pid) else none, now + opt.toNat) := by
  cases opt <;> rfl

def printExec (P : Port) (opts : Options) (proc : Proc) (pid : Int32) (depth : Int) :
    Reading (Option StartLine) := do
  let user ← askIf opts.showUser proc.user pid
  let cwd ← askIf opts.showCwd proc.cwd pid
  let finish (command : Command) : Reading (Option StartLine) := do
    let env ← askIf opts.showEnv proc.environ pid
    return some ⟨pid, depth, opts.showExit, user, cwd, command, env.map P.readCmdline⟩
  match P.readCmdline (← ask proc.cmdline pid) with
  | [] =>
      let comm := P.readComm (← ask proc.comm pid)
      if comm = [] then return none
      else finish (.comm comm)
  | a0 :: args =>
      let exe := (← askIf opts.fullPath proc.exe pid).getD []
      let cmd := if exe ≠ [] then exe else a0
      finish (.argv cmd (if opts.showArgs then args else []))

/-- When `printExec` is called at time `now`, the command line it reads has an argument, or
the name it reads then is not empty. -/
def Visible (P : Port) (opts : Options) (proc : Proc) (pid : Int32) (now : Nat) : Prop :=
  let t := now + opts.showUser.toNat + opts.showCwd.toNat
  P.readCmdline (proc.cmdline t pid) ≠ [] ∨ P.readComm (proc.comm (t + 1) pid) ≠ []

/-- A line about the process is printed exactly when its command is visible. -/
theorem printExec_cases (P : Port) (opts : Options) (proc : Proc) (pid : Int32) (depth : Int)
    (now : Nat) :
    (Visible P opts proc pid now ∧ ∃ l, ((printExec P opts proc pid depth).run now).1 = some l
        ∧ l.pid = pid ∧ l.plus = opts.showExit)
      ∨ ¬Visible P opts proc pid now ∧ ((printExec P opts proc pid depth).run now).1 = none := by
  unfold printExec Visible
  simp only [StateT.run_bind, askIf_run, ask_run, pure_bind]
  cases hargv : P.readCmdline (proc.cmdline (now + opts.showUser.toNat + opts.showCwd.toNat) pid) with
  | cons a0 args =>
      refine Or.inl ⟨Or.inl (List.cons_ne_nil _ _), ?_⟩
      simp only [StateT.run_bind, askIf_run, pure_bind]
      exact ⟨_, rfl, rfl, rfl⟩
  | nil =>
      simp only [StateT.run_bind, ask_run, pure_bind]
      by_cases hcomm : P.readComm
          (proc.comm (now + opts.showUser.toNat + opts.showCwd.toNat + 1) pid) = []
      · refine Or.inr ⟨fun h => h.elim (· rfl) (· hcomm), ?_⟩
        rw [if_pos hcomm]
        rfl
      · refine Or.inl ⟨Or.inr hcomm, ?_⟩
        simp only [if_neg hcomm, StateT.run_bind, askIf_run, pure_bind]
        exact ⟨_, rfl, rfl, rfl⟩

end Tracep.Exectrace
