import Tracep.Lib.CBuffer
import Tracep.Lib.Hex
import Tracep.Lib.Programs

/-!
# Uprobes

The tracer has the kernel watch functions of `libssl`, by commands that it
writes to files of tracefs, and has to take its probes away again when it
ends. A tracer that is killed leaves them, and several tracers, of both
kinds, may use probes of the same names at a time.

What tracefs does is a parameter (`Tracefs`). Whatever is there at first and
however the tracers take turns, no probe of a name is left when all have
ended that were not killed before one of them that looks for this probe had
begun (`uprobes_removed`). Other probes are as they were. The C tracer
does the same as the Go tracer for the libraries whose path leaves room for
its commands, and no others (`session_eq_iff`).
-/

namespace Tracep.Tlstrace.Uprobes

open Program

/-! ## The code -/

def tracingBase : Bytes := str "/sys/kernel/debug/tracing"

def uprobeEvents : Bytes := tracingBase ++ str "/uprobe_events"

def tracePipe : Bytes := tracingBase ++ str "/trace_pipe"

def traceOn : Bytes := tracingBase ++ str "/tracing_on"

def currentTracer : Bytes := tracingBase ++ str "/current_tracer"

/-- What a tracer does with files: overwrite one, append to one, open one to read. -/
inductive FileOp where
  | write (path text : Bytes)
  | append (path text : Bytes)
  | openRead (path : Bytes)
deriving DecidableEq

structure ProbeTarget where
  symbol : Bytes
  isRet : Bool
  dir : Bytes
  extraArgs : Bytes
  filter : Bytes

def probeTargets : List ProbeTarget := [
  ⟨str "SSL_read", false, str "read", [], []⟩,
  ⟨str "SSL_read", true, str "read", [], []⟩,
  ⟨str "SSL_write", false, str "write", [], []⟩,
  ⟨str "SSL_read_ex", false, str "read", [], []⟩,
  ⟨str "SSL_write_ex", false, str "write", [], []⟩,
  ⟨str "SSL_get_servername", true, str "sni", str "+0($retval):string", []⟩,
  ⟨str "SSL_ctrl", false, str "sni", str "cmd=%si:u64 sni=+0(%cx):string", str "cmd==55"⟩]

/-- How a run of the tracer ends: without tracing, without a probe, without the pipe, by a signal,
or at the end of the pipe. -/
inductive Outcome where
  | noTracing
  | noProbes
  | noPipe
  | signalled
  | pipeEnded
deriving DecidableEq

/-- What comes: a signal before or after the pipe is opened, or the end of the pipe. -/
inductive Ending where
  | signalEarly
  | signal
  | pipeEnd

/-- The library, where its symbols are, and what comes. -/
structure Session where
  libPath : Bytes
  symbolOffset : Bytes → Option UInt64
  ending : Ending

/-- The loop over the targets: the names of the probes that are registered. -/
def registerTargets (symbolOffset : Bytes → Option UInt64) (probeName : ProbeTarget → Bytes)
    (registerOne : ProbeTarget → UInt64 → Program FileOp Bool) (seen registered : List Bytes) :
    List ProbeTarget → Program FileOp (List Bytes)
  | [] => pure registered
  | t :: ts =>
      match symbolOffset t.symbol with
      | none => registerTargets symbolOffset probeName registerOne seen registered ts
      | some offset =>
          let name := probeName t
          if seen.contains name then
            registerTargets symbolOffset probeName registerOne seen registered ts
          else do
            let ok ← registerOne t offset
            let registered := if ok then registered ++ [name] else registered
            registerTargets symbolOffset probeName registerOne (name :: seen) registered ts

namespace Go

def probeName (t : ProbeTarget) : Bytes :=
  str "tls_" ++ t.dir ++ str "_" ++ t.symbol ++ if t.isRet then str "_ret" else []

def enablePath (name : Bytes) : Bytes :=
  tracingBase ++ str "/events/uprobes/" ++ name ++ str "/enable"

def filterPath (name : Bytes) : Bytes :=
  tracingBase ++ str "/events/uprobes/" ++ name ++ str "/filter"

def appendToFile (path content : Bytes) : Program FileOp Bool :=
  perform (.append path (content ++ [10]))

/-- The command that defines a probe. -/
def probeLine (libPath : Bytes) (t : ProbeTarget) (offset : UInt64) : Bytes :=
  let line := (if t.isRet then str "r" else str "p") ++ str ":" ++ probeName t ++ str " " ++ libPath
    ++ str ":0x" ++ lowerPad 1 offset.toNat
  if t.extraArgs ≠ [] then line ++ str " " ++ t.extraArgs else line

/-- One turn of `registerUprobes`, for a symbol that is found. -/
def registerOne (libPath : Bytes) (t : ProbeTarget) (offset : UInt64) : Program FileOp Bool := do
  let name := probeName t
  -- what an earlier run has left, disabled first
  let _ ← perform (.write (enablePath name) (str "0"))
  let _ ← appendToFile uprobeEvents (str "-:uprobes/" ++ name)
  let ok ← appendToFile uprobeEvents (probeLine libPath t offset)
  if !ok then return false
  let _ ← perform (.write (enablePath name) (str "1"))
  if t.filter ≠ [] then
    let _ ← perform (.write (filterPath name) t.filter)
  return true

def registerUprobes (x : Session) : Program FileOp (List Bytes) :=
  registerTargets x.symbolOffset probeName (registerOne x.libPath) [] [] probeTargets

def cleanupUprobes : List Bytes → Program FileOp Unit
  | [] => pure ()
  | name :: names => do
      let _ ← perform (.write (enablePath name) (str "0"))
      let _ ← appendToFile uprobeEvents (str "-:uprobes/" ++ name)
      cleanupUprobes names

end Go

namespace C

def probeName (t : ProbeTarget) : Bytes :=
  let name := fitted 128 (str "tls_" ++ t.dir ++ str "_" ++ t.symbol)
  if t.isRet then fitted 128 (name ++ str "_ret") else name

def enablePath (name : Bytes) : Bytes :=
  fitted 256 (tracingBase ++ str "/events/uprobes/" ++ name ++ str "/enable")

def filterPath (name : Bytes) : Bytes :=
  fitted 256 (tracingBase ++ str "/events/uprobes/" ++ name ++ str "/filter")

/-- The command to remove a probe, in its buffer `rm`. -/
def removeLine (name : Bytes) : Bytes := fitted 160 (str "-:uprobes/" ++ name)

def appendToFile (path content : Bytes) : Program FileOp Bool :=
  if 1024 ≤ content.length + 1 then pure false
  else perform (.append path (content ++ [10]))

/-- The command that defines a probe, in its buffer `line`. -/
def probeLine (libPath : Bytes) (t : ProbeTarget) (offset : UInt64) : Bytes :=
  let line := fitted 512 ((if t.isRet then str "r" else str "p") ++ str ":" ++ probeName t ++ str " "
    ++ libPath ++ str ":0x" ++ lowerPad 1 offset.toNat)
  if t.extraArgs ≠ [] then fitted 512 (fitted 512 (line ++ str " ") ++ t.extraArgs) else line

/-- One turn of `register_uprobes`, for a symbol that is found. -/
def registerOne (libPath : Bytes) (t : ProbeTarget) (offset : UInt64) : Program FileOp Bool := do
  let name := probeName t
  let _ ← perform (.write (enablePath name) (str "0"))
  let _ ← appendToFile uprobeEvents (removeLine name)
  let ok ← appendToFile uprobeEvents (probeLine libPath t offset)
  if !ok then return false
  let _ ← perform (.write (enablePath name) (str "1"))
  if t.filter ≠ [] then
    let _ ← perform (.write (filterPath name) t.filter)
  return true

def registerUprobes (x : Session) : Program FileOp (List Bytes) :=
  registerTargets x.symbolOffset probeName (registerOne x.libPath) [] [] probeTargets

def cleanupUprobes : List Bytes → Program FileOp Unit
  | [] => pure ()
  | name :: names => do
      let _ ← perform (.write (enablePath name) (str "0"))
      let _ ← appendToFile uprobeEvents (removeLine name)
      cleanupUprobes names

end C

/-- `Main` from where it turns tracing on, with the functions of one of the tracers. -/
def trace (registerUprobes : Session → Program FileOp (List Bytes))
    (cleanupUprobes : List Bytes → Program FileOp Unit) (x : Session) :
    Program FileOp Outcome := do
  if !(← perform (.write traceOn (str "1"))) then return .noTracing
  let _ ← perform (.write currentTracer (str "nop"))
  let registered ← registerUprobes x
  if registered = [] then return .noProbes
  match x.ending with
  | .signalEarly =>
      cleanupUprobes registered
      return .signalled
  | .signal | .pipeEnd =>
      if !(← perform (.openRead tracePipe)) then
        cleanupUprobes registered
        return .noPipe
      match x.ending with
      | .pipeEnd => return .pipeEnded
      | _ =>
          cleanupUprobes registered
          return .signalled

/-- `Main` of the Go tracer, from where it turns tracing on. -/
def Go.session : Session → Program FileOp Outcome := trace Go.registerUprobes Go.cleanupUprobes

/-- `tls_main`, from where it turns tracing on. -/
def C.session : Session → Program FileOp Outcome := trace C.registerUprobes C.cleanupUprobes

inductive Tracer where
  | go
  | c

def Tracer.session : Tracer → Session → Program FileOp Outcome
  | .go => Go.session
  | .c => C.session

/-! ## What tracefs does -/

def isNameByte (b : UInt8) : Bool :=
  (48 ≤ b && b ≤ 57) || (65 ≤ b && b ≤ 90) || (97 ≤ b && b ≤ 122) || b = 95

/-- A name that a probe may have. -/
structure IsName (name : Bytes) : Prop where
  ne_nil : name ≠ []
  plain : ∀ b ∈ name, isNameByte b = true

def disableOp (name : Bytes) : FileOp := .write (Go.enablePath name) (str "0")

def enableOp (name : Bytes) : FileOp := .write (Go.enablePath name) (str "1")

def filterOp (name text : Bytes) : FileOp := .write (Go.filterPath name) text

def removeOp (name : Bytes) : FileOp := .append uprobeEvents (str "-:uprobes/" ++ name ++ [10])

/-- A command that defines a probe, in a line of its own. -/
def Defines (name : Bytes) (o : FileOp) : Prop :=
  ∃ (isRet : Bool) (rest : Bytes), 10 ∉ rest ∧ o = .append uprobeEvents
    ((if isRet then str "r" else str "p") ++ str ":" ++ name ++ str " " ++ rest ++ [10])

/-- What a tracer does that is not about this probe. -/
inductive Spares (name : Bytes) : FileOp → Prop
  | disable {m : Bytes} : IsName m → m ≠ name → Spares name (disableOp m)
  | enable {m : Bytes} : IsName m → m ≠ name → Spares name (enableOp m)
  | remove {m : Bytes} : IsName m → m ≠ name → Spares name (removeOp m)
  | define {m : Bytes} {o : FileOp} : IsName m → m ≠ name → Defines m o → Spares name o
  | filter {m : Bytes} (text : Bytes) : IsName m → Spares name (filterOp m text)
  | tracing : Spares name (.write traceOn (str "1"))
  | tracer : Spares name (.write currentTracer (str "nop"))
  | openRead (path : Bytes) : Spares name (.openRead path)

/-- The control files of the kernel: a probe that is there is enabled or not, and one that is
enabled cannot be removed. -/
structure Tracefs (σ : Type) where
  perform : σ → FileOp → σ × Bool
  probe : σ → Bytes → Option Bool
  disable : ∀ s name, IsName name →
    probe (perform s (disableOp name)).1 name = (probe s name).map fun _ => false
  enable : ∀ s name, IsName name →
    (probe (perform s (enableOp name)).1 name).isSome = (probe s name).isSome
  remove : ∀ s name, IsName name →
    probe (perform s (removeOp name)).1 name = (probe s name).filter id
  define : ∀ s name o, IsName name → Defines name o → (perform s o).2 = false →
    probe (perform s o).1 name = probe s name
  spares : ∀ s name o, IsName name → Spares name o →
    probe (perform s o).1 name = probe s name

/-! ### A tracefs -/

namespace Plain

/-- The name in the path of a file of a probe. -/
def nameIn (path : Bytes) : Bytes :=
  let rest := path.drop (tracingBase ++ str "/events/uprobes/").length
  rest.take (rest.length - 7)

/-- Probes by name, each enabled or not. -/
abbrev Probes := Bytes → Option Bool

def write (s : Probes) (path text : Bytes) : Probes × Bool :=
  let name := nameIn path
  if path = Go.enablePath name then
    (Function.update s name ((s name).map fun _ => decide (text = str "1")), (s name).isSome)
  else (s, true)

def command (s : Probes) (text : Bytes) : Probes × Bool :=
  if text.take 10 = str "-:uprobes/" then
    let name := (text.drop 10).dropLast
    if s name = some false then (Function.update s name none, true) else (s, false)
  else
    let name := (text.drop 2).takeWhile (· ≠ 32)
    if (s name).isSome then (s, false) else (Function.update s name (some false), true)

def perform (s : Probes) : FileOp → Probes × Bool
  | .write path text => write s path text
  | .append _ text => command s text
  | .openRead _ => (s, true)

variable {s : Probes} {m name text : Bytes} {o : FileOp}

theorem nameIn_path (suffix : Bytes) (hsuffix : suffix.length = 7) :
    nameIn (tracingBase ++ str "/events/uprobes/" ++ name ++ suffix) = name := by
  unfold nameIn
  rw [List.append_assoc (tracingBase ++ str "/events/uprobes/"), List.drop_left]
  simp [hsuffix]

theorem write_enable : write s (Go.enablePath m) text
    = (Function.update s m ((s m).map fun _ => decide (text = str "1")), (s m).isSome) := by
  have hname : nameIn (Go.enablePath m) = m := nameIn_path _ rfl
  unfold write
  simp only [hname, if_true]

theorem write_filter : write s (Go.filterPath m) text = (s, true) := by
  have hname : nameIn (Go.filterPath m) = m := nameIn_path _ rfl
  have hne : Go.filterPath m ≠ Go.enablePath m := by
    intro h
    exact absurd (List.append_cancel_left h) (by decide)
  unfold write
  simp only [hname, hne, if_false]

theorem write_short {path : Bytes} (h : path.length < 48) : write s path text = (s, true) := by
  have hlength : ∀ m : Bytes, 48 ≤ (Go.enablePath m).length := by
    intro m
    unfold Go.enablePath
    simp only [List.length_append, show tracingBase.length = 25 from rfl,
      show (str "/events/uprobes/").length = 16 from rfl, show (str "/enable").length = 7 from rfl]
    omega
  have hne : path ≠ Go.enablePath (nameIn path) := by
    intro heq
    have := hlength (nameIn path)
    rw [← heq] at this
    omega
  unfold write
  simp only [hne, if_false]

theorem command_remove : command s (str "-:uprobes/" ++ m ++ [10])
    = if s m = some false then (Function.update s m none, true) else (s, false) := by
  have htake : (str "-:uprobes/" ++ m ++ [10]).take 10 = str "-:uprobes/" := by
    rw [List.append_assoc]
    exact List.take_left' rfl
  have hdrop : ((str "-:uprobes/" ++ m ++ [10]).drop 10).dropLast = m := by
    have hleft : (str "-:uprobes/" ++ (m ++ [10])).drop 10 = m ++ [10] := List.drop_left' rfl
    rw [List.append_assoc, hleft, List.dropLast_concat]
  unfold command
  simp only [htake, hdrop, if_true]

theorem not_blank_of_isNameByte {b : UInt8} (hb : isNameByte b = true) : (b ≠ 32) = True := by
  refine eq_true ?_
  rintro rfl
  cases hb

theorem command_define (hm : IsName m) (h : Defines m o) : perform s o
    = if (s m).isSome then (s, false) else (Function.update s m (some false), true) := by
  obtain ⟨isRet, rest, -, rfl⟩ := h
  have hname : (m ++ 32 :: (rest ++ [10])).takeWhile (· ≠ 32) = m := by
    rw [List.takeWhile_append_of_pos fun b hb => by simp [not_blank_of_isNameByte (hm.plain b hb)]]
    simp
  have hhead : ∀ b : UInt8, b ≠ 45 → ∀ text, (b :: text).take 10 ≠ str "-:uprobes/" := by
    intro b hb text heq
    exact hb (List.head_eq_of_cons_eq heq)
  have hcommand : ∀ b : UInt8, b ≠ 45 → command s (b :: 58 :: (m ++ 32 :: (rest ++ [10])))
      = if (s m).isSome then (s, false) else (Function.update s m (some false), true) := by
    intro b hb
    unfold command
    rw [if_neg (hhead b hb _)]
    simp only [List.drop_succ_cons, List.drop_zero, hname]
  have htext : ∀ head : Bytes, head ++ str ":" ++ m ++ str " " ++ rest ++ [10]
      = head ++ 58 :: (m ++ 32 :: (rest ++ [10])) := by
    intro head
    simp only [List.append_assoc]
    rfl
  rw [htext]
  cases isRet
  · exact hcommand 112 (by decide)
  · exact hcommand 114 (by decide)

theorem spares (h : Spares name o) : (perform s o).1 name = s name := by
  have hupdate : ∀ m, m ≠ name → ∀ v, Function.update s m v name = s name :=
    fun m hm v => Function.update_of_ne (Ne.symm hm) v s
  cases h with
  | disable hm hne | enable hm hne =>
      exact (congrFun (congrArg Prod.fst write_enable) name).trans (hupdate _ hne _)
  | @remove m hm hne =>
      refine (congrFun (congrArg Prod.fst command_remove) name).trans ?_
      split
      · exact hupdate _ hne _
      · rfl
  | define hm hne hdef =>
      rw [command_define hm hdef]
      split
      · rfl
      · exact hupdate _ hne _
  | filter text hm => exact congrFun (congrArg Prod.fst write_filter) name
  | tracing =>
      have hwrite := @write_short s (str "1") traceOn (by decide)
      exact congrFun (congrArg Prod.fst hwrite) name
  | tracer =>
      have hwrite := @write_short s (str "nop") currentTracer (by decide)
      exact congrFun (congrArg Prod.fst hwrite) name
  | openRead => rfl

end Plain

/-- A tracefs that holds nothing but probes. -/
def plainTracefs : Tracefs Plain.Probes where
  perform := Plain.perform
  probe s name := s name
  disable s name _ := by
    refine (congrFun (congrArg Prod.fst Plain.write_enable) name).trans ?_
    exact Function.update_self _ _ _
  enable s name _ := by
    rw [show (Plain.perform s (enableOp name)).1 name = _ from
      congrFun (congrArg Prod.fst Plain.write_enable) name]
    simp
  remove s name _ := by
    rw [show (Plain.perform s (removeOp name)).1 name = _ from
      congrFun (congrArg Prod.fst Plain.command_remove) name]
    cases hs : s name with
    | none => simp [hs]
    | some b => cases b <;> simp [hs, Option.filter]
  define s name o hname hdef hfail := by
    rw [Plain.command_define hname hdef] at hfail ⊢
    split at hfail
    next h => rw [if_pos h]
    next => cases hfail
  spares _ _ _ _ h := Plain.spares h

/-! ## What is owed for a probe -/

/-- What a tracer still has to do about a probe: nothing, all it does from the start, to disable
and remove it, or to remove it. -/
inductive Duty where
  | clean
  | due
  | both
  | remove
deriving DecidableEq

def Duty.disabled : Duty → Duty
  | .due | .both => .remove
  | d => d

def Duty.removed : Duty → Duty
  | .remove => .clean
  | d => d

/-- How the duty about a probe moves. -/
inductive DutyMoves (name : Bytes) : Moves FileOp Duty
  | disable (d : Duty) : DutyMoves name d (disableOp name) fun _ => d.disabled
  | remove (d : Duty) : DutyMoves name d (removeOp name) fun _ => d.removed
  | define {o : FileOp} : Defines name o →
      DutyMoves name .clean o fun ok => if ok then .both else .clean
  | enable : DutyMoves name .both (enableOp name) fun _ => .both
  | spares (d : Duty) {o : FileOp} : Spares name o → DutyMoves name d o fun _ => d

/-- Somebody owes what it takes to remove the probe that is there; only one tracer may be about
to do all it does. -/
structure Owed {σ ι : Type} (fs : Tracefs σ) (name : Bytes) (first : ι) (s : σ) (ds : ι → Duty) :
    Prop where
  due : ∀ i, ds i = .due → i = first
  enabled : fs.probe s name = some true → ∃ i, ds i = .due ∨ ds i = .both
  there : (fs.probe s name).isSome → ∃ i, ds i ≠ .clean

section Invariant

variable {σ ι : Type} {fs : Tracefs σ} {name : Bytes} {first i : ι} {s : σ} {ds : ι → Duty}
  {o : FileOp} {d' : Bool → Duty}

theorem Owed.same (howed : Owed fs name first s ds) {s' : σ}
    (hprobe : fs.probe s' name = fs.probe s name) : Owed fs name first s' ds where
  due := howed.due
  enabled h := howed.enabled (hprobe ▸ h)
  there h := howed.there (hprobe ▸ h)

variable [DecidableEq ι]

theorem Duty.disabled_ne_due (d : Duty) : d.disabled ≠ .due := by
  cases d <;> simp [Duty.disabled]

theorem Duty.disabled_eq_clean (d : Duty) : d.disabled = .clean ↔ d = .clean := by
  cases d <;> simp [Duty.disabled]

theorem Owed.disable (howed : Owed fs name first s ds) (hname : IsName name) :
    Owed fs name first (fs.perform s (disableOp name)).1
      (Function.update ds i (ds i).disabled) where
  due j hj := by
    by_cases hji : j = i
    · subst hji
      rw [Function.update_self] at hj
      exact absurd hj (Duty.disabled_ne_due _)
    · rw [Function.update_of_ne hji] at hj
      exact howed.due j hj
  enabled h := by
    rw [fs.disable s name hname] at h
    simp at h
  there h := by
    rw [fs.disable s name hname, Option.isSome_map] at h
    obtain ⟨j, hj⟩ := howed.there h
    refine ⟨j, ?_⟩
    by_cases hji : j = i
    · subst hji
      rwa [Function.update_self, ne_eq, Duty.disabled_eq_clean]
    · rwa [Function.update_of_ne hji]

/-- A probe that stays when it is removed is enabled, so somebody else is to disable it. -/
theorem Owed.remove (howed : Owed fs name first s ds) (hname : IsName name) :
    Owed fs name first (fs.perform s (removeOp name)).1
      (Function.update ds i (ds i).removed) := by
  have hstays : (fs.probe (fs.perform s (removeOp name)).1 name).isSome →
      ∃ j, Function.update ds i (ds i).removed j = .due
        ∨ Function.update ds i (ds i).removed j = .both := by
    intro h
    rw [fs.remove s name hname] at h
    have henabled : fs.probe s name = some true := by
      cases hp : fs.probe s name with
      | none => simp [hp] at h
      | some b => cases b <;> simp [hp] at h ⊢
    obtain ⟨j, hj⟩ := howed.enabled henabled
    refine ⟨j, ?_⟩
    by_cases hji : j = i
    · subst hji
      rw [Function.update_self]
      rcases hj with hj | hj <;> simp [hj, Duty.removed]
    · rwa [Function.update_of_ne hji]
  refine ⟨?_, fun h => hstays (by simp [h]), ?_⟩
  · intro j hj
    by_cases hji : j = i
    · subst hji
      rw [Function.update_self] at hj
      refine howed.due j ?_
      cases hd : ds j <;> simp [hd, Duty.removed] at hj ⊢
    · rw [Function.update_of_ne hji] at hj
      exact howed.due j hj
  · intro h
    obtain ⟨j, hj⟩ := hstays h
    exact ⟨j, by rcases hj with hj | hj <;> simp [hj]⟩

/-- A tracer that owes both may do with the probe what it likes. -/
theorem Owed.both (howed : Owed fs name first s ds) (s' : σ) :
    Owed fs name first s' (Function.update ds i .both) where
  due j hj := by
    by_cases hji : j = i
    · subst hji
      simp at hj
    · rw [Function.update_of_ne hji] at hj
      exact howed.due j hj
  enabled _ := ⟨i, by simp⟩
  there _ := ⟨i, by simp⟩

theorem Owed.move (howed : Owed fs name first s ds) (hname : IsName name)
    (hmove : DutyMoves name (ds i) o d') :
    Owed fs name first (fs.perform s o).1 (Function.update ds i (d' (fs.perform s o).2)) := by
  generalize hd : ds i = d at hmove
  cases hmove with
  | disable => exact hd ▸ howed.disable hname
  | remove => exact hd ▸ howed.remove hname
  | define hdef =>
      cases hok : (fs.perform s o).2 with
      | true => exact howed.both _
      | false =>
          have hsame := howed.same (fs.define s name o hname hdef hok)
          simpa [← hd] using hsame
  | enable => exact howed.both _
  | spares _ hspares =>
      have hsame := howed.same (fs.spares s name o hname hspares)
      simpa [← hd] using hsame

end Invariant

/-! ## What the tracers do -/

/-- Registering with this command line. -/
def registerLine (line : Bytes) (t : ProbeTarget) : Program FileOp Bool := do
  let _ ← perform (disableOp (Go.probeName t))
  let _ ← perform (removeOp (Go.probeName t))
  let ok ← perform (.append uprobeEvents (line ++ [10]))
  if !ok then return false
  let _ ← perform (enableOp (Go.probeName t))
  if t.filter ≠ [] then
    let _ ← perform (filterOp (Go.probeName t) t.filter)
  return true

/-- A program that registers a probe, by a command that defines it. -/
def RegistersOne (registerOne : ProbeTarget → UInt64 → Program FileOp Bool) : Prop :=
  ∀ t ∈ probeTargets, ∀ offset, ∃ line,
    Defines (Go.probeName t) (.append uprobeEvents (line ++ [10]))
      ∧ registerOne t offset = registerLine line t

/-- A program that removes the probes that it is given. -/
def CleansUp (cleanupUprobes : List Bytes → Program FileOp Unit) : Prop :=
  ∀ names, (∀ m ∈ names, m ∈ probeTargets.map Go.probeName) →
    cleanupUprobes names = Go.cleanupUprobes names

section Tracers

variable {name m libPath : Bytes} {d : Duty} {t : ProbeTarget} {offset : UInt64}
  {names seen registered : List Bytes} {ts : List ProbeTarget}

theorem isName_of_all (hne : name ≠ []) (h : name.all isNameByte = true) : IsName name :=
  ⟨hne, List.all_eq_true.mp h⟩

theorem isName_probeName (ht : t ∈ probeTargets) : IsName (Go.probeName t) := by
  have hall : ∀ t ∈ probeTargets, Go.probeName t ≠ [] ∧ (Go.probeName t).all isNameByte = true := by
    decide
  exact isName_of_all (hall t ht).1 (hall t ht).2

theorem isName_of_mem (hm : m ∈ probeTargets.map Go.probeName) : IsName m := by
  obtain ⟨t, ht, rfl⟩ := List.mem_map.mp hm
  exact isName_probeName ht

theorem newline_not_mem_offset (offset : UInt64) : 10 ∉ lowerPad 1 offset.toNat := by
  intro hmem
  unfold lowerPad hexPad at hmem
  obtain ⟨b, hb, hlower⟩ := List.mem_map.mp hmem
  obtain ⟨k, hk, rfl⟩ := exists_of_mem_hexDigits hb
  have hvalue := hexValue_lowerHex hk
  rw [hlower] at hvalue
  cases hvalue

theorem Duty.removed_disabled (hd : d ≠ .remove) : d.disabled.removed = .clean := by
  cases d <;> simp [Duty.disabled, Duty.removed] at hd ⊢

/-- Moves that leave the duty as it is by what is not about this probe. -/
def SparingMoves {θ : Type} (name : Bytes) (moves : Moves FileOp θ) : Prop :=
  ∀ d o, Spares name o → moves d o fun _ => d

theorem keeps_registerLine_other {θ : Type} {moves : Moves FileOp θ} {d : θ} {line : Bytes}
    (ht : t ∈ probeTargets) (hmoves : SparingMoves name moves) (hne : Go.probeName t ≠ name)
    (hdef : Defines (Go.probeName t) (.append uprobeEvents (line ++ [10]))) :
    Keeps moves (fun d' _ => d' = d) (registerLine line t) d := by
  have hname := isName_probeName ht
  unfold registerLine
  refine keeps_perform_bind (hmoves d _ (.disable hname hne)) fun _ => ?_
  refine keeps_perform_bind (hmoves d _ (.remove hname hne)) fun _ => ?_
  refine keeps_perform_bind (hmoves d _ (.define hname hne hdef)) fun ok => ?_
  cases ok with
  | false => exact rfl
  | true =>
      refine keeps_perform_bind (hmoves d _ (.enable hname hne)) fun _ => ?_
      split
      · exact keeps_perform_bind (hmoves d _ (.filter _ hname)) fun _ => rfl
      · exact rfl

/-- It clears away what has been left, and is then to take away what it defines. -/
theorem keeps_registerLine {line : Bytes} (ht : t ∈ probeTargets) (hd : d ≠ .remove)
    (hdef : Defines (Go.probeName t) (.append uprobeEvents (line ++ [10]))) :
    Keeps (DutyMoves name)
      (fun d' ok => if Go.probeName t = name then d' = if ok then .both else .clean else d' = d)
      (registerLine line t) d := by
  have hname := isName_probeName ht
  unfold registerLine
  by_cases heq : Go.probeName t = name
  · subst heq
    simp only [if_true]
    refine keeps_perform_bind (.disable d) fun _ => keeps_perform_bind (.remove _) fun _ => ?_
    rw [Duty.removed_disabled hd]
    refine keeps_perform_bind (.define hdef) fun ok => ?_
    cases ok with
    | false => exact rfl
    | true =>
        refine keeps_perform_bind .enable fun _ => ?_
        split
        · exact keeps_perform_bind (.spares _ (.filter _ hname)) fun _ => rfl
        · exact rfl
  · simp only [heq, if_false]
    exact keeps_registerLine_other ht (fun d _ h => .spares d h) heq hdef

/-! ### The Go tracer -/

theorem Go.newline_not_mem_extraArgs (ht : t ∈ probeTargets) : 10 ∉ t.extraArgs := by
  have hall : ∀ t ∈ probeTargets, (t.extraArgs.all fun b => b ≠ 10) = true := by decide
  intro hmem
  simpa using List.all_eq_true.mp (hall t ht) 10 hmem

theorem Go.defines_probeLine (ht : t ∈ probeTargets) (hlib : 10 ∉ libPath) :
    Defines (Go.probeName t)
      (.append uprobeEvents (Go.probeLine libPath t offset ++ [10])) := by
  have hoffset := newline_not_mem_offset offset
  have hextra := Go.newline_not_mem_extraArgs ht
  have hhex : 10 ∉ str ":0x" := by decide
  have hblank : 10 ∉ str " " := by decide
  unfold Go.probeLine
  by_cases he : t.extraArgs = []
  · refine ⟨t.isRet, libPath ++ str ":0x" ++ lowerPad 1 offset.toNat, ?_, ?_⟩
    · simp [hlib, hhex, hoffset]
    · simp [he, List.append_assoc]
  · refine ⟨t.isRet, libPath ++ str ":0x" ++ lowerPad 1 offset.toNat ++ str " " ++ t.extraArgs,
      ?_, ?_⟩
    · simp [hlib, hhex, hoffset, hblank, hextra]
    · simp [he, List.append_assoc]

theorem Go.registersOne (hlib : 10 ∉ libPath) : RegistersOne (Go.registerOne libPath) :=
  fun _ ht _ => ⟨_, Go.defines_probeLine ht hlib, rfl⟩

theorem keeps_cleanupUprobes (hnames : ∀ m ∈ names, m ∈ probeTargets.map Go.probeName)
    (hd : d = .clean ∨ d = .both ∧ name ∈ names) :
    Keeps (DutyMoves name) (fun d' _ => d' = .clean) (Go.cleanupUprobes names) d := by
  induction names generalizing d with
  | nil =>
      rcases hd with rfl | ⟨-, h⟩
      · exact rfl
      · cases h
  | cons m names ih =>
      have hm := isName_of_mem (hnames m List.mem_cons_self)
      have hrest : ∀ m ∈ names, m ∈ probeTargets.map Go.probeName :=
        fun k hk => hnames k (List.mem_cons_of_mem m hk)
      by_cases heq : m = name
      · subst heq
        have hne : d ≠ .remove := by rcases hd with rfl | ⟨rfl, -⟩ <;> simp
        refine keeps_perform_bind (.disable d) fun _ => keeps_perform_bind (.remove _) fun _ => ?_
        exact ih hrest (Or.inl (Duty.removed_disabled hne))
      · refine keeps_perform_bind (.spares d (.disable hm heq)) fun _ => ?_
        refine keeps_perform_bind (.spares d (.remove hm heq)) fun _ => ?_
        refine ih hrest (hd.imp_right fun h => ⟨h.1, ?_⟩)
        exact (List.mem_cons.mp h.2).resolve_left (Ne.symm heq)

theorem keeps_cleanupUprobes_other {θ : Type} {moves : Moves FileOp θ} {d : θ}
    (hmoves : SparingMoves name moves) (hnames : ∀ m ∈ names, m ∈ probeTargets.map Go.probeName)
    (hother : name ∉ names) :
    Keeps moves (fun d' _ => d' = d) (Go.cleanupUprobes names) d := by
  induction names with
  | nil => exact rfl
  | cons m names ih =>
      have hm := isName_of_mem (hnames m List.mem_cons_self)
      obtain ⟨hne, hother⟩ := List.ne_and_not_mem_of_not_mem_cons hother
      refine keeps_perform_bind (hmoves d _ (.disable hm (Ne.symm hne))) fun _ => ?_
      refine keeps_perform_bind (hmoves d _ (.remove hm (Ne.symm hne))) fun _ => ?_
      exact ih (fun k hk => hnames k (List.mem_cons_of_mem m hk)) hother

/-! ### The C tracer -/

theorem C.probeName_eq (ht : t ∈ probeTargets) : C.probeName t = Go.probeName t := by
  have hall : ∀ t ∈ probeTargets, C.probeName t = Go.probeName t := by decide
  exact hall t ht

theorem C.paths_eq (hm : m ∈ probeTargets.map Go.probeName) :
    C.enablePath m = Go.enablePath m ∧ C.filterPath m = Go.filterPath m
      ∧ C.removeLine m = str "-:uprobes/" ++ m ∧ (C.removeLine m).length < 1023 := by
  have hall : ∀ m ∈ probeTargets.map Go.probeName,
      C.enablePath m = Go.enablePath m ∧ C.filterPath m = Go.filterPath m
        ∧ C.removeLine m = str "-:uprobes/" ++ m ∧ (C.removeLine m).length < 1023 := by
    decide
  exact hall m hm

theorem C.appendToFile_eq {path content : Bytes} (h : content.length < 1023) :
    C.appendToFile path content = perform (.append path (content ++ [10])) :=
  if_neg (by omega)

/-- What `strncat` adds to a text that was cut to the same size. -/
theorem fitted_append (cap : Nat) (a b : Bytes) :
    fitted cap (fitted cap a ++ b) = fitted cap (a ++ b) := by
  unfold fitted
  rcases Nat.le_total (cap - 1) a.length with h | h
  · rw [List.take_append_of_le_length h, List.take_append_of_le_length (by simp [h]),
      List.take_take, Nat.min_self]
  · rw [List.take_of_length_le h]

theorem C.probeLine_eq (ht : t ∈ probeTargets) :
    C.probeLine libPath t offset = fitted 512 (Go.probeLine libPath t offset) := by
  unfold C.probeLine Go.probeLine
  simp only [C.probeName_eq ht, fitted_append]
  split <;> rfl

theorem C.length_probeLine (ht : t ∈ probeTargets) :
    (C.probeLine libPath t offset).length < 512 := by
  rw [C.probeLine_eq ht, fitted, List.length_take]
  omega

theorem C.registerOne_eq (ht : t ∈ probeTargets) :
    C.registerOne libPath t offset = registerLine (C.probeLine libPath t offset) t := by
  have hname := C.probeName_eq ht
  obtain ⟨henable, hfilter, hremove, hshort⟩ := C.paths_eq (List.mem_map_of_mem ht)
  have hline : (C.probeLine libPath t offset).length < 1023 :=
    Nat.lt_trans (C.length_probeLine ht) (by decide)
  rw [hremove] at hshort
  unfold C.registerOne registerLine
  simp only [hname, henable, hfilter, hremove, C.appendToFile_eq hshort, C.appendToFile_eq hline]
  rfl

theorem C.cleanupUprobes_eq (hnames : ∀ m ∈ names, m ∈ probeTargets.map Go.probeName) :
    C.cleanupUprobes names = Go.cleanupUprobes names := by
  induction names with
  | nil => rfl
  | cons m names ih =>
      obtain ⟨henable, -, hremove, hshort⟩ := C.paths_eq (hnames m List.mem_cons_self)
      have hrest := ih fun k hk => hnames k (List.mem_cons_of_mem m hk)
      rw [hremove] at hshort
      unfold C.cleanupUprobes Go.cleanupUprobes
      rw [henable, hremove, C.appendToFile_eq hshort, hrest]
      rfl

/-- A command is cut, but not in the name of its probe. -/
theorem C.defines_probeLine (ht : t ∈ probeTargets) (hlib : 10 ∉ libPath) :
    Defines (Go.probeName t)
      (.append uprobeEvents (C.probeLine libPath t offset ++ [10])) := by
  have hshort : ∀ t ∈ probeTargets, (Go.probeName t).length < 500 := by decide
  obtain ⟨isRet, rest, hrest, hgo⟩ := @Go.defines_probeLine _ _ offset ht hlib
  have hline := List.append_cancel_right (FileOp.append.inj hgo).2
  generalize hhead : (if isRet then str "r" else str "p") ++ str ":" ++ Go.probeName t ++ str " "
    = head at hline
  have hlength : head.length ≤ 511 := by
    have ht := hshort t ht
    have hone : (if isRet then str "r" else str "p").length = 1 := by cases isRet <;> rfl
    rw [← hhead]
    simp only [List.length_append, hone, show (str ":").length = 1 from rfl,
      show (str " ").length = 1 from rfl]
    omega
  refine ⟨isRet, rest.take (511 - head.length), fun hmem => hrest (List.mem_of_mem_take hmem), ?_⟩
  rw [hhead, C.probeLine_eq ht, hline, fitted, List.take_append, List.take_of_length_le hlength]

theorem C.registersOne (hlib : 10 ∉ libPath) : RegistersOne (C.registerOne libPath) :=
  fun _ ht _ => ⟨_, C.defines_probeLine ht hlib, C.registerOne_eq ht⟩

/-! ### Both -/

section Register

variable {symbolOffset : Bytes → Option UInt64} {probeName : ProbeTarget → Bytes}
  {registerOne : ProbeTarget → UInt64 → Program FileOp Bool}

/-- Some target of this name is found. -/
def Found (symbolOffset : Bytes → Option UInt64) (ts : List ProbeTarget) (name : Bytes) : Prop :=
  ∃ t ∈ ts, Go.probeName t = name ∧ (symbolOffset t.symbol).isSome

/-- After the loop a tracer owes for the probe only if it has registered it, and it has begun
with it if its symbol is found. -/
structure Registered (symbolOffset : Bytes → Option UInt64) (ts : List ProbeTarget) (name : Bytes)
    (d d' : Duty) (names : List Bytes) : Prop where
  ne_remove : d' ≠ .remove
  both : d' = .both → name ∈ names
  due : d' = .due → d = .due
  found : Found symbolOffset ts name → d' ≠ .due

theorem keeps_registerTargets (hone : RegistersOne registerOne)
    (hname : ∀ t ∈ probeTargets, probeName t = Go.probeName t)
    (hts : ∀ t ∈ ts, t ∈ probeTargets) (hd : d ≠ .remove) (hboth : d = .both → name ∈ registered)
    (hseen : name ∈ seen → d ≠ .due) :
    Keeps (DutyMoves name) (Registered symbolOffset ts name d)
      (registerTargets symbolOffset probeName registerOne seen registered ts) d := by
  induction ts generalizing seen registered d with
  | nil => exact ⟨hd, hboth, id, by rintro ⟨t, h, -⟩; cases h⟩
  | cons t ts ih =>
      have ht := hts t List.mem_cons_self
      have hrest : ∀ t ∈ ts, t ∈ probeTargets := fun k hk => hts k (List.mem_cons_of_mem t hk)
      unfold registerTargets
      cases hoffset : symbolOffset t.symbol with
      | none =>
          refine (ih hrest hd hboth hseen).mono ?_
          rintro d' names ⟨hd', hboth', hdue', hfound'⟩
          refine ⟨hd', hboth', hdue', ?_⟩
          rintro ⟨k, hk, hkname, hksome⟩
          rcases List.mem_cons.mp hk with rfl | hk
          · simp [hoffset] at hksome
          · exact hfound' ⟨k, hk, hkname, hksome⟩
      | some offset =>
          simp only [hname t ht]
          split
          next hold =>
            refine (ih hrest hd hboth hseen).mono ?_
            rintro d' names ⟨hd', hboth', hdue', hfound'⟩
            refine ⟨hd', hboth', hdue', ?_⟩
            rintro ⟨k, hk, hkname, hksome⟩
            rcases List.mem_cons.mp hk with rfl | hk
            · have hmem : name ∈ seen := hkname ▸ List.contains_iff_mem.mp hold
              exact fun h => hseen hmem (hdue' h)
            · exact hfound' ⟨k, hk, hkname, hksome⟩
          next =>
            obtain ⟨line, hdef, hline⟩ := hone t ht offset
            rw [hline]
            refine keeps_bind.mpr ((keeps_registerLine ht hd hdef).mono ?_)
            intro d₁ ok hd₁
            by_cases heq : Go.probeName t = name
            · rw [if_pos heq] at hd₁
              have hne : d₁ ≠ .due := by cases ok <;> simp [hd₁]
              refine (ih hrest ?_ ?_ fun _ => hne).mono ?_
              · cases ok <;> simp [hd₁]
              · cases ok <;> simp [hd₁, heq]
              · rintro d' names ⟨hd', hboth', hdue', -⟩
                exact ⟨hd', hboth', fun h => absurd (hdue' h) hne,
                  fun _ h => absurd (hdue' h) hne⟩
            · rw [if_neg heq] at hd₁
              subst hd₁
              refine (ih hrest hd ?_ ?_).mono ?_
              · intro h
                cases ok
                · exact hboth h
                · exact List.mem_append_left _ (hboth h)
              · intro hmem
                exact hseen ((List.mem_cons.mp hmem).resolve_left (Ne.symm heq))
              · rintro d' names ⟨hd', hboth', hdue', hfound'⟩
                refine ⟨hd', hboth', hdue', ?_⟩
                rintro ⟨k, hk, hkname, hksome⟩
                rcases List.mem_cons.mp hk with rfl | hk
                · exact absurd hkname heq
                · exact hfound' ⟨k, hk, hkname, hksome⟩

/-- Only probes of the targets are registered. -/
theorem keeps_registered {θ : Type} {moves : Moves FileOp θ} {d : θ}
    {ends : θ → List Bytes → Prop} (hname : ∀ t ∈ probeTargets, probeName t = Go.probeName t)
    (hts : ∀ t ∈ ts, t ∈ probeTargets)
    (hregistered : ∀ m ∈ registered, m ∈ probeTargets.map Go.probeName)
    (hkeeps : Keeps moves ends
      (registerTargets symbolOffset probeName registerOne seen registered ts) d) :
    Keeps moves (fun d names => ends d names ∧ ∀ m ∈ names, m ∈ probeTargets.map Go.probeName)
      (registerTargets symbolOffset probeName registerOne seen registered ts) d := by
  induction ts generalizing seen registered d with
  | nil => exact ⟨hkeeps, hregistered⟩
  | cons t ts ih =>
      have ht := hts t List.mem_cons_self
      have hrest : ∀ t ∈ ts, t ∈ probeTargets := fun k hk => hts k (List.mem_cons_of_mem t hk)
      unfold registerTargets at hkeeps ⊢
      cases hoffset : symbolOffset t.symbol with
      | none =>
          rw [hoffset] at hkeeps
          exact ih hrest hregistered hkeeps
      | some offset =>
          rw [hoffset] at hkeeps
          simp only at hkeeps ⊢
          split at hkeeps
          next hold =>
            rw [if_pos hold]
            exact ih hrest hregistered hkeeps
          next hnew =>
            rw [if_neg hnew]
            refine keeps_bind.mpr ((keeps_bind.mp hkeeps).mono fun d₁ ok hd₁ => ?_)
            refine ih hrest ?_ hd₁
            intro m hm
            cases ok with
            | false => exact hregistered m hm
            | true =>
                rcases List.mem_append.mp hm with hm | hm
                · exact hregistered m hm
                · rw [List.mem_singleton.mp hm, hname t ht]
                  exact List.mem_map_of_mem ht

/-- A probe that is not found is not touched. -/
theorem keeps_registerTargets_other {θ : Type} {moves : Moves FileOp θ} {d : θ}
    (hmoves : SparingMoves name moves) (hone : RegistersOne registerOne)
    (hname : ∀ t ∈ probeTargets, probeName t = Go.probeName t)
    (hts : ∀ t ∈ ts, t ∈ probeTargets) (hfound : ¬Found symbolOffset ts name)
    (hregistered : name ∉ registered) :
    Keeps moves (fun d' names => d' = d ∧ name ∉ names)
      (registerTargets symbolOffset probeName registerOne seen registered ts) d := by
  induction ts generalizing seen registered with
  | nil => exact ⟨rfl, hregistered⟩
  | cons t ts ih =>
      have ht := hts t List.mem_cons_self
      have hrest : ∀ t ∈ ts, t ∈ probeTargets := fun k hk => hts k (List.mem_cons_of_mem t hk)
      have hfound' : ¬Found symbolOffset ts name := by
        rintro ⟨k, hk, h⟩
        exact hfound ⟨k, List.mem_cons_of_mem t hk, h⟩
      unfold registerTargets
      cases hoffset : symbolOffset t.symbol with
      | none => exact ih hrest hfound' hregistered
      | some offset =>
          simp only [hname t ht]
          have hne : Go.probeName t ≠ name := by
            intro heq
            exact hfound ⟨t, List.mem_cons_self, heq, by simp [hoffset]⟩
          split
          · exact ih hrest hfound' hregistered
          · obtain ⟨line, hdef, hline⟩ := hone t ht offset
            rw [hline]
            refine keeps_bind.mpr ((keeps_registerLine_other ht hmoves hne hdef).mono ?_)
            rintro _ ok rfl
            refine ih hrest hfound' ?_
            cases ok with
            | false => exact hregistered
            | true => simp [hregistered, Ne.symm hne]

end Register

section Trace

variable {θ : Type} {moves : Moves FileOp θ} {regd : θ → List Bytes → Prop}
  {ends : θ → Outcome → Prop} {registerUprobes : Session → Program FileOp (List Bytes)}
  {cleanupUprobes : List Bytes → Program FileOp Unit} {x : Session} {d₀ : θ}

theorem keeps_trace (hmoves : SparingMoves name moves) (hfailed : ends d₀ .noTracing)
    (hregister : Keeps moves regd (registerUprobes x) d₀)
    (hnone : ∀ d, regd d [] → ends d .noProbes)
    (hpipe : ∀ d names, regd d names → ends d .pipeEnded)
    (hcleanup : ∀ d names, regd d names →
      Keeps moves (fun d' _ => ends d' .noPipe ∧ ends d' .signalled) (cleanupUprobes names) d) :
    Keeps moves ends (trace registerUprobes cleanupUprobes x) d₀ := by
  unfold trace
  refine keeps_perform_bind (hmoves d₀ _ .tracing) fun ok => ?_
  cases ok with
  | false => exact hfailed
  | true =>
      refine keeps_perform_bind (hmoves d₀ _ .tracer) fun _ => ?_
      refine keeps_bind.mpr (hregister.mono fun d names hd => ?_)
      have hsignalled : Keeps moves ends (do cleanupUprobes names; return .signalled) d :=
        keeps_bind.mpr ((hcleanup d names hd).mono fun _ _ h => h.2)
      have hnoPipe : Keeps moves ends (do cleanupUprobes names; return .noPipe) d :=
        keeps_bind.mpr ((hcleanup d names hd).mono fun _ _ h => h.1)
      split
      next hnil =>
        subst hnil
        exact hnone d hd
      next =>
        split
        · exact hsignalled
        all_goals
          refine keeps_perform_bind (hmoves d _ (.openRead _)) fun ok => ?_
          cases ok with
          | false => exact hnoPipe
          | true =>
              simp only [Bool.not_true, Bool.false_eq_true, if_false]
              split
              · exact hpipe d names hd
              · exact hsignalled

end Trace

/-- What the two tracers have in common. -/
structure Common (x : Session) (session : Session → Program FileOp Outcome) where
  probeName : ProbeTarget → Bytes
  registerOne : ProbeTarget → UInt64 → Program FileOp Bool
  registerUprobes : Session → Program FileOp (List Bytes)
  cleanupUprobes : List Bytes → Program FileOp Unit
  probeName_eq : ∀ t ∈ probeTargets, probeName t = Go.probeName t
  registersOne : RegistersOne registerOne
  registers : registerUprobes x
    = registerTargets x.symbolOffset probeName registerOne [] [] probeTargets
  cleansUp : CleansUp cleanupUprobes
  session_eq : session x = trace registerUprobes cleanupUprobes x

def Tracer.common (tracer : Tracer) {x : Session} (hlib : 10 ∉ x.libPath) :
    Common x tracer.session :=
  match tracer with
  | .go => ⟨Go.probeName, Go.registerOne x.libPath, Go.registerUprobes, Go.cleanupUprobes,
      fun _ _ => rfl, Go.registersOne hlib, rfl, fun _ _ => rfl, rfl⟩
  | .c => ⟨C.probeName, C.registerOne x.libPath, C.registerUprobes, C.cleanupUprobes,
      fun _ => C.probeName_eq, C.registersOne hlib, rfl, fun _ => C.cleanupUprobes_eq, rfl⟩

/-- How a tracer may end: with nothing left to do, or without having turned tracing on, or at the
end of the pipe. -/
def MayEnd (d : Duty) (out : Outcome) : Prop :=
  out = .pipeEnded ∨ d = .clean ∨ d = .due ∧ out = .noTracing

theorem keeps_session {tracer : Tracer} {x : Session} (hlib : 10 ∉ x.libPath)
    (hd : d = .clean ∨ d = .due ∧ Found x.symbolOffset probeTargets name) :
    Keeps (DutyMoves name) MayEnd (tracer.session x) d := by
  obtain ⟨probeName, registerOne, register, cleanup, hname, hone, hregisters, hcleans, hsession⟩ :=
    tracer.common hlib
  have hd₀ : d ≠ .remove ∧ d ≠ .both := by rcases hd with rfl | ⟨rfl, -⟩ <;> simp
  have hregister : Keeps (DutyMoves name)
      (fun d' names => Registered x.symbolOffset probeTargets name d d' names
        ∧ ∀ m ∈ names, m ∈ probeTargets.map Go.probeName) (register x) d := by
    rw [hregisters]
    refine keeps_registered hname (fun _ => id) (by simp) ?_
    exact keeps_registerTargets hone hname (fun _ => id) hd₀.1 (fun h => absurd h hd₀.2) (by simp)
  have howes : ∀ d' names, Registered x.symbolOffset probeTargets name d d' names →
      d' = .clean ∨ d' = .both ∧ name ∈ names := by
    intro d' names hreg
    cases d' with
    | clean => exact Or.inl rfl
    | due =>
        rcases hd with rfl | ⟨-, hf⟩
        · cases hreg.due rfl
        · exact absurd rfl (hreg.found hf)
    | both => exact Or.inr ⟨rfl, hreg.both rfl⟩
    | remove => exact absurd rfl hreg.ne_remove
  rw [hsession]
  refine keeps_trace (fun d _ h => .spares d h) ?_ hregister ?_ ?_ ?_
  · exact Or.inr (hd.imp_right fun h => ⟨h.1, rfl⟩)
  · rintro d' ⟨hreg, -⟩
    refine Or.inr (Or.inl ((howes d' [] hreg).resolve_right ?_))
    rintro ⟨-, h⟩
    cases h
  · exact fun _ _ _ => Or.inl rfl
  · rintro d' names ⟨hreg, hnames⟩
    rw [hcleans names hnames]
    refine (keeps_cleanupUprobes hnames (howes d' names hreg)).mono ?_
    rintro d'' _ rfl
    exact ⟨Or.inr (Or.inl rfl), Or.inr (Or.inl rfl)⟩

/-- A tracer does not touch a probe whose symbol it does not find. -/
theorem keeps_session_other {tracer : Tracer} {x : Session} (hlib : 10 ∉ x.libPath)
    (hfound : ¬Found x.symbolOffset probeTargets name) :
    Keeps (fun _ o _ => Spares name o) (fun _ _ => True) (tracer.session x) () := by
  obtain ⟨probeName, registerOne, register, cleanup, hname, hone, hregisters, hcleans, hsession⟩ :=
    tracer.common hlib
  have hmoves : SparingMoves name fun (_ : Unit) o (_ : Bool → Unit) => Spares name o :=
    fun _ _ h => h
  have hregister : Keeps (fun (_ : Unit) o _ => Spares name o)
      (fun d names => (d = () ∧ name ∉ names) ∧ ∀ m ∈ names, m ∈ probeTargets.map Go.probeName)
      (register x) () := by
    rw [hregisters]
    refine keeps_registered hname (fun _ => id) (by simp) ?_
    exact keeps_registerTargets_other hmoves hone hname (fun _ => id) hfound (by simp)
  rw [hsession]
  refine keeps_trace hmoves trivial hregister (fun _ _ => trivial) (fun _ _ _ => trivial) ?_
  rintro d names ⟨⟨-, hother⟩, hnames⟩
  rw [hcleans names hnames]
  exact (keeps_cleanupUprobes_other hmoves hnames hother).mono fun _ _ _ => ⟨trivial, trivial⟩

end Tracers

/-! ## Tracers that take turns -/

section Turns

variable {σ ι : Type} [DecidableEq ι] {fs : Tracefs σ} {name : Bytes} {d : Duty} {o : FileOp}
  {d' : Bool → Duty} {tracer : ι → Tracer} {xs : ι → Session} {s₀ s s' : σ}
  {ps ps' : ι → Program FileOp Outcome} {is js : List ι} {oks oks' : List Bool}
  {outcome : ι → Outcome} {first : ι} {t : ProbeTarget}

theorem DutyMoves.ne_due (hmove : DutyMoves name d o d') (hd : d ≠ .due) (ok : Bool) :
    d' ok ≠ .due := by
  cases hmove with
  | disable => exact d.disabled_ne_due
  | remove => cases d <;> simp [Duty.removed] at hd ⊢
  | define => cases ok <;> simp
  | enable => simp
  | spares => exact hd

/-- Tracers in the midst of their runs owe what is to be done from there on. -/
theorem keeps_midst (name : Bytes) (hlib : ∀ i, 10 ∉ (xs i).libPath)
    (hrun : Schedules.run (turn fs.perform) (s₀, fun i => (tracer i).session (xs i)) is
      = some ((s, ps), oks)) :
    ∃ ds : ι → Duty, (∀ i, ds i ≠ .due) ∧ ∀ i, Keeps (DutyMoves name) MayEnd (ps i) (ds i) := by
  have hstart : ∀ i, Keeps (DutyMoves name) MayEnd ((tracer i).session (xs i)) .clean :=
    fun i => keeps_session (hlib i) (Or.inl rfl)
  have hstep : ∀ (s : σ) (ds : ι → Duty) i o d', (∀ j, ds j ≠ .due) →
      DutyMoves name (ds i) o d' →
      ∀ j, Function.update ds i (d' (fs.perform s o).2) j ≠ .due := by
    intro s ds i o d' hds hmove j
    by_cases hji : j = i
    · subst hji
      rw [Function.update_self]
      exact hmove.ne_due (hds j) _
    · rw [Function.update_of_ne hji]
      exact hds j
  have hnone : ∀ i : ι, (fun _ : ι => Duty.clean) i ≠ .due := fun _ => by simp
  obtain ⟨ds, hdue, hkeeps, hother⟩ :=
    run_keeps (I := fun _ ds => ∀ i, ds i ≠ .due) hstep hrun hnone (fun i _ => hstart i)
  refine ⟨ds, hdue, fun i => ?_⟩
  by_cases hi : i ∈ is
  · exact hkeeps i hi
  · rw [run_other hrun hi, hother i hi]
    exact hstart i

/-- Whatever has been left, no probe of a name is there when every tracer has ended that took a
turn since one began that finds the symbol, unless at the end of the pipe. -/
theorem removed_of_ended (hlib : ∀ i, 10 ∉ (xs i).libPath)
    (hpre : Schedules.run (turn fs.perform) (s₀, fun i => (tracer i).session (xs i)) is
      = some ((s, ps), oks))
    (hrun : Schedules.run (turn fs.perform) (s, ps) js = some ((s', ps'), oks'))
    (hend : ∀ j ∈ js, (ps' j).result = some (outcome j) ∧ outcome j ≠ .pipeEnded)
    (hfirst : first ∉ is) (hjs : first ∈ js) (hout : outcome first ≠ .noTracing)
    (hname : IsName name) (hfound : Found (xs first).symbolOffset probeTargets name) :
    fs.probe s' name = none := by
  obtain ⟨ds, hdue, hkeeps⟩ := keeps_midst name hlib hpre
  have howed : Owed fs name first s
      fun j => if j = first then .due else if j ∈ js then ds j else .clean := by
    refine ⟨fun j hj => ?_, fun _ => ⟨first, by simp⟩, fun _ => ⟨first, by simp⟩⟩
    by_contra hne
    rw [if_neg hne] at hj
    split at hj
    · exact hdue j hj
    · cases hj
  have hps : ∀ j ∈ js, Keeps (DutyMoves name) MayEnd (ps j)
      (if j = first then .due else if j ∈ js then ds j else .clean) := by
    intro j hj
    by_cases hjf : j = first
    · subst hjf
      rw [if_pos rfl, run_other hpre hfirst]
      exact keeps_session (hlib j) (Or.inr ⟨rfl, hfound⟩)
    · rw [if_neg hjf, if_pos hj]
      exact hkeeps j
  obtain ⟨ds', howed', hkeeps', hother⟩ :=
    run_keeps (fun _ _ _ _ _ h hmove => h.move hname hmove) hrun howed hps
  cases hprobe : fs.probe s' name with
  | none => rfl
  | some b =>
      obtain ⟨j, hj⟩ := howed'.there (by simp [hprobe])
      refine absurd ?_ hj
      by_cases hmem : j ∈ js
      · obtain ⟨hdone, hpipe⟩ := hend j hmem
        have hmay := hkeeps' j hmem
        rw [result_eq_some.mp hdone] at hmay
        rcases hmay with h | h | ⟨h, hno⟩
        · exact absurd h hpipe
        · exact h
        · obtain rfl := howed'.due j h
          exact absurd hno hout
      · have hjf : j ≠ first := by
          rintro rfl
          exact hmem hjs
        rw [hother j hmem, if_neg hjf, if_neg hmem]

/-- A probe that none of the tracers finds is as it was. -/
theorem probe_of_not_found (hlib : ∀ i, 10 ∉ (xs i).libPath)
    (hrun : Schedules.run (turn fs.perform) (s₀, fun i => (tracer i).session (xs i)) is
      = some ((s, ps), oks))
    (hname : IsName name) (hfound : ∀ i, ¬Found (xs i).symbolOffset probeTargets name) :
    fs.probe s name = fs.probe s₀ name := by
  have hstep : ∀ (s : σ) (ds : ι → Unit) (i : ι) o (d' : Bool → Unit),
      fs.probe s name = fs.probe s₀ name → Spares name o →
      fs.probe (fs.perform s o).1 name = fs.probe s₀ name :=
    fun s _ _ o _ h hspares => (fs.spares s name o hname hspares).trans h
  obtain ⟨-, hsame, -⟩ := run_keeps (I := fun s _ => fs.probe s name = fs.probe s₀ name)
    hstep hrun rfl (fun i _ => keeps_session_other (hlib i) (hfound i))
  exact hsame

/-- A tracer that finds one symbol, and is ended by a signal. -/
def oneSymbol : Session :=
  ⟨str "/l", fun symbol => if symbol = str "SSL_write" then some 16 else none, .signal⟩

theorem run_oneSymbol : ((Schedules.run (turn plainTracefs.perform)
    (fun _ => some true, fun _ : Unit => Tracer.c.session oneSymbol) (List.replicate 9 ())).map
      fun x => (x.1.2 ()).result) = some (some .signalled) := rfl

end Turns

/-! ## The same commands -/

section Same

variable {α : Type} {libPath : Bytes} {symbolOffset : Bytes → Option UInt64}
  {seen registered : List Bytes} {ts : List ProbeTarget} {t : ProbeTarget} {offset : UInt64}
  {x : Session}

/-- Two lines are registered alike only if they are the same, and what follows is too. -/
theorem registerLine_injective {line line' : Bytes} {f g : Bool → Program FileOp α}
    (h : (registerLine line t >>= f) = (registerLine line' t >>= g)) :
    line = line' ∧ f false = g false := by
  unfold registerLine at h
  simp only [bind_assoc] at h
  have h₁ := (perform_bind_inj h).2 true
  have h₂ := (perform_bind_inj h₁).2 true
  obtain ⟨hline, h₃⟩ := perform_bind_inj h₂
  exact ⟨List.append_cancel_right (FileOp.append.inj hline).2, h₃ false⟩

/-- The commands for the symbols that are found have room in the buffer. -/
def LinesFit (symbolOffset : Bytes → Option UInt64) (libPath : Bytes) (ts : List ProbeTarget) :
    Prop :=
  ∀ t ∈ ts, ∀ offset, symbolOffset t.symbol = some offset →
    (Go.probeLine libPath t offset).length < 512

theorem probeLine_eq_iff (ht : t ∈ probeTargets) :
    C.probeLine libPath t offset = Go.probeLine libPath t offset
      ↔ (Go.probeLine libPath t offset).length < 512 := by
  rw [C.probeLine_eq ht, fitted, List.take_eq_self_iff]
  omega

theorem linesFit_of_eq {f g : List Bytes → Program FileOp α} (hts : ∀ t ∈ ts, t ∈ probeTargets)
    (hnodup : (ts.map Go.probeName).Nodup) (hseen : ∀ t ∈ ts, Go.probeName t ∉ seen)
    (heq : (registerTargets symbolOffset C.probeName (C.registerOne libPath) seen registered ts
        >>= f)
      = registerTargets symbolOffset Go.probeName (Go.registerOne libPath) seen registered ts
        >>= g) : LinesFit symbolOffset libPath ts := by
  induction ts generalizing seen registered with
  | nil => exact fun t ht => (List.not_mem_nil ht).elim
  | cons t ts ih =>
      have ht := hts t List.mem_cons_self
      have hrest : ∀ t ∈ ts, t ∈ probeTargets := fun k hk => hts k (List.mem_cons_of_mem t hk)
      obtain ⟨hnew, hnodup⟩ := List.nodup_cons.mp hnodup
      have hseen' : ∀ k ∈ ts, Go.probeName k ∉ Go.probeName t :: seen := by
        intro k hk hmem
        rcases List.mem_cons.mp hmem with hkt | hmem
        · exact hnew (hkt ▸ List.mem_map_of_mem hk)
        · exact hseen k (List.mem_cons_of_mem t hk) hmem
      intro k hk off hoff
      unfold registerTargets at heq
      cases hoffset : symbolOffset t.symbol with
      | none =>
          rw [hoffset] at heq
          rcases List.mem_cons.mp hk with rfl | hk
          · cases hoffset.symm.trans hoff
          · have hseen' : ∀ k ∈ ts, _ := fun k hk => hseen k (List.mem_cons_of_mem t hk)
            exact ih hrest hnodup hseen' heq k hk off hoff
      | some offset =>
          have hnot : seen.contains (Go.probeName t) = false := by
            simpa using hseen t List.mem_cons_self
          simp only [hoffset, C.probeName_eq ht, hnot, Bool.false_eq_true, if_false, bind_assoc,
            C.registerOne_eq ht] at heq
          obtain ⟨hline, hnext⟩ := registerLine_injective heq
          rcases List.mem_cons.mp hk with rfl | hk
          · obtain rfl := Option.some.inj (hoffset.symm.trans hoff)
            exact (probeLine_eq_iff ht).mp hline
          · exact ih hrest hnodup hseen' hnext k hk off hoff

theorem registerTargets_eq (hts : ∀ t ∈ ts, t ∈ probeTargets)
    (hfit : LinesFit symbolOffset libPath ts) :
    registerTargets symbolOffset C.probeName (C.registerOne libPath) seen registered ts
      = registerTargets symbolOffset Go.probeName (Go.registerOne libPath) seen registered ts := by
  induction ts generalizing seen registered with
  | nil => rfl
  | cons t ts ih =>
      have ht := hts t List.mem_cons_self
      have hrest : ∀ t ∈ ts, t ∈ probeTargets := fun k hk => hts k (List.mem_cons_of_mem t hk)
      have hfit' : LinesFit symbolOffset libPath ts :=
        fun k hk => hfit k (List.mem_cons_of_mem t hk)
      unfold registerTargets
      cases hoffset : symbolOffset t.symbol with
      | none => exact ih hrest hfit'
      | some offset =>
          have hline := (probeLine_eq_iff ht).mpr (hfit t List.mem_cons_self offset hoffset)
          have hone : C.registerOne libPath t offset = Go.registerOne libPath t offset := by
            rw [C.registerOne_eq ht, hline]
            rfl
          simp only [C.probeName_eq ht, hone, ih hrest hfit']

theorem cleanup_eq (x : Session) {f g : List Bytes → Program FileOp α}
    (h : ∀ names, (∀ m ∈ names, m ∈ probeTargets.map Go.probeName) → f names = g names) :
    Go.registerUprobes x >>= f = Go.registerUprobes x >>= g := by
  have hnil : ∀ m ∈ ([] : List Bytes), m ∈ probeTargets.map Go.probeName := by simp
  have hkeeps := keeps_registered (fun _ _ => rfl) (fun _ => id) hnil
    (keeps_true (Go.registerUprobes x))
  exact hkeeps.bind_congr fun _ names hnames => h names hnames.2

end Same

end Tracep.Tlstrace.Uprobes
