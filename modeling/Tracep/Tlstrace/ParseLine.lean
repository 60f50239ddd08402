import Tracep.Lib.Cut
import Tracep.Lib.Regex
import Tracep.Tlstrace.Line

/-!
# Lines of the trace pipe

For a hit of a probe the kernel writes the name of the task, its PID, the
time, the probe and the arguments. `parseLine` and `parse_line` take this
apart by the same expressions, the one by Go's matcher and the other by that
of POSIX. The name of the task has to be a word, and the expression goes on to
the last time and probe in the line, be it one in the arguments. So a line is
not always read as it was written (`parseLine_reads_iff`).
-/

namespace Tracep.Tlstrace

open Regex

/-! ## The code -/

/-- What is read from a line. The time is kept as its text. -/
structure TraceEvent where
  comm : Bytes
  pid : Int
  ts : Bytes
  probeName : Bytes
  dir : Dir
  sni : Bytes
deriving DecidableEq

/-- What the matchers of the two ports differ in. -/
structure Dialect where
  space : UInt8 → Bool
  any : UInt8 → Bool
  pick : {α : Type} → List (α × Bytes) → Option (α × Bytes)

/-- `\w`. -/
def isWord (b : UInt8) : Bool :=
  48 ≤ b && b ≤ 57 || 65 ≤ b && b ≤ 90 || b == 95 || 97 ≤ b && b ≤ 122

/-- `[\d.]`. -/
def isStamp (b : UInt8) : Bool := isDigit b || b == 46

/-- `tls_`. -/
def tlsPrefix : Bytes := [116, 108, 115, 95]

/-- `arg1` and `sni`. -/
def arg1Key : Bytes := [97, 114, 103, 49]
def sniKey : Bytes := [115, 110, 105]

/-- `_sni`, `_read` and `_write`. -/
def sniPart : Bytes := [95, 115, 110, 105]
def readPart : Bytes := [95, 114, 101, 97, 100]
def writePart : Bytes := [95, 119, 114, 105, 116, 101]

section Expressions

variable (D : Dialect)

/-- `(?:\(\S+\)\s+)?`. -/
def tgidRe : Regex (Option Bytes) := opt do
  lit [40]
  let _ ← plus (!D.space ·)
  lit [41]
  plus D.space

/-- `^\s*(\S+)-(\d+)\s+`, the above, and `\[\d+\]`. -/
def headRe : Regex (Bytes × Bytes) := do
  let _ ← star D.space
  let comm ← plus (!D.space ·)
  lit [45]
  let pid ← plus isDigit
  let _ ← plus D.space
  let _ ← tgidRe D
  lit [91]
  let _ ← plus isDigit
  lit [93]
  return (comm, pid)

/-- `\s+([\d.]+):\s+(tls_\w+)`. -/
def stampRe : Regex (Bytes × Bytes) := do
  let _ ← plus D.space
  let ts ← plus isStamp
  lit [58]
  let _ ← plus D.space
  lit tlsPrefix
  let name ← plus isWord
  return (ts, tlsPrefix ++ name)

/-- Both with `.*` between them. -/
def traceRe : Regex ((Bytes × Bytes) × Bytes × Bytes) := do
  let task ← headRe D
  let stamp ← anywhere D.any (stampRe D)
  return (task, stamp)

/-- `(?:arg1|sni)="([^"]*)"`. -/
def sniRe : Regex Bytes := do
  alt (lit arg1Key) (lit sniKey)
  lit [61, 34]
  let host ← star (· ≠ 34)
  lit [34]
  return host

end Expressions

/-- `dir`. -/
def dirOf (probeName : Bytes) : Dir :=
  if (cut sniPart probeName).isSome then .sni
  else if (cut readPart probeName).isSome then .read
  else if (cut writePart probeName).isSome then .write
  else .other

namespace Go

/-- White space is that of ASCII without the vertical tab; the first way is taken. All that is
special to the expressions is ASCII, so bytes stand for runes. -/
def dialect : Dialect where
  space b := b == 9 || b == 10 || b == 12 || b == 13 || b == 32
  any b := b ≠ 10
  pick l := l.head?

def parseLine (line : Bytes) : Option TraceEvent :=
  (dialect.pick (traceRe dialect line)).map fun (((comm, pid), ts, probeName), _) =>
    let dir := dirOf probeName
    let sni := if dir = .sni then (search dialect.pick sniRe line).getD [] else []
    ⟨comm, (Strconv.atoi pid).1, ts, probeName, dir, sni⟩

end Go

namespace C

/-- The classes are those of the locale `C`; the longest way is taken. -/
def dialect : Dialect where
  space := Libc.isSpace
  any _ := true
  pick := longest

def parseLine (line : Bytes) : Option TraceEvent :=
  let line := cstr line
  (dialect.pick (traceRe dialect line)).map fun (((comm, pid), ts, probeName), _) =>
    let probeName := probeName.take 63
    let dir := dirOf probeName
    let sni := if dir = .sni then ((search dialect.pick sniRe line).getD []).take 255 else []
    ⟨comm.take 255, Libc.atoi (pid.take 31), ts.take 31, probeName, dir, sni⟩

end C

/-! ## Lines as they are written -/

/-- A function of the library, whether its return is probed, and what it is for. -/
structure ProbeTarget where
  symbol : Bytes
  isRet : Bool
  dir : Dir

/-- `SSL_read`, `SSL_write`, `SSL_read_ex`, `SSL_write_ex`, `SSL_get_servername` and `SSL_ctrl`. -/
def probeTargets : List ProbeTarget :=
  let sslRead := [83, 83, 76, 95, 114, 101, 97, 100]
  let sslWrite := [83, 83, 76, 95, 119, 114, 105, 116, 101]
  let ex := [95, 101, 120]
  let servername :=
    [83, 83, 76, 95, 103, 101, 116, 95, 115, 101, 114, 118, 101, 114, 110, 97, 109, 101]
  let ctrl := [83, 83, 76, 95, 99, 116, 114, 108]
  [⟨sslRead, false, .read⟩, ⟨sslRead, true, .read⟩, ⟨sslWrite, false, .write⟩,
    ⟨sslRead ++ ex, false, .read⟩, ⟨sslWrite ++ ex, false, .write⟩, ⟨servername, true, .sni⟩,
    ⟨ctrl, false, .sni⟩]

/-- The text of a direction in the name of a probe. -/
def Dir.text : Dir → Bytes
  | .sni => sniKey
  | .read => [114, 101, 97, 100]
  | .write => [119, 114, 105, 116, 101]
  | .other => [63]

/-- The name of the probe after `tls_`. -/
def ProbeTarget.word (t : ProbeTarget) : Bytes :=
  t.dir.text ++ 95 :: t.symbol ++ if t.isRet then ret else []

def ProbeTarget.name (t : ProbeTarget) : Bytes := tlsPrefix ++ t.word

theorem probeTargets_word : ∀ t ∈ probeTargets, t.word ≠ [] ∧ ∀ b ∈ t.word, isWord b = true := by
  decide +kernel

/-- A probe is for what its name says. -/
theorem dirOf_name : ∀ t ∈ probeTargets, dirOf t.name = t.dir := by
  decide +kernel

theorem length_name : ∀ t ∈ probeTargets, t.name.length < 63 := by
  decide +kernel

/-- The thread group, or dashes, with blanks before it if it is short. -/
structure Tgid where
  blanks : Nat
  text : Bytes
  text_ne_nil : text ≠ []
  text_digits : ∀ b ∈ text, isDigit b = true ∨ b = 45

def Tgid.column (t : Tgid) : Bytes := 40 :: (List.replicate t.blanks 32 ++ (t.text ++ [41, 32]))

/-- Arguments with a host that is recorded as a string. -/
structure Recorded where
  before : Bytes
  key : Bytes
  host : Bytes
  after : Bytes
  key_known : key = arg1Key ∨ key = sniKey
  before_text : ∀ b ∈ before, b ≠ 34 ∧ b ≠ 0
  host_text : ∀ b ∈ host, b ≠ 34 ∧ b ≠ 0

inductive Args where
  | plain (text : Bytes)
  | sni (r : Recorded)

def Recorded.text (r : Recorded) : Bytes :=
  r.before ++ (r.key ++ ([61, 34] ++ (r.host ++ 34 :: r.after)))

def Args.text : Args → Bytes
  | plain text => text
  | sni r => r.text

/-- A hit of a probe. -/
structure Hit where
  comm : Bytes
  pid : Nat
  pidGap : Nat
  tgid : Option Tgid
  cpu : Bytes
  flags : Bytes
  timeGap : Nat
  time : Bytes
  target : ProbeTarget
  args : Args
  comm_ne_nil : comm ≠ []
  comm_short : comm.length < 16
  comm_text : ∀ b ∈ comm, b ≠ 0 ∧ b ≠ 10
  pid_lt : pid < 2 ^ 31
  cpu_ne_nil : cpu ≠ []
  cpu_digits : ∀ b ∈ cpu, isDigit b = true
  flags_text : ∀ b ∈ flags, 32 < b ∧ b < 127 ∧ b ≠ 34 ∧ b ≠ 58
  time_ne_nil : time ≠ []
  time_stamp : ∀ b ∈ time, isStamp b = true
  time_short : time.length < 31
  target_known : target ∈ probeTargets
  args_line : 10 ∉ args.text

namespace Hit

variable (h : Hit)

def pad : Bytes := List.replicate (16 - h.comm.length) 32

/-- The PID, the column of the thread group, and the processor. -/
def numbers : Bytes :=
  45 :: (digits 10 h.pid ++ (List.replicate (h.pidGap + 1) 32
    ++ (h.tgid.elim [] Tgid.column ++ 91 :: (h.cpu ++ [93]))))

/-- The flags and the blanks after them, but for one. -/
def flagText : Bytes := 32 :: (h.flags ++ List.replicate h.timeGap 32)

/-- The time and the probe. -/
def stamp : Bytes := 32 :: (h.time ++ 58 :: 32 :: (h.target.name ++ [58]))

def afterComm : Bytes := h.numbers ++ (h.flagText ++ (h.stamp ++ h.args.text))

def text : Bytes := h.pad ++ (h.comm ++ h.afterComm)

/-- The line is read as it was written. -/
def ReadAs (ev : Option TraceEvent) : Prop :=
  ∃ e, ev = some e ∧ e.comm = h.comm ∧ e.pid = h.pid ∧ e.ts = h.time
    ∧ e.probeName = h.target.name ∧ e.dir = h.target.dir
    ∧ ∀ r, h.target.dir = .sni → h.args = .sni r → e.sni = r.host

end Hit

/-! ## The task -/

/-- White space has the blank and nothing visible, and a line has no byte that stops `.*`. -/
structure Dialect.Laws (D : Dialect) : Prop where
  picks : Picks D.pick
  space_blank : D.space 32 = true
  space_visible : ∀ b, 32 < b → D.space b = false
  any_line : ∀ b, b ≠ 10 → D.any b = true

theorem Go.laws : Go.dialect.Laws where
  picks := picks_head
  space_blank := rfl
  space_visible b hb := by
    have hb : 32 < b.toNat := hb
    simp only [dialect, Bool.or_eq_false_iff, beq_eq_false_iff_ne, ne_eq, ← UInt8.toNat_inj,
      UInt8.reduceToNat]
    omega
  any_line _ hb := decide_eq_true hb

theorem C.laws : C.dialect.Laws where
  picks := picks_longest
  space_blank := rfl
  space_visible _ hb := Libc.isSpace_of_visible hb
  any_line _ _ := rfl

section Head

variable {D : Dialect} {h : Hit} {s rest : Bytes} {b : UInt8}

namespace Dialect.Laws

variable (laws : D.Laws)

include laws

theorem space_digit (hb : isDigit b = true) : D.space b = false :=
  laws.space_visible b (visible_of_isDigit hb).1

theorem ne_of_space {c : UInt8} (hc : 32 < c) (hb : D.space b = true) : c ≠ b := by
  rintro rfl
  rw [laws.space_visible c hc] at hb
  cases hb

theorem blanks (n : Nat) : ∀ b ∈ List.replicate n (32 : UInt8), D.space b = true :=
  fun _ hb => List.eq_of_mem_replicate hb ▸ laws.space_blank

end Dialect.Laws

theorem ne_of_isDigit {c : UInt8} (hc : isDigit c = false) (hb : isDigit b = true) : c ≠ b := by
  rintro rfl
  rw [hc] at hb
  cases hb

/-- Digits and white space are not found across a dash. -/
theorem digits_space_nil {y : Bytes} {γ : Type} {k : Bytes → Bytes → Regex γ}
    (hdash : 45 ∈ y) (hy : ∀ b ∈ y, (!D.space b) = true) :
    (plus isDigit >>= fun t => plus D.space >>= k t) (y ++ s) = [] := by
  rw [bind_eq, List.flatMap_eq_nil_iff]
  rintro ⟨t, rest⟩ hmem
  obtain ⟨happend, -, ht⟩ := mem_plus.mp hmem
  rcases List.append_eq_append_iff.mp happend with ⟨z, rfl, -⟩ | ⟨z, rfl, rfl⟩
  · exact absurd (ht 45 (List.mem_append_left z hdash)) (by decide)
  · cases z with
    | nil =>
        rw [List.append_nil] at hdash
        exact absurd (ht 45 hdash) (by decide)
    | cons b z =>
        have hb := hy b (List.mem_append_right t List.mem_cons_self)
        rw [bind_eq, List.cons_append, plus_cons_of_neg (Bool.not_eq_true' _ ▸ hb)]
        rfl

/-- `\[\d+\]`. -/
def cpuRe (comm pid : Bytes) : Regex (Bytes × Bytes) := do
  lit [91]
  let _ ← plus isDigit
  lit [93]
  return (comm, pid)

theorem headRe_eq : headRe D = (do
    let _ ← star D.space
    let comm ← plus (!D.space ·)
    lit [45]
    let pid ← plus isDigit
    let _ ← plus D.space
    let _ ← tgidRe D
    cpuRe comm pid) := rfl

theorem column_stops (laws : D.Laws) (tgid : Option Tgid) :
    Stops D.space (tgid.elim [] Tgid.column ++ 91 :: s) := by
  intro b hb
  cases tgid with
  | none =>
      obtain rfl := Option.some.inj hb
      exact laws.space_visible _ (by decide)
  | some t =>
      obtain rfl := Option.some.inj hb
      exact laws.space_visible _ (by decide)

/-- The task of a line is its first word, up to the last dash. -/
theorem headRe_of_word (laws : D.Laws) (hcomm : ∀ b ∈ h.comm, D.space b = false) :
    headRe D (h.pad ++ (h.comm ++ (h.numbers ++ rest))) = (do let _ ← tgidRe D; cpuRe h.comm (digits 10 h.pid))
      (h.tgid.elim [] Tgid.column ++ 91 :: (h.cpu ++ 93 :: rest)) := by
  have htext : h.numbers ++ rest = 45 :: (digits 10 h.pid ++ (List.replicate (h.pidGap + 1) 32
      ++ (h.tgid.elim [] Tgid.column ++ 91 :: (h.cpu ++ 93 :: rest)))) := by
    simp only [Hit.numbers, List.append_assoc, List.cons_append, List.nil_append]
  have htail := @column_stops D (h.cpu ++ 93 :: rest) laws h.tgid
  generalize h.tgid.elim [] Tgid.column ++ 91 :: (h.cpu ++ 93 :: rest) = tail at htext htail ⊢
  have hpid := Strconv.digits_isDigit h.pid
  have hword : ∀ b ∈ h.comm, (!D.space b) = true := fun b hb => by rw [hcomm b hb]; rfl
  have hgap : Stops isDigit (List.replicate (h.pidGap + 1) 32 ++ tail) := by
    rintro b ⟨⟩
    rfl
  have hplain : Stops (!D.space ·) (List.replicate (h.pidGap + 1) 32 ++ tail) := by
    rintro b ⟨⟩
    exact congrArg not laws.space_blank
  have hblank : List.replicate (h.pidGap + 1) (32 : UInt8) ≠ [] := List.cons_ne_nil _ _
  have hdash : (!D.space 45) = true := congrArg not (laws.space_visible 45 (by decide))
  have hdigits : ∀ b ∈ digits 10 h.pid, (!D.space b) = true ∧ b ≠ 45 := fun b hb =>
    ⟨congrArg not (laws.space_digit (hpid b hb)), (ne_of_isDigit (by decide) (hpid b hb)).symm⟩
  rw [htext, headRe_eq, Hit.pad, star_bind (laws.blanks _)]
  · rw [plus_bind_sep h.comm_ne_nil hword hdash hdigits hplain, byte_bind,
      plus_bind (Strconv.digits_ne_nil _) hpid hgap, plus_bind hblank
        (laws.blanks _) htail]
    · intro t b s' hb
      have h40 := laws.ne_of_space (c := 40) (by decide) hb
      have h91 := laws.ne_of_space (c := 91) (by decide) hb
      rw [bind_eq, tgidRe, opt, lit_bind_of_ne h40]
      exact (List.append_nil _).trans (lit_bind_of_ne h91 _)
    · intro t b s' hb
      rw [bind_eq, plus_cons_of_neg (laws.space_digit hb)]
      rfl
    · intro t
      rfl
    · intro t b s' hb
      exact lit_bind_of_ne hb.symm _
    · intro t y hy hall
      rw [byte_bind]
      exact digits_space_nil hy hall
  · intro b hb
    obtain ⟨c, w, hw⟩ := List.exists_cons_of_ne_nil h.comm_ne_nil
    rw [hw] at hb hcomm
    obtain rfl := Option.some.inj hb
    exact hcomm _ List.mem_cons_self
  · intro t b s' hb
    rw [bind_eq, plus_cons_of_neg (by rw [hb]; rfl)]
    rfl

theorem cpuRe_eq (comm pid : Bytes) :
    cpuRe comm pid (91 :: (h.cpu ++ 93 :: rest)) = [((comm, pid), rest)] := by
  have hstop : Stops isDigit (93 :: rest) := by
    rintro b ⟨⟩
    rfl
  rw [cpuRe, byte_bind, plus_bind h.cpu_ne_nil h.cpu_digits hstop, byte_bind]
  · rfl
  · intro t b s' hb
    exact lit_bind_of_ne (ne_of_isDigit (by decide) hb) _

theorem cpuRe_of_ne (hb : b ≠ 91) (comm pid : Bytes) : cpuRe comm pid (b :: s) = [] :=
  lit_bind_of_ne hb.symm _

theorem tgidRe_nil (hb : b ≠ 40) : tgidRe D (b :: s) = [(none, b :: s)] := by
  rw [tgidRe, opt, lit_bind_of_ne hb.symm]
  rfl

/-- A column with blanks in it is not passed. -/
theorem tgidRe_of_blanks (laws : D.Laws) {n : Nat} :
    tgidRe D (40 :: (List.replicate (n + 1) 32 ++ s))
      = [(none, 40 :: (List.replicate (n + 1) 32 ++ s))] := by
  have hnot : (!D.space 32) = false := congrArg not laws.space_blank
  rw [tgidRe, opt, byte_bind, List.replicate_succ, List.cons_append, bind_eq,
    plus_cons_of_neg hnot]
  rfl

theorem tgidRe_column (laws : D.Laws) (t : Tgid) :
    tgidRe D (40 :: (t.text ++ 41 :: 32 :: 91 :: s))
      = [(some [32], 91 :: s), (none, 40 :: (t.text ++ 41 :: 32 :: 91 :: s))] := by
  have htext : ∀ b ∈ t.text, (!D.space b) = true := by
    intro b hb
    rcases t.text_digits b hb with hb | rfl
    · exact congrArg not (laws.space_digit hb)
    · exact congrArg not (laws.space_visible 45 (by decide))
  have hclose : (!D.space 41) = true := congrArg not (laws.space_visible 41 (by decide))
  have hplain : Stops (!D.space ·) (32 :: 91 :: s) := by
    rintro b ⟨⟩
    exact congrArg not laws.space_blank
  have hspaces : plus D.space (32 :: 91 :: s) = [([32], 91 :: s)] := by
    rw [plus, if_pos laws.space_blank, plus_cons_of_neg (laws.space_visible 91 (by decide))]
    rfl
  have hlast : ∀ y, 41 ∈ y → (∀ b ∈ y, (!D.space b) = true) →
      (do lit [41]; plus D.space) (41 :: (y ++ 32 :: 91 :: s)) = [] := by
    intro y hy hall
    obtain ⟨b, y, rfl⟩ := List.exists_cons_of_ne_nil (List.ne_nil_of_mem hy)
    have hb := hall b List.mem_cons_self
    rw [byte_bind, List.cons_append, plus_cons_of_neg (Bool.not_eq_true' _ ▸ hb)]
  have hcolumn : (do let _ ← plus (!D.space ·); lit [41]; plus D.space)
      (t.text ++ 41 :: 32 :: 91 :: s) = [([32], 91 :: s)] := by
    rw [← hspaces, ← byte_bind 41 (32 :: 91 :: s) fun _ => plus D.space]
    exact plus_bind_sep (v := []) t.text_ne_nil htext hclose (List.forall_mem_nil _) hplain (fun _ => rfl)
      (fun _ _ _ hb => lit_bind_of_ne hb.symm _) fun _ => hlast
  rw [tgidRe, opt, byte_bind, hcolumn]
  rfl

/-- The head of a line is read, if it is, as what it says. -/
theorem headRe_text (laws : D.Laws) (hcomm : ∀ b ∈ h.comm, D.space b = false) :
    headRe D (h.pad ++ (h.comm ++ (h.numbers ++ rest)))
      = if ∀ t ∈ h.tgid, t.blanks = 0 then [((h.comm, digits 10 h.pid), rest)] else [] := by
  rw [headRe_of_word laws hcomm]
  cases h.tgid with
  | none =>
      rw [if_pos nofun, bind_eq, Option.elim_none, List.nil_append, tgidRe_nil (by decide)]
      exact (List.flatMap_singleton ..).trans (cpuRe_eq _ _)
  | some t =>
      have hiff : (∀ t' ∈ some t, t'.blanks = 0) ↔ t.blanks = 0 := by
        simp only [Option.mem_some_iff, forall_eq']
      simp only [hiff, Option.elim_some, Tgid.column, List.append_assoc, List.cons_append,
        List.nil_append]
      cases t.blanks with
      | zero =>
          rw [if_pos rfl, bind_eq, List.replicate_zero, List.nil_append, tgidRe_column laws,
            List.flatMap_cons, cpuRe_eq, List.flatMap_singleton, cpuRe_of_ne (by decide)]
          rfl
      | succ n =>
          rw [if_neg (Nat.succ_ne_zero n), bind_eq, tgidRe_of_blanks laws]
          exact (List.flatMap_singleton ..).trans (cpuRe_of_ne (by decide) _ _)

/-- A task that is read is a word. -/
theorem space_of_mem_headRe {e : (Bytes × Bytes) × Bytes} (he : e ∈ headRe D s) :
    ∀ b ∈ e.1.1, D.space b = false := by
  rw [headRe_eq] at he
  obtain ⟨⟨_, s'⟩, -, he⟩ := List.mem_flatMap.mp he
  obtain ⟨⟨comm, s'⟩, hcomm, he⟩ := List.mem_flatMap.mp he
  obtain ⟨⟨_, s'⟩, -, he⟩ := List.mem_flatMap.mp he
  obtain ⟨⟨pid, s'⟩, -, he⟩ := List.mem_flatMap.mp he
  obtain ⟨⟨_, s'⟩, -, he⟩ := List.mem_flatMap.mp he
  obtain ⟨⟨_, s'⟩, -, he⟩ := List.mem_flatMap.mp he
  obtain ⟨⟨_, s'⟩, -, he⟩ := List.mem_flatMap.mp he
  obtain ⟨⟨_, s'⟩, -, he⟩ := List.mem_flatMap.mp he
  obtain ⟨⟨_, s'⟩, -, he⟩ := List.mem_flatMap.mp he
  obtain rfl := List.mem_singleton.mp he
  intro b hb
  exact Bool.not_eq_true' _ ▸ (mem_plus.mp hcomm).2.2 b hb

end Head

/-! ## The time and the probe -/

section Stamp

variable {D : Dialect} {h : Hit} {s y : Bytes}

theorem stampRe_eq : stampRe D = (do
    let _ ← plus D.space
    let ts ← plus isStamp
    lit [58]
    let _ ← plus D.space
    lit tlsPrefix
    let name ← plus isWord
    pure (ts, tlsPrefix ++ name)) := rfl

/-- What is between the parts of a time and a probe. -/
theorem exists_of_mem_stampRe {e : (Bytes × Bytes) × Bytes} (he : e ∈ stampRe D s) :
    ∃ ws ts ws' word, s = ws ++ ts ++ 58 :: (ws' ++ tlsPrefix ++ word ++ e.2)
      ∧ (∀ b ∈ ws, D.space b = true) ∧ (∀ b ∈ ts, isStamp b = true)
      ∧ (∀ b ∈ ws', D.space b = true) ∧ ∀ b ∈ word, isWord b = true := by
  rw [stampRe_eq] at he
  obtain ⟨⟨ws, s1⟩, hmem1, he⟩ := List.mem_flatMap.mp he
  obtain ⟨⟨ts, s2⟩, hmem2, he⟩ := List.mem_flatMap.mp he
  obtain ⟨⟨_, s3⟩, hmem3, he⟩ := List.mem_flatMap.mp he
  obtain ⟨⟨ws', s4⟩, hmem4, he⟩ := List.mem_flatMap.mp he
  obtain ⟨⟨_, s5⟩, hmem5, he⟩ := List.mem_flatMap.mp he
  obtain ⟨⟨word, s6⟩, hmem6, he⟩ := List.mem_flatMap.mp he
  obtain rfl := List.mem_singleton.mp he
  obtain ⟨rfl, -, hws⟩ := mem_plus.mp hmem1
  obtain ⟨rfl, -, hts⟩ := mem_plus.mp hmem2
  obtain rfl := mem_lit.mp hmem3
  obtain ⟨rfl, -, hws'⟩ := mem_plus.mp hmem4
  obtain rfl := mem_lit.mp hmem5
  obtain ⟨rfl, -, hword⟩ := mem_plus.mp hmem6
  refine ⟨ws, ts, ws', word, ?_, hws, hts, hws', hword⟩
  simp only [List.append_assoc, List.cons_append, List.nil_append]

theorem lt_of_isStamp {b : UInt8} (hb : isStamp b = true) : 32 < b ∧ b ≠ 58 := by
  rcases Bool.or_eq_true_iff.mp hb with hb | hb
  · exact ⟨(visible_of_isDigit hb).1, (ne_of_isDigit (by decide) hb).symm⟩
  · rw [beq_iff_eq.mp hb]
    decide

theorem lt_of_isWord {b : UInt8} (hb : isWord b = true) : 32 < b ∧ b ≠ 58 := by
  simp only [isWord, Bool.or_eq_true, Bool.and_eq_true, decide_eq_true_iff, beq_iff_eq,
    UInt8.le_iff_toNat_le, UInt8.lt_iff_toNat_lt, ← UInt8.toNat_inj, UInt8.reduceToNat,
    ne_eq] at hb ⊢
  omega

theorem isStamp_of_space (laws : D.Laws) {b : UInt8} (hb : D.space b = true) :
    isStamp b = false := by
  refine Bool.eq_false_iff.mpr fun hstamp => ?_
  rw [laws.space_visible b (lt_of_isStamp hstamp).1] at hb
  cases hb

/-- At its place the time is read with all of the probe first. -/
theorem exists_stampRe_stamp (laws : D.Laws) (s : Bytes) :
    ∃ l, stampRe D (h.stamp ++ s) = ((h.time, h.target.name), 58 :: s) :: l
      ∧ ∀ e ∈ l, (58 :: s).length ≤ e.2.length := by
  obtain ⟨hne, hword⟩ := probeTargets_word _ h.target_known
  have htext : h.stamp ++ s = [32] ++ (h.time ++ 58 :: ([32] ++ (tlsPrefix ++ (h.target.word ++ 58 :: s)))) := by
    simp only [Hit.stamp, ProbeTarget.name, List.append_assoc, List.cons_append, List.nil_append]
  have hstop : Stops isWord (58 :: s) := by
    rintro b ⟨⟩
    rfl
  have hcolon : ∀ t : Bytes, Stops isStamp (58 :: t) := by
    rintro t b ⟨⟩
    rfl
  have htls : ∀ t : Bytes, Stops D.space (tlsPrefix ++ t) := by
    rintro t b ⟨⟩
    exact laws.space_visible _ (by decide)
  have htime : ∀ t : Bytes, Stops D.space (h.time ++ t) := by
    intro t b hb
    obtain ⟨c, w, hw⟩ := List.exists_cons_of_ne_nil h.time_ne_nil
    have hstamp := h.time_stamp
    rw [hw] at hb hstamp
    obtain rfl := Option.some.inj hb
    exact laws.space_visible _ (lt_of_isStamp (hstamp _ List.mem_cons_self)).1
  have hblank : ∀ b ∈ ([32] : Bytes), D.space b = true := laws.blanks 1
  obtain ⟨l, hl, hlong⟩ := exists_plus_append hne hword hstop
  rw [htext, stampRe_eq, plus_bind (List.cons_ne_nil _ _) hblank (htime _),
    plus_bind h.time_ne_nil h.time_stamp (hcolon _), byte_bind,
    plus_bind (List.cons_ne_nil _ _) hblank (htls _), lit_bind, bind_eq, hl]
  · refine ⟨_, rfl, fun e he => ?_⟩
    obtain ⟨e', he', hmem⟩ := List.mem_flatMap.mp he
    rw [List.mem_singleton.mp hmem]
    exact hlong e' he'
  · intro t b s' hb
    exact lit_bind_of_ne (laws.ne_of_space (by decide) hb) _
  · intro t b s' hb
    exact lit_bind_of_ne (lt_of_isStamp hb).2.symm _
  · intro t b s' hb
    rw [bind_eq, plus_cons_of_neg (isStamp_of_space laws hb)]
    rfl

/-- No other way to read what is before the arguments goes on to them. -/
theorem length_of_mem_stampRe (laws : D.Laws) {e : (Bytes × Bytes) × Bytes} (hy : 58 ∉ y)
    (he : e ∈ stampRe D (y ++ (h.stamp ++ s))) : (58 :: s).length ≤ e.2.length := by
  obtain ⟨ws, ts, ws', word, htext, hws, hts, hws', hword⟩ := exists_of_mem_stampRe he
  have hspace : ∀ w : Bytes, (∀ b ∈ w, D.space b = true) → 58 ∉ w := fun w hw hmem =>
    laws.ne_of_space (by decide) (hw 58 hmem) rfl
  have hfirst : 58 ∉ ws ++ ts := by
    rw [List.mem_append, not_or]
    exact ⟨hspace ws hws, fun hmem => (lt_of_isStamp (hts 58 hmem)).2 rfl⟩
  have hsecond : 58 ∉ ws' ++ tlsPrefix ++ word := by
    simp only [List.mem_append, not_or]
    exact ⟨⟨hspace ws' hws', by decide⟩, fun hmem => (lt_of_isWord (hword 58 hmem)).2 rfl⟩
  have hline : 58 ∉ y ++ 32 :: h.time := by
    simp only [List.mem_append, List.mem_cons, not_or]
    exact ⟨hy, by decide, fun hmem => (lt_of_isStamp (h.time_stamp 58 hmem)).2 rfl⟩
  have hstamp : y ++ (h.stamp ++ s) = (y ++ 32 :: h.time) ++ 58 :: (32 :: h.target.name ++ 58 :: s) := by
    simp only [Hit.stamp, List.append_assoc, List.cons_append, List.nil_append]
  have hcut := congrArg (cut [58]) (hstamp.symm.trans htext)
  rw [cut_byte hline, cut_byte hfirst] at hcut
  obtain ⟨-, hrest⟩ := Prod.mk.inj (Option.some.inj hcut)
  rcases List.append_eq_append_iff.mp hrest with ⟨z, hz, hs⟩ | ⟨z, -, hs⟩
  · cases z with
    | nil => exact Nat.le_of_eq (congrArg List.length hs)
    | cons b z =>
        obtain ⟨rfl, -⟩ := List.cons.inj hs
        exact absurd (hz ▸ List.mem_append_right _ List.mem_cons_self) hsecond
  · rw [hs, List.length_append]
    exact Nat.le_add_left _ _

/-- The time and the probe that are found in a text. -/
def lastStamp (D : Dialect) (s : Bytes) : Option (Bytes × Bytes) :=
  (D.pick (anywhere D.any (stampRe D) s)).map Prod.fst

theorem any_of_lt (laws : D.Laws) {b : UInt8} (hb : 31 < b) : D.any b = true := by
  refine laws.any_line b ?_
  rintro rfl
  exact absurd hb (by decide)

theorem lt_of_mem_name : ∀ b ∈ h.target.name, 32 < b := by
  intro b hb
  rcases List.mem_append.mp hb with hb | hb
  · have hall : ∀ b ∈ tlsPrefix, 32 < b := by decide +kernel
    exact hall b hb
  · exact (lt_of_isWord ((probeTargets_word _ h.target_known).2 b hb)).1

/-- Where nothing is white space no time begins. -/
theorem anywhere_visible (laws : D.Laws) {u : Bytes} (hu : ∀ b ∈ u, 32 < b) :
    anywhere D.any (stampRe D) (u ++ s) = anywhere D.any (stampRe D) s := by
  refine anywhere_skip (fun b hb => any_of_lt laws (UInt8.lt_trans (by decide) (hu b hb))) ?_
  intro y hne hy
  obtain ⟨b, y, rfl⟩ := List.exists_cons_of_ne_nil hne
  have hb := hu b (hy.subset List.mem_cons_self)
  rw [List.cons_append, stampRe_eq, bind_eq, plus_cons_of_neg (laws.space_visible b hb)]
  rfl

/-- After the time of a line the next place is in the arguments. -/
theorem anywhere_stamp (laws : D.Laws) : anywhere D.any (stampRe D) (h.stamp ++ s)
    = anywhere D.any (stampRe D) s ++ stampRe D (h.stamp ++ s) := by
  have hname : stampRe D (32 :: (h.target.name ++ 58 :: s)) = [] := by
    have hstop : Stops D.space (h.target.name ++ 58 :: s) := by
      rintro b ⟨⟩
      exact laws.space_visible _ (by decide)
    rw [stampRe_eq, bind_eq, plus, if_pos laws.space_blank, plus_stops hstop]
    rfl
  have htime : ∀ b ∈ h.time ++ [58], 32 < b := by
    intro b hb
    rcases List.mem_append.mp hb with hb | hb
    · exact (lt_of_isStamp (h.time_stamp b hb)).1
    · rw [List.mem_singleton.mp hb]
      decide
  have hprobe : ∀ b ∈ h.target.name ++ [58], 32 < b := by
    intro b hb
    rcases List.mem_append.mp hb with hb | hb
    · exact lt_of_mem_name b hb
    · rw [List.mem_singleton.mp hb]
      decide
  have hany : D.any 32 = true := any_of_lt laws (by decide)
  have htail := anywhere_visible laws hprobe (s := s)
  have hbehind : anywhere D.any (stampRe D) (h.time ++ 58 :: 32 :: (h.target.name ++ 58 :: s))
      = anywhere D.any (stampRe D) s := by
    have hskip := anywhere_visible laws htime (s := 32 :: (h.target.name ++ 58 :: s))
    rw [List.append_assoc, List.singleton_append] at hskip htail
    rw [hskip, anywhere_cons hany, hname, List.append_nil, htail]
  have htext : h.stamp ++ s = 32 :: (h.time ++ 58 :: 32 :: (h.target.name ++ 58 :: s)) := by
    simp only [Hit.stamp, List.append_assoc, List.cons_append, List.nil_append]
  rw [htext, anywhere_cons hany, hbehind]

/-- A time and a probe in the arguments are taken for those of the line. -/
theorem lastStamp_line (laws : D.Laws) (s : Bytes) :
    lastStamp D (h.flagText ++ (h.stamp ++ s))
      = (lastStamp D s).or (some (h.time, h.target.name)) := by
  have hflags : ∀ b ∈ h.flagText, 31 < b ∧ b ≠ 58 := by
    intro b hb
    rcases List.mem_cons.mp hb with rfl | hb
    · decide
    · rcases List.mem_append.mp hb with hb | hb
      · obtain ⟨hlow, -, -, hcolon⟩ := h.flags_text b hb
        exact ⟨UInt8.lt_trans (by decide) hlow, hcolon⟩
      · rw [List.eq_of_mem_replicate hb]
        decide
  obtain ⟨l, hline, hl⟩ := exists_anywhere_append (r := stampRe D) (s := h.stamp ++ s)
    fun b hb => any_of_lt laws (hflags b hb).1
  obtain ⟨l', hstamp, hl'⟩ := @exists_stampRe_stamp D h laws s
  have hlong : ∀ e ∈ l' ++ l, (58 :: s).length ≤ e.2.length := by
    intro e he
    rcases List.mem_append.mp he with he | he
    · exact hl' e he
    · obtain ⟨y, hy, hmem⟩ := hl e he
      exact length_of_mem_stampRe laws (fun h58 => (hflags 58 (hy.subset h58)).2 rfl) hmem
  have hways : anywhere D.any (stampRe D) (h.flagText ++ (h.stamp ++ s))
      = anywhere D.any (stampRe D) s ++ ((h.time, h.target.name), 58 :: s) :: (l' ++ l) := by
    rw [hline, anywhere_stamp laws, hstamp, List.append_assoc, List.cons_append]
  rw [lastStamp, lastStamp, hways]
  by_cases hnone : anywhere D.any (stampRe D) s = []
  · rw [hnone, List.nil_append, laws.picks.cons hlong, laws.picks.nil]
    rfl
  · obtain ⟨e, he⟩ := Option.isSome_iff_exists.mp (laws.picks.isSome hnone)
    rw [laws.picks.append hnone, he]
    · rfl
    · intro d hd d' hd'
      obtain ⟨t, s', hs, hmem⟩ := exists_of_mem_anywhere hd
      obtain ⟨ws, ts, ws', word, hs', -⟩ := exists_of_mem_stampRe hmem
      have hshort : d.2.length ≤ s.length := by
        rw [hs, hs']
        simp only [List.length_append, List.length_cons]
        omega
      have hfar : (58 :: s).length ≤ d'.2.length := by
        rcases List.mem_cons.mp hd' with rfl | hd'
        · exact Nat.le_refl _
        · exact hlong d' hd'
      exact hshort.trans ((Nat.le_succ _).trans hfar)

end Stamp

section Trace

variable {D : Dialect} {h : Hit} {s : Bytes}

/-- What is read from a line, if its task is a word. -/
theorem pick_traceRe (laws : D.Laws) (hcomm : ∀ b ∈ h.comm, D.space b = false) :
    (D.pick (traceRe D (h.pad ++ (h.comm ++ (h.numbers ++ (h.flagText ++ (h.stamp ++ s))))))).map
        Prod.fst
      = if ∀ t ∈ h.tgid, t.blanks = 0 then
          some ((h.comm, digits 10 h.pid), (lastStamp D s).getD (h.time, h.target.name))
        else none := by
  have hmap : ∀ (task : Bytes × Bytes) (t : Bytes),
      ((anywhere D.any (stampRe D) >>= fun stamp => pure (task, stamp)) : Regex _) t
        = (anywhere D.any (stampRe D) t).map fun e => ((task, e.1), e.2) := fun task t =>
    List.map_eq_flatMap.symm
  rw [traceRe, bind_eq, headRe_text laws hcomm]
  by_cases htgid : ∀ t ∈ h.tgid, t.blanks = 0
  · rw [if_pos htgid, if_pos htgid, List.flatMap_singleton, hmap, laws.picks.map, Option.map_map]
    have hstamp := @lastStamp_line D h laws s
    rw [lastStamp] at hstamp
    have hpair := congrArg (Option.map fun stamp => ((h.comm, digits 10 h.pid), stamp)) hstamp
    rw [Option.map_map] at hpair
    refine hpair.trans ?_
    cases lastStamp D s <;> rfl
  · rw [if_neg htgid, if_neg htgid, List.flatMap_nil, laws.picks.nil]
    rfl

end Trace

/-! ## The host -/

/-- A key of a host, with the quote before it. -/
def IsKey (key : Bytes) : Prop := key = arg1Key ∨ key = sniKey

/-- The text after the first `arg1="` or `sni="`. -/
def afterKey : Bytes → Option Bytes
  | [] => none
  | b :: s =>
      if (arg1Key ++ [61, 34]).isPrefixOf (b :: s) then some ((b :: s).drop 6)
      else if (sniKey ++ [61, 34]).isPrefixOf (b :: s) then some ((b :: s).drop 5)
      else afterKey s

section Host

variable {pick : {α : Type} → List (α × Bytes) → Option (α × Bytes)} {key host after s u : Bytes}

theorem sniRe_key (hkey : IsKey key) (hhost : 34 ∉ host) :
    sniRe (key ++ ([61, 34] ++ (host ++ 34 :: after))) = [(host, after)] := by
  have hstop : Stops (· ≠ 34) (34 :: after) := by
    rintro b ⟨⟩
    rfl
  have hplain : ∀ b ∈ host, decide (b ≠ 34) = true := fun b hb =>
    decide_eq_true fun heq => hhost (heq ▸ hb)
  have hhere : (do lit [61, 34]; let host ← star (· ≠ 34); lit [34]; pure host : Regex Bytes)
      ([61, 34] ++ (host ++ 34 :: after)) = [(host, after)] := by
    rw [lit_bind, star_bind hplain hstop, byte_bind]
    · rfl
    · intro t b s' hb
      exact lit_bind_of_ne (of_decide_eq_true hb).symm _
  have halt : alt (lit arg1Key) (lit sniKey) (key ++ ([61, 34] ++ (host ++ 34 :: after)))
      = [((), [61, 34] ++ (host ++ 34 :: after))] := by
    rcases hkey with rfl | rfl
    · rw [alt, lit_append]
      rfl
    · rw [alt, lit_append]
      rfl
  rw [sniRe, bind_eq, halt, List.flatMap_singleton]
  exact hhere

theorem sniRe_nil (h : ∀ key, IsKey key → ¬key ++ [61, 34] <+: s) : sniRe s = [] := by
  refine List.eq_nil_iff_forall_not_mem.mpr fun e he => ?_
  obtain ⟨⟨_, s1⟩, halt, he⟩ := List.mem_flatMap.mp he
  obtain ⟨⟨_, s2⟩, hquote, -⟩ := List.mem_flatMap.mp he
  obtain rfl := mem_lit.mp hquote
  rcases List.mem_append.mp halt with hkey | hkey
  · refine h arg1Key (Or.inl rfl) ⟨s2, ?_⟩
    rw [mem_lit.mp hkey, List.append_assoc]
  · refine h sniKey (Or.inr rfl) ⟨s2, ?_⟩
    rw [mem_lit.mp hkey, List.append_assoc]

/-- What is in quotes after a key. -/
theorem sniRe_quoted (hkey : IsKey key) (hs : 34 ∈ s) :
    ∃ after, sniRe (key ++ ([61, 34] ++ s)) = [(s.takeWhile (· ≠ 34), after)] := by
  obtain ⟨host, after, rfl, hhost⟩ := List.eq_append_cons_of_mem hs
  have hplain : ∀ b ∈ host, decide (b ≠ 34) = true := fun b hb =>
    decide_eq_true fun heq => hhost (heq ▸ hb)
  refine ⟨after, ?_⟩
  rw [sniRe_key hkey hhost, List.takeWhile_append_of_pos hplain]
  simp

theorem dash_not_mem (hkey : IsKey key) : 45 ∉ key ++ [61, 34] := by
  rcases hkey with rfl | rfl <;> decide

/-- A key does not go on over a dash. -/
theorem prefix_of_dash (hkey : IsKey key) (h : key ++ [61, 34] <+: u ++ 45 :: s) :
    key ++ [61, 34] <+: u := by
  rcases List.prefix_or_prefix_of_prefix h (List.prefix_append u (45 :: s)) with hu | ⟨z, hz⟩
  · exact hu
  · rw [← hz, List.prefix_append_right_inj] at h
    cases z with
    | nil =>
        rw [List.append_nil] at hz
        rw [hz]
    | cons b z =>
        obtain ⟨rfl, -⟩ := List.cons_prefix_cons.mp h
        exact absurd (hz ▸ List.mem_append_right _ List.mem_cons_self) (dash_not_mem hkey)

theorem search_sniRe_append (hpick : Picks pick) (hs : 34 ∈ s) (u : Bytes) :
    search pick sniRe (u ++ 45 :: s) = ((afterKey u).map fun after =>
      (after ++ 45 :: s).takeWhile (· ≠ 34)).or (search pick sniRe (45 :: s)) := by
  have hfound : ∀ key t, IsKey key → search pick sniRe (key ++ [61, 34] ++ t ++ 45 :: s)
      = some ((t ++ 45 :: s).takeWhile (· ≠ 34)) := by
    intro key t hkey
    obtain ⟨after, hafter⟩ := sniRe_quoted hkey
      (List.mem_append_right t (List.mem_cons_of_mem 45 hs))
    rw [List.append_assoc, List.append_assoc]
    exact search_here hpick hafter
  induction u with
  | nil => rfl
  | cons b u ih =>
      rw [afterKey]
      by_cases harg1 : arg1Key ++ [61, 34] <+: b :: u
      · obtain ⟨t, ht⟩ := harg1
        rw [← ht, if_pos (List.isPrefixOf_iff_prefix.mpr (List.prefix_append _ t)),
          hfound _ _ (Or.inl rfl)]
        rfl
      · rw [if_neg (mt List.isPrefixOf_iff_prefix.mp harg1)]
        by_cases hsni : sniKey ++ [61, 34] <+: b :: u
        · obtain ⟨t, ht⟩ := hsni
          rw [← ht, if_pos (List.isPrefixOf_iff_prefix.mpr (List.prefix_append _ t)),
            hfound _ _ (Or.inr rfl)]
          rfl
        · have hnil : sniRe (b :: u ++ 45 :: s) = [] := by
            refine sniRe_nil fun key hkey hstart => ?_
            rcases hkey with rfl | rfl
            · exact harg1 (prefix_of_dash (Or.inl rfl) hstart)
            · exact hsni (prefix_of_dash (Or.inr rfl) hstart)
          rw [if_neg (mt List.isPrefixOf_iff_prefix.mp hsni), ← ih, List.cons_append, search,
            ← List.cons_append, hnil, hpick.nil]
          rfl

/-- No key ends as another one. -/
theorem eq_nil_of_key {key' y : Bytes} (hkey : IsKey key) (hkey' : IsKey key')
    (h : key' = y ++ key) : y = [] := by
  have hsuffix : key <:+ key' := ⟨y, h.symm⟩
  rcases hkey with rfl | rfl <;> rcases hkey' with rfl | rfl
  · exact List.append_left_eq_self.mp h.symm
  · exact absurd hsuffix (by decide)
  · exact absurd hsuffix (by decide)
  · exact List.append_left_eq_self.mp h.symm

/-- Without a quote before it the key of a host is the first. -/
theorem search_sniRe_key (hpick : Picks pick) (hu : 34 ∉ u) (hkey : IsKey key) (hhost : 34 ∉ host) :
    search pick sniRe (u ++ (key ++ ([61, 34] ++ (host ++ 34 :: after)))) = some host := by
  have hquote : ∀ key, IsKey key → 34 ∉ key ++ [61] := by
    rintro key (rfl | rfl) <;> decide
  rw [search_skip hpick, search_here hpick (sniRe_key hkey hhost)]
  intro y hne hy
  refine sniRe_nil fun key' hkey' => ?_
  rintro ⟨t, ht⟩
  have hleft : key' ++ [61, 34] ++ t = key' ++ [61] ++ 34 :: t := by
    simp only [List.append_assoc, List.cons_append, List.nil_append]
  have hright : y ++ (key ++ ([61, 34] ++ (host ++ 34 :: after)))
      = y ++ (key ++ [61]) ++ 34 :: (host ++ 34 :: after) := by
    simp only [List.append_assoc, List.cons_append, List.nil_append]
  have hbefore : 34 ∉ y ++ (key ++ [61]) := by
    rw [List.mem_append, not_or]
    exact ⟨fun hmem => hu (hy.subset hmem), hquote key hkey⟩
  have hcut := congrArg (cut [34]) (hleft.symm.trans (ht.trans hright))
  rw [cut_byte (hquote key' hkey'), cut_byte hbefore] at hcut
  obtain ⟨hkeys, -⟩ := Prod.mk.inj (Option.some.inj hcut)
  rw [← List.append_assoc] at hkeys
  exact hne (eq_nil_of_key hkey hkey' (List.append_cancel_right hkeys))

end Host

/-! ## Lines that are read as they were written -/

namespace Hit

variable (h : Hit)

/-- What is between the task and the quote before the host. -/
def untilQuote (r : Recorded) : Bytes :=
  h.numbers ++ (h.flagText ++ (h.stamp ++ (r.before ++ (r.key ++ [61]))))

/-- What is in quotes after the first key of a line. -/
def quoted (r : Recorded) : Bytes :=
  (afterKey h.comm).elim r.host fun after => (after ++ h.untilQuote r).takeWhile (· ≠ 34)

/-- The task is a word, no blanks are in the column of the thread group, and the arguments have no
other time and probe. -/
structure Legible (D : Dialect) (args : Bytes) : Prop where
  word : ∀ b ∈ h.comm, D.space b = false
  column : ∀ t ∈ h.tgid, t.blanks = 0
  last : ∀ stamp ∈ lastStamp D args, stamp = (h.time, h.target.name)

end Hit

section Reads

variable {D : Dialect} {h : Hit}

theorem takeWhile_quote (s t : Bytes) :
    (s ++ 34 :: t).takeWhile (· ≠ 34) = s.takeWhile (· ≠ 34) := by
  induction s with
  | nil => rfl
  | cons b s ih =>
      rw [List.cons_append, List.takeWhile_cons, List.takeWhile_cons, ih]

/-- What is between the task and the arguments has no byte of control and no quote. -/
theorem clean_of_mem : ∀ b ∈ h.numbers ++ (h.flagText ++ h.stamp), 31 < b ∧ b ≠ 34 := by
  have hdigits : ∀ w : Bytes, (∀ b ∈ w, isDigit b = true) → ∀ b ∈ w, 31 < b ∧ b ≠ 34 :=
    fun w hw b hb => ⟨UInt8.lt_trans (by decide) (visible_of_isDigit (hw b hb)).1,
      (ne_of_isDigit (by decide) (hw b hb)).symm⟩
  have hblanks : ∀ n, ∀ b ∈ List.replicate n (32 : UInt8), 31 < b ∧ b ≠ 34 := by
    intro n b hb
    rw [List.eq_of_mem_replicate hb]
    decide
  have hcolumn : ∀ b ∈ h.tgid.elim [] Tgid.column, 31 < b ∧ b ≠ 34 := by
    cases h.tgid with
    | none => exact nofun
    | some t =>
        have htext : ∀ b ∈ t.text, 31 < b ∧ b ≠ 34 := by
          intro b hb
          rcases t.text_digits b hb with hdigit | rfl
          · exact hdigits [b] (by simpa using hdigit) b (List.mem_singleton_self b)
          · decide
        simp only [Option.elim_some, Tgid.column, List.forall_mem_cons, List.forall_mem_append]
        exact ⟨by decide, hblanks _, htext, by decide, by decide, nofun⟩
  have hflags : ∀ b ∈ h.flags, 31 < b ∧ b ≠ 34 := fun b hb =>
    ⟨UInt8.lt_trans (by decide) (h.flags_text b hb).1, (h.flags_text b hb).2.2.1⟩
  have htime : ∀ b ∈ h.time, 31 < b ∧ b ≠ 34 := by
    intro b hb
    have hstamp := h.time_stamp b hb
    refine ⟨UInt8.lt_trans (by decide) (lt_of_isStamp hstamp).1, ?_⟩
    rintro rfl
    cases hstamp
  have hname : ∀ b ∈ h.target.name, 31 < b ∧ b ≠ 34 := by
    intro b hb
    refine ⟨UInt8.lt_trans (by decide) (lt_of_mem_name b hb), ?_⟩
    rintro rfl
    rcases List.mem_append.mp hb with hb | hb
    · exact absurd hb (by decide)
    · cases (probeTargets_word _ h.target_known).2 34 hb
  simp only [Hit.numbers, Hit.flagText, Hit.stamp, List.forall_mem_cons, List.forall_mem_append]
  exact ⟨⟨by decide, hdigits _ (Strconv.digits_isDigit _), hblanks _, hcolumn, by decide,
    hdigits _ h.cpu_digits, by decide, nofun⟩, ⟨by decide, hflags, hblanks _⟩,
    by decide, htime, by decide, by decide, hname, by decide, nofun⟩

/-- The host of a line that records one. -/
theorem search_text {pick : {α : Type} → List (α × Bytes) → Option (α × Bytes)}
    (hpick : Picks pick) (r : Recorded) :
    search pick sniRe (h.pad ++ (h.comm ++ (h.numbers ++ (h.flagText ++ (h.stamp ++ r.text)))))
      = some (h.quoted r) := by
  have hquote : h.numbers ++ (h.flagText ++ (h.stamp ++ r.text))
      = h.untilQuote r ++ 34 :: (r.host ++ 34 :: r.after) := by
    simp only [Recorded.text, Hit.untilQuote, List.append_assoc, List.cons_append, List.nil_append]
  have hkey : h.numbers ++ (h.flagText ++ (h.stamp ++ r.text))
      = h.numbers ++ (h.flagText ++ (h.stamp ++ r.before))
        ++ (r.key ++ ([61, 34] ++ (r.host ++ 34 :: r.after))) := by
    simp only [Recorded.text, List.append_assoc]
  have hhost : 34 ∉ r.host := fun hmem => (r.host_text 34 hmem).1 rfl
  have hbefore : 34 ∉ h.numbers ++ (h.flagText ++ (h.stamp ++ r.before)) := by
    intro hmem
    rw [← List.append_assoc h.flagText, ← List.append_assoc] at hmem
    rcases List.mem_append.mp hmem with hmem | hmem
    · exact (clean_of_mem 34 hmem).2 rfl
    · exact (r.before_text 34 hmem).1 rfl
  have hrest := @search_sniRe_key pick r.key r.host r.after _ hpick hbefore r.key_known hhost
  rw [← hkey, hquote] at hrest
  rw [hquote, search_skip hpick]
  · obtain ⟨w, hw⟩ : ∃ w, h.untilQuote r = 45 :: w := ⟨_, rfl⟩
    have happend := search_sniRe_append hpick (s := w ++ 34 :: (r.host ++ 34 :: r.after))
      (List.mem_append_right w List.mem_cons_self) h.comm
    rw [← List.cons_append, ← hw, hrest] at happend
    rw [happend, Hit.quoted]
    cases afterKey h.comm with
    | none => rfl
    | some after =>
        rw [Option.map_some, Option.some_or, ← List.append_assoc, takeWhile_quote]
        rfl
  · intro y hne hy
    obtain ⟨b, y, rfl⟩ := List.exists_cons_of_ne_nil hne
    obtain rfl := List.eq_of_mem_replicate (hy.subset List.mem_cons_self)
    refine sniRe_nil fun key hkey hstart => ?_
    rcases hkey with rfl | rfl
    · exact absurd (List.cons_prefix_cons.mp hstart).1 (by decide)
    · exact absurd (List.cons_prefix_cons.mp hstart).1 (by decide)

/-- A matcher, with texts clipped to the room there is for them. -/
def readWith (D : Dialect) (clip : Nat → Bytes → Bytes) (number : Bytes → Int) (line : Bytes) :
    Option TraceEvent :=
  (D.pick (traceRe D line)).map fun (((comm, pid), ts, probeName), _) =>
    let probeName := clip 63 probeName
    let dir := dirOf probeName
    let sni := if dir = .sni then clip 255 ((search D.pick sniRe line).getD []) else []
    ⟨clip 255 comm, number pid, clip 31 ts, probeName, dir, sni⟩

/-- The task that is read is a word. -/
theorem word_of_pick (laws : D.Laws) {line : Bytes} {e : ((Bytes × Bytes) × Bytes × Bytes) × Bytes}
    (he : D.pick (traceRe D line) = some e) : ∀ b ∈ e.1.1.1, D.space b = false := by
  obtain ⟨task, hhead, hmem⟩ := List.mem_flatMap.mp (laws.picks.mem he)
  obtain ⟨stamp, -, hone⟩ := List.mem_flatMap.mp hmem
  obtain rfl := List.mem_singleton.mp hone
  exact space_of_mem_headRe hhead

/-- The time and the probe that are read are those of the hit if the arguments have no others. -/
theorem lastStamp_getD_iff {args : Bytes} : (lastStamp D args).getD (h.time, h.target.name)
      = (h.time, h.target.name)
    ↔ ∀ stamp ∈ lastStamp D args, stamp = (h.time, h.target.name) := by
  cases lastStamp D args with
  | none => exact iff_of_true rfl nofun
  | some stamp =>
      constructor
      · rintro hstamp _ ⟨⟩
        exact hstamp
      · exact fun hall => hall stamp rfl

/-- A line of a hit with other arguments that record the same host. -/
theorem readWith_readAs_iff (laws : D.Laws) {clip : Nat → Bytes → Bytes} {number : Bytes → Int}
    {args : Args} (hclip : ∀ {n : Nat} {s t : Bytes}, t.length < n → (clip n s = t ↔ s = t))
    (hnumber : number (digits 10 h.pid) = h.pid)
    (hargs : ∀ r, h.args = .sni r → ∃ r', args = .sni r' ∧ h.quoted r' = h.quoted r) :
    h.ReadAs (readWith D clip number
        (h.pad ++ (h.comm ++ (h.numbers ++ (h.flagText ++ (h.stamp ++ args.text))))))
      ↔ h.Legible D args.text
        ∧ ∀ r, h.target.dir = .sni → h.args = .sni r → clip 255 (h.quoted r) = r.host := by
  have hcomm : h.comm.length < 255 := h.comm_short.trans (by decide)
  have hname := length_name _ h.target_known
  have hdir := dirOf_name _ h.target_known
  generalize hline : h.pad ++ (h.comm ++ (h.numbers ++ (h.flagText ++ (h.stamp ++ args.text)))) = line
  have hhost : ∀ r, h.args = .sni r → (search D.pick sniRe line).getD [] = h.quoted r := by
    intro r hr
    obtain ⟨r', rfl, hquoted⟩ := hargs r hr
    rw [← hline, Args.text, search_text laws.picks, hquoted]
    rfl
  have hpick := fun hword => @pick_traceRe D h args.text laws hword
  rw [hline] at hpick
  have hprobe : clip 63 h.target.name = h.target.name := (hclip hname).mpr rfl
  have hsni : ∀ r, h.target.dir = .sni → h.args = .sni r →
      (if dirOf (clip 63 h.target.name) = .sni then
        clip 255 ((search D.pick sniRe line).getD []) else []) = clip 255 (h.quoted r) := by
    intro r hsni hr
    rw [hprobe, if_pos (hdir.trans hsni), hhost r hr]
  constructor
  · rintro ⟨e, he, hreadComm, -, hreadTs, hreadName, -, hreadSni⟩
    obtain ⟨⟨⟨⟨comm, pid⟩, ts, name⟩, rest⟩, hmatch, rfl⟩ := Option.map_eq_some_iff.mp he
    obtain rfl := (hclip hcomm).mp hreadComm
    obtain rfl := (hclip h.time_short).mp hreadTs
    obtain rfl := (hclip hname).mp hreadName
    have hword := word_of_pick laws hmatch
    have hread := hpick hword
    rw [hmatch] at hread
    by_cases hcolumn : ∀ t ∈ h.tgid, t.blanks = 0
    · rw [if_pos hcolumn] at hread
      obtain ⟨-, hstamp⟩ := Prod.mk.inj (Option.some.inj hread)
      refine ⟨⟨hword, hcolumn, lastStamp_getD_iff.mp hstamp.symm⟩, fun r htarget hr => ?_⟩
      exact (hsni r htarget hr).symm.trans (hreadSni r htarget hr)
    · rw [if_neg hcolumn] at hread
      cases hread
  · rintro ⟨⟨hword, hcolumn, hlast⟩, hquoted⟩
    have hread := hpick hword
    rw [if_pos hcolumn, lastStamp_getD_iff.mpr hlast] at hread
    obtain ⟨⟨m, rest⟩, hmatch, rfl⟩ := Option.map_eq_some_iff.mp hread
    refine ⟨_, by rw [readWith, hmatch]; rfl, (hclip hcomm).mpr rfl, hnumber,
      (hclip h.time_short).mpr rfl, hprobe, (congrArg dirOf hprobe).trans hdir, ?_⟩
    intro r htarget hr
    exact (hsni r htarget hr).trans (hquoted r htarget hr)

/-! ### In C up to a NUL -/

/-- Arguments up to a NUL. -/
def Args.clipped : Args → Args
  | plain text => plain (cstr text)
  | sni r => sni { r with after := cstr r.after }

theorem cstr_append {s : Bytes} (hs : 0 ∉ s) (t : Bytes) : cstr (s ++ t) = s ++ cstr t :=
  List.takeWhile_append_of_pos fun _ hb => decide_eq_true fun heq => hs (heq ▸ hb)

theorem Args.text_clipped (args : Args) : args.clipped.text = cstr args.text := by
  cases args with
  | plain text => rfl
  | sni r =>
      have hkey : 0 ∉ r.key := by
        rcases r.key_known with hkey | hkey <;> rw [hkey] <;> decide
      have hhost : 0 ∉ r.host ++ [34] := by
        rw [List.mem_append, not_or]
        exact ⟨fun hmem => (r.host_text 0 hmem).2 rfl, by decide⟩
      have hquote : r.host ++ 34 :: r.after = r.host ++ [34] ++ r.after := by
        rw [List.append_assoc, List.singleton_append]
      rw [Args.text, Recorded.text, cstr_append fun hmem => (r.before_text 0 hmem).2 rfl,
        cstr_append hkey, cstr_append (by decide), hquote, cstr_append hhost, List.append_assoc]
      rfl

theorem cstr_text : cstr h.text
    = h.pad ++ (h.comm ++ (h.numbers ++ (h.flagText ++ (h.stamp ++ h.args.clipped.text)))) := by
  have hpad : 0 ∉ h.pad := fun hmem => absurd (List.eq_of_mem_replicate hmem) (by decide)
  have hclean : 0 ∉ h.numbers ++ (h.flagText ++ h.stamp) := fun hmem =>
    absurd (clean_of_mem 0 hmem).1 (by decide)
  have hbehind : h.afterComm = h.numbers ++ (h.flagText ++ h.stamp) ++ h.args.text := by
    simp only [Hit.afterComm, List.append_assoc]
  rw [Hit.text, cstr_append hpad, cstr_append fun hmem => (h.comm_text 0 hmem).1 rfl, hbehind,
    cstr_append hclean, Args.text_clipped]
  simp only [List.append_assoc]

theorem Go.readAs_iff : h.ReadAs (Go.parseLine h.text) ↔ h.Legible Go.dialect h.args.text
    ∧ ∀ r, h.target.dir = .sni → h.args = .sni r → h.quoted r = r.host := by
  have hpid := h.pid_lt
  have hnumber := congrArg Prod.fst (@Strconv.atoi_digits h.pid (by omega))
  exact @readWith_readAs_iff dialect h laws (fun _ s => s) (fun s => (Strconv.atoi s).1) h.args
    (fun _ => Iff.rfl) hnumber fun r hr => ⟨r, hr, rfl⟩

/-- A short text fits. -/
theorem take_eq_iff {n : Nat} {s t : Bytes} (h : t.length < n) : s.take n = t ↔ s = t := by
  constructor
  · rintro rfl
    rw [List.length_take] at h
    exact (List.take_of_length_le (by omega)).symm
  · rintro rfl
    exact List.take_of_length_le (Nat.le_of_lt h)

theorem C.readAs_iff : h.ReadAs (C.parseLine h.text) ↔ h.Legible C.dialect (cstr h.args.text)
    ∧ ∀ r, h.target.dir = .sni → h.args = .sni r → (h.quoted r).take 255 = r.host := by
  have hpid := h.pid_lt
  have hnumber : Libc.atoi ((digits 10 h.pid).take 31) = h.pid := by
    have hlength := @Strconv.length_digits_le h.pid 10 (by decide) (by omega)
    rw [List.take_of_length_le (by omega), Libc.atoi, Libc.strtol_digits (by omega),
      int32_eq (by omega) (by omega)]
  have hargs : ∀ r, h.args = .sni r → ∃ r', h.args.clipped = .sni r' ∧ h.quoted r' = h.quoted r := by
    intro r hr
    rw [hr]
    exact ⟨_, rfl, rfl⟩
  have hread := @readWith_readAs_iff dialect h laws List.take (fun s => Libc.atoi (s.take 31))
    h.args.clipped take_eq_iff hnumber hargs
  rw [← cstr_text, Args.text_clipped] at hread
  exact hread

end Reads

/-- A line is read as it was written exactly when the task is a word, the column of the thread group
has no blanks in it, no other time and probe are in the arguments, and no other host is in
quotes. -/
theorem parseLine_reads_iff (h : Hit) :
    (h.ReadAs (Go.parseLine h.text)
      ↔ h.Legible Go.dialect h.args.text
        ∧ ∀ r, h.target.dir = .sni → h.args = .sni r → h.quoted r = r.host)
      ∧ (h.ReadAs (C.parseLine h.text)
        ↔ h.Legible C.dialect (cstr h.args.text)
          ∧ ∀ r, h.target.dir = .sni → h.args = .sni r → (h.quoted r).take 255 = r.host) :=
  ⟨Go.readAs_iff, C.readAs_iff⟩

theorem spaced_text : ∀ b ∈ ([97, 32, 98] : Bytes), b ≠ 0 ∧ b ≠ 10 := by
  decide +kernel

/-- A task `a b` writes. -/
def spacedTask : Hit where
  comm := [97, 32, 98]
  pid := 1
  pidGap := 6
  tgid := none
  cpu := [48]
  flags := []
  timeGap := 0
  time := [49]
  target := probeTargets.get ⟨2, Nat.le_of_ble_eq_true rfl⟩
  args := .plain []
  comm_ne_nil := List.cons_ne_nil _ _
  comm_short := Nat.le_of_ble_eq_true rfl
  comm_text := spaced_text
  pid_lt := Nat.le_of_ble_eq_true rfl
  cpu_ne_nil := List.cons_ne_nil _ _
  cpu_digits _ hb := List.mem_singleton.mp hb ▸ rfl
  flags_text := nofun
  time_ne_nil := List.cons_ne_nil _ _
  time_stamp _ hb := List.mem_singleton.mp hb ▸ rfl
  time_short := Nat.le_of_ble_eq_true rfl
  target_known := List.get_mem _ _
  args_line := List.not_mem_nil

/-- A task that is not a word is missed. -/
theorem spacedTask_missed : ¬spacedTask.ReadAs (Go.parseLine spacedTask.text)
    ∧ ¬spacedTask.ReadAs (C.parseLine spacedTask.text) := by
  have hblank : 32 ∈ spacedTask.comm := by decide
  constructor
  · intro hread
    cases (Go.readAs_iff.mp hread).1.word 32 hblank
  · intro hread
    cases (C.readAs_iff.mp hread).1.word 32 hblank

end Tracep.Tlstrace
