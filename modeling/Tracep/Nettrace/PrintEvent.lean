import Tracep.Common.Columns
import Tracep.Lib.AddressText
import Tracep.Nettrace.Filters

/-!
# The text of a line

`printEvent` writes the process, the two ends of the connection and what has
happened in columns, and a newline. Numbers, addresses and states have no
newline in them. The name of the process has if the process gave itself one
that has: `inodeToPID` takes off the newline that ends the `comm` file, and
any others before it, and keeps the rest (`CommandOf`), and so do the table
of connections and the handlers. So a line printed is one line exactly when
there is no newline in the name, the user and the host shown with it
(`printEvent_oneLine_iff`).
-/

namespace Tracep.Nettrace

open Exec Asking Machine Netlink Strconv
open Common (painted goColumn newline_mem_goColumn)

/-- How lines are shown: in colour or not, with the seconds between two times as `"%.3f"` prints
them, with the unit. -/
structure Show where
  colorMode : Bool
  seconds : Int → Int → Bytes
  plain : ∀ startAt now, 10 ∉ seconds startAt now

/-- The ends of lines that the handlers ask for. -/
inductive Extra.Given : Extra → Prop
  | none : Given .none
  | state (s : UInt8) : Given (.state (tcpStateName s))
  | elapsed (startAt now : Int) : Given (.elapsed startAt now)

/-! ## The code -/

namespace Go

def clr (colorMode : Bool) (code s : Bytes) : Bytes := painted colorMode code s

def ConnTuple.protoStr (t : ConnTuple) : Bytes :=
  if t.proto = 6 then [84, 67, 80]
  else if t.proto = 17 then [85, 68, 80]
  else if t.proto = 1 then [73, 67, 77, 80]
  else [73, 80] ++ digits 10 t.proto.toNat

def arrow : Direction → Bytes
  | .outbound => [0xe2, 0x86, 0x92]
  | .inbound => [0xe2, 0x86, 0x90]
  | .unknown => [0xe2, 0x86, 0x94]

variable (sh : Show) (line : Line ConnTuple)

def pidText : Bytes :=
  if 0 < line.pid then clr sh.colorMode [51, 51] (padLeft 5 (intText line.pid.toInt).length
    (intText line.pid.toInt))
  else clr sh.colorMode [50] [32, 32, 32, 32, 63]

def commText : Bytes :=
  if line.comm ≠ [] then clr sh.colorMode [57, 54] (goColumn 12 line.comm)
  else clr sh.colorMode [50] (goColumn 12 [63])

def userText : Bytes :=
  match line.user with
  | none => []
  | some uname =>
      if uname = [114, 111, 111, 116] then clr sh.colorMode [57, 49] ([32, 60] ++ uname ++ [62])
      else clr sh.colorMode [57, 50] ([32, 60] ++ uname ++ [62])

def endText (ip : Option Bytes) (port : UInt16) : Bytes :=
  ipString ip ++ [58] ++ digits 10 port.toNat

/-- The arrow between the ends, or what happened instead. -/
def markText : Bytes :=
  match line.event with
  | .closed => clr sh.colorMode [51, 49] [0xc3, 0x97]
  | .update => clr sh.colorMode [51, 53] [0xe2, 0x87, 0x92]
  | .opened => clr sh.colorMode [51, 54] (arrow line.dir)

def hostText : Bytes :=
  if line.host ≠ [] then clr sh.colorMode [50] ([32, 91] ++ line.host ++ [93]) else []

def extraOf : Extra → Bytes
  | .none => []
  | .state name => Utf8.encode name.toList
  | .elapsed startAt now => sh.seconds startAt now

def extraText : Bytes :=
  if extraOf sh line.extra ≠ [] then 32 :: clr sh.colorMode [51, 54] (extraOf sh line.extra) else []

/-- What `printEvent` writes. -/
def lineText : Bytes :=
  pidText sh line ++ [32] ++ commText sh line ++ userText sh line ++ [32]
    ++ clr sh.colorMode [50] (goColumn 4 line.orig.protoStr) ++ [32]
    ++ clr sh.colorMode [51, 50] (goColumn 24 (endText line.orig.srcIP line.orig.srcPort)) ++ [32]
    ++ markText sh line ++ [32]
    ++ clr sh.colorMode [51, 51] (goColumn 24 (endText line.orig.dstIP line.orig.dstPort))
    ++ hostText sh line ++ extraText sh line ++ [10]

end Go

/-! ## Newlines in a line -/

namespace Go

variable {sh : Show} {line : Line ConnTuple} {on : Bool} {code s : Bytes}

theorem newline_mem_clr (h : 10 ∉ code) : 10 ∈ clr on code s ↔ 10 ∈ s :=
  Common.newline_mem_painted h

theorem newline_not_mem_digits (n : Nat) : 10 ∉ digits 10 n := not_mem_digits rfl n

theorem newline_not_mem_pidText : 10 ∉ pidText sh line := by
  rw [pidText]
  split
  · rw [newline_mem_clr (by decide), newline_mem_padLeft]
    exact not_mem_intText rfl (by decide) _
  · rw [newline_mem_clr (by decide)]
    decide

theorem newline_mem_commText : 10 ∈ commText sh line ↔ 10 ∈ line.comm := by
  rw [commText]
  split
  · rw [newline_mem_clr (by decide), newline_mem_goColumn]
  · next hempty =>
      rw [newline_mem_clr (by decide), newline_mem_goColumn, not_not.mp hempty]
      decide

theorem newline_mem_userText : 10 ∈ userText sh line ↔ ∃ uname ∈ line.user, 10 ∈ uname := by
  have hbrackets (uname : Bytes) : 10 ∈ [32, 60] ++ uname ++ [(62 : UInt8)] ↔ 10 ∈ uname := by
    rw [List.mem_append, List.mem_append, or_iff_left (by decide), or_iff_right (by decide)]
  rw [userText]
  cases line.user with
  | none => exact iff_of_false List.not_mem_nil fun ⟨_, h, _⟩ => Option.not_mem_none _ h
  | some uname =>
      simp only [Option.mem_some_iff, exists_eq_left']
      split
      all_goals rw [newline_mem_clr (by decide), hbrackets]

theorem newline_not_mem_protoStr (t : ConnTuple) : 10 ∉ t.protoStr := by
  rw [ConnTuple.protoStr]
  repeat' split
  · decide
  · decide
  · decide
  · rw [List.mem_append, or_iff_right (by decide)]
    exact newline_not_mem_digits _

theorem newline_not_mem_ipString (ip : Option Bytes) : 10 ∉ ipString ip := by
  cases ip with
  | none => decide
  | some ip =>
      rw [ipString, ipText]
      repeat' split
      · exact not_mem_dottedQuad (by decide) rfl
      · exact not_mem_dottedQuad (by decide) rfl
      · exact not_mem_ipv6Text (by decide) rfl

theorem newline_not_mem_endText (ip : Option Bytes) (port : UInt16) : 10 ∉ endText ip port := by
  rw [endText, List.mem_append, List.mem_append]
  rintro ((h | h) | h)
  · exact newline_not_mem_ipString ip h
  · exact absurd h (by decide)
  · exact newline_not_mem_digits _ h

theorem newline_not_mem_markText : 10 ∉ markText sh line := by
  have harrow (dir : Direction) : 10 ∉ arrow dir := by
    cases dir <;> decide
  rw [markText]
  cases line.event
  all_goals rw [newline_mem_clr (by decide)]
  · exact harrow line.dir
  all_goals decide

theorem newline_mem_hostText : 10 ∈ hostText sh line ↔ 10 ∈ line.host := by
  rw [hostText]
  split
  · rw [newline_mem_clr (by decide), List.mem_append, List.mem_append, or_iff_left (by decide),
      or_iff_right (by decide)]
  · next hempty =>
      rw [not_not.mp hempty]

theorem newline_not_mem_tcpStateName (s : UInt8) : '\n' ∉ (tcpStateName s).toList := by
  have hnames : ∀ name ∈ tcpStateNames, '\n' ∉ name.toList := by decide
  rw [tcpStateName]
  cases hname : tcpStateNames[s.toNat]? with
  | some name => exact hnames name (List.mem_of_getElem? hname)
  | none =>
      rw [Option.getD_none, String.toList_append, List.mem_append, or_iff_right (by decide)]
      intro h
      have hdigit : '\n' ∈ Nat.toDigits 10 s.toNat := by
        simpa [toString, Nat.repr] using h
      exact absurd (digit_bounds hdigit).1 (by decide)

theorem newline_not_mem_extraOf {extra : Extra} (h : extra.Given) : 10 ∉ extraOf sh extra := by
  cases h with
  | none => exact List.not_mem_nil
  | state s => exact mt newline_mem_encode.mp (newline_not_mem_tcpStateName s)
  | elapsed startAt now => exact sh.plain startAt now

theorem newline_not_mem_extraText (h : line.extra.Given) : 10 ∉ extraText sh line := by
  rw [extraText]
  split
  · rw [List.mem_cons, newline_mem_clr (by decide), or_iff_right (by decide)]
    exact newline_not_mem_extraOf h
  · exact List.not_mem_nil

/-- What the name of the process, the user and the host are made of is all that matters. -/
theorem oneLine_lineText (h : line.extra.Given) : OneLine (lineText sh line) ↔
    10 ∉ line.comm ∧ (∀ uname ∈ line.user, 10 ∉ uname) ∧ 10 ∉ line.host := by
  have hproto : 10 ∉ clr sh.colorMode [50] (goColumn 4 line.orig.protoStr) := by
    rw [newline_mem_clr (by decide), newline_mem_goColumn]
    exact newline_not_mem_protoStr _
  have hend : ∀ {c : UInt8} ip port,
      c ≠ 10 → 10 ∉ clr sh.colorMode [51, c] (goColumn 24 (endText ip port)) := by
    intro c ip port hc
    rw [newline_mem_clr (by simpa using hc.symm), newline_mem_goColumn]
    exact newline_not_mem_endText ip port
  rw [lineText, oneLine_snoc]
  simp [newline_not_mem_pidText, newline_mem_commText, newline_mem_userText,
    newline_not_mem_markText, newline_mem_hostText, newline_not_mem_extraText h, hproto, hend]

end Go

/-! ## Where a line comes from -/

/-- What is shown with a line was asked for. -/
structure Line.Asked {τ : Type} (env : Env) (line : Line τ) : Prop where
  extra : line.extra.Given
  user : ∀ uname ∈ line.user, ∃ now pid, uname = env.user now pid
  host : line.host = [] ∨ ∃ now ip, line.host = env.host now ip

section Handlers

variable {ε π τ δ : Type} {P : Port ε π τ δ} {opts : Settings} {env : Env} {db db' : δ}
  {now later : Nat} {orig : τ} {payload : π} {key : Bytes} {lines : List (Line τ)} {line : Line τ}
  {pid : Int32} {comm : Bytes} {dir : Direction} {event : Event} {extra : Extra} {α : Type}

theorem gives_observeIf {asked : Bool} {answers : Nat → α} {a : Option α}
    (h : Gives (observeIf asked answers) now a later) : a = none ∨ ∃ t, a = some (answers t) := by
  cases asked with
  | false => exact Or.inl (gives_pure.mp h).1
  | true =>
      rw [observeIf, if_pos rfl, map_eq_pure_bind] at h
      obtain ⟨_, _, hanswer, h⟩ := gives_bind.mp h
      obtain ⟨rfl, -⟩ := gives_observe.mp hanswer
      exact Or.inr ⟨_, (gives_pure.mp h).1⟩

theorem printEvent_shows (hextra : extra.Given)
    (h : Gives (printEvent P opts env orig pid comm dir event extra) now line later) :
    line.comm = comm ∧ line.Asked env := by
  obtain ⟨user, now₁, huser, h⟩ := gives_bind.mp h
  obtain ⟨host, now₂, hhost, h⟩ := gives_bind.mp h
  obtain ⟨rfl, -⟩ := gives_pure.mp h
  refine ⟨rfl, hextra, fun uname hmem => ?_, ?_⟩
  · rcases gives_observeIf huser with rfl | ⟨t, rfl⟩
    · cases hmem
    · exact ⟨t, pid, (Option.some.inj hmem).symm⟩
  · rcases gives_observeIf hhost with rfl | ⟨t, rfl⟩
    · exact Or.inl rfl
    · exact Or.inr ⟨t, _, rfl⟩

/-- One line, or none. -/
theorem asked_of_cases (h : lines = [] ∨ ∃ line, lines = [line] ∧ line.Asked env) :
    ∀ line ∈ lines, line.Asked env := by
  rcases h with rfl | ⟨line, rfl, hline⟩
  · exact fun _ hmem => absurd hmem List.not_mem_nil
  · exact List.forall_mem_singleton.mpr hline

theorem handleNew_asked
    (h : Gives (handleNew P opts env db key orig payload) now (db', lines) later) :
    ∀ line ∈ lines, line.Asked env := by
  refine asked_of_cases ?_
  obtain ⟨⟨pid, comm, dir⟩, now₁, -, h⟩ := gives_bind.mp h
  obtain ⟨hide, now₂, -, h⟩ := gives_bind.mp h
  simp only [] at h
  split at h
  · exact Or.inl (Prod.mk.inj (gives_pure.mp h).1).2
  · split at h
    · exact Or.inl (Prod.mk.inj (gives_pure.mp h).1).2
    · obtain ⟨tcpState, now₃, -, h⟩ := gives_bind.mp h
      obtain ⟨startAt, now₄, -, h⟩ := gives_bind.mp h
      obtain ⟨line, now₅, hline, h⟩ := gives_bind.mp h
      exact Or.inr ⟨line, (Prod.mk.inj (gives_pure.mp h).1).2, (printEvent_shows .none hline).2⟩

theorem noteState_given {extra : Extra}
    (h : Gives (noteState P db key orig payload) now (db', extra) later) : extra.Given := by
  unfold noteState at h
  split at h
  · obtain ⟨s, now₁, -, h⟩ := gives_bind.mp h
    split at h
    all_goals
      obtain ⟨-, rfl⟩ := Prod.mk.inj (gives_pure.mp h).1
      exact .state s
  · obtain ⟨-, rfl⟩ := Prod.mk.inj (gives_pure.mp h).1
    exact .none

theorem handleUpdate_asked
    (h : Gives (handleUpdate P opts env db key orig payload) now (db', lines) later) :
    ∀ line ∈ lines, line.Asked env := by
  refine asked_of_cases ?_
  obtain ⟨hide, now₁, -, h⟩ := gives_bind.mp h
  split at h
  · exact Or.inl (Prod.mk.inj (gives_pure.mp h).1).2
  · split at h
    · exact Or.inl (Prod.mk.inj (gives_pure.mp h).1).2
    · obtain ⟨⟨db₁, extra⟩, now₂, hnote, h⟩ := gives_bind.mp h
      obtain ⟨line, now₃, hline, h⟩ := gives_bind.mp h
      exact Or.inr ⟨line, (Prod.mk.inj (gives_pure.mp h).1).2,
        (printEvent_shows (noteState_given hnote) hline).2⟩

theorem handleDestroy_asked
    (h : Gives (handleDestroy P opts env db key orig) now (db', lines) later) :
    ∀ line ∈ lines, line.Asked env := by
  refine asked_of_cases ?_
  unfold handleDestroy at h
  cases hent : P.conns.get db key with
  | none =>
      simp only [hent] at h
      exact Or.inl (Prod.mk.inj (gives_pure.mp h).1).2
  | some e =>
      simp only [hent] at h
      obtain ⟨hide, now₁, -, h⟩ := gives_bind.mp h
      split at h
      · exact Or.inl (Prod.mk.inj (gives_pure.mp h).1).2
      · obtain ⟨t, now₂, -, h⟩ := gives_bind.mp h
        obtain ⟨line, now₃, hline, h⟩ := gives_bind.mp h
        exact Or.inr ⟨line, (Prod.mk.inj (gives_pure.mp h).1).2,
          (printEvent_shows (.elapsed _ _) hline).2⟩

theorem step_asked {msg : ε} {out : Handled π τ}
    (h : Gives (step P opts env db msg) now (db', out) later) :
    ∀ line ∈ out.lines, line.Asked env := by
  obtain ⟨v, now₁, -, h⟩ := gives_bind.mp h
  obtain ⟨⟨db₁, lines⟩, now₂, hhandle, h⟩ := gives_bind.mp h
  obtain ⟨-, rfl⟩ := Prod.mk.inj (gives_pure.mp h).1
  unfold handle at hhandle
  split at hhandle
  · exact handleNew_asked hhandle
  · exact handleUpdate_asked hhandle
  · exact handleDestroy_asked hhandle
  all_goals
    obtain ⟨-, rfl⟩ := Prod.mk.inj (gives_pure.mp hhandle).1
    exact asked_of_cases (Or.inl rfl)

end Handlers

namespace Go

variable {opts : Settings} {env : Env} {now later : Nat} {orig : ConnTuple} {w : Who} {key : Bytes}
  {db : Bytes → Option (ConnEntry ConnTuple)} {msgs : List Message}
  {h steps : List (Machine.Step (Bytes → Option (ConnEntry ConnTuple)) Message
    (Handled Bytes ConnTuple))}

/-- What `inodeToPID` reads from the `comm` file of some process, or nothing. -/
def CommandOf (env : Env) (comm : Bytes) : Prop :=
  comm = [] ∨ ∃ now inode pid name,
    env.owner now inode = some (pid, some name) ∧ comm = trimNewlines name

theorem inodeToPID_command {inode : UInt64} {pid : Int32} {comm : Bytes}
    (h : Gives (inodeToPID env inode) now (pid, comm) later) : CommandOf env comm := by
  obtain ⟨owner, mid, howner, h⟩ := gives_bind.mp h
  obtain ⟨rfl, -⟩ := gives_observe.mp howner
  split at h
  · exact Or.inl (Prod.mk.inj (gives_pure.mp h).1).2
  · exact Or.inl (Prod.mk.inj (gives_pure.mp h).1).2
  · next pid' name hname =>
      exact Or.inr ⟨now, inode, pid', name, hname, (Prod.mk.inj (gives_pure.mp h).1).2⟩

theorem findPIDAndDir_command (h : Gives (findPIDAndDir env orig) now w later) :
    CommandOf env w.2.1 := by
  obtain ⟨⟨inode, dir⟩, mid, -, h⟩ := gives_bind.mp h
  simp only [] at h
  split at h
  · repeat' split at h
    all_goals
      obtain ⟨rfl, -⟩ := gives_pure.mp h
      exact Or.inl rfl
  · obtain ⟨⟨pid, comm⟩, mid', hcomm, h⟩ := gives_bind.mp h
    obtain ⟨rfl, -⟩ := gives_pure.mp h
    exact inodeToPID_command hcomm

/-- The command of a connection in the table was read from a file. -/
theorem entry_command (hruns : Runs port opts env h (db, now)) :
    CommandOf env (whoIs port db key).2.1 := by
  cases hent : port.conns.get db key with
  | none =>
      rw [whoIs_of_none hent]
      exact Or.inl rfl
  | some e =>
      have hwho : (port.conns.get db key).map ConnEntry.who = some e.who := by
        rw [hent, Option.map_some]
      obtain ⟨h₁, x, h₂, -, ⟨orig, -, -, mid, hfind, -⟩, -⟩ := (who_iff hruns).mp hwho
      rw [whoIs_of_some hent]
      exact findPIDAndDir_command hfind

/-- And so was that of a line. -/
theorem output_command (hrun : Gives (run opts env msgs) 0 (db, steps) later) :
    ∀ line ∈ output steps, CommandOf env line.comm := by
  intro line hprinted
  obtain ⟨x, hmem, hline⟩ := List.mem_flatMap.mp hprinted
  obtain ⟨h, rest, rfl⟩ := List.append_of_mem hmem
  obtain ⟨hruns, hx⟩ := run_next hrun
  have heffect := (step_effect hx).2
  have hentry := fun key => @entry_command opts env x.start key x.before h hruns
  generalize x.after = after at heffect
  generalize x.out.lines = lines at heffect hline
  change CommandOf env line.who.2.1
  cases heffect with
  | opened hv hadmits his =>
      obtain rfl := List.mem_singleton.mp hline
      obtain ⟨mid, hfind, -⟩ := hadmits
      rw [his.who]
      exact findPIDAndDir_command hfind
  | updated hv hpass his =>
      obtain rfl := List.mem_singleton.mp hline
      rw [his.who]
      exact hentry _
  | closed hv hent hwatch his =>
      obtain rfl := List.mem_singleton.mp hline
      rw [his.who, ← whoIs_of_some hent]
      exact hentry _
  | idle => cases hline
  | refused => cases hline
  | hidden => cases hline
  | predates => cases hline
  | unwatched => cases hline
  | dropped => cases hline

theorem output_asked (hrun : Gives (run opts env msgs) 0 (db, steps) later) :
    ∀ line ∈ output steps, line.Asked env := by
  intro line hprinted
  obtain ⟨x, hmem, hline⟩ := List.mem_flatMap.mp hprinted
  obtain ⟨h, rest, rfl⟩ := List.append_of_mem hmem
  exact step_asked (run_next hrun).2 line hline

/-- No newline is in what the names of processes are without those at their ends, nor in the names
of users and hosts. -/
structure PlainNames (env : Env) : Prop where
  comm : ∀ now inode pid name, env.owner now inode = some (pid, some name) →
    10 ∉ trimNewlines name
  user : ∀ now pid, 10 ∉ env.user now pid
  host : ∀ now ip, 10 ∉ env.host now ip

/-- What is written of the lines printed. -/
def written (sh : Show) (lines : List (Line ConnTuple)) : Bytes := (lines.map (lineText sh)).flatten

/-- What `printEvent` writes is one line exactly if no newline is in the name of the process, nor
in the user and the host that are shown. In a run the name is that of a `comm` file, without the
newlines at its end, and if it leaves no newline each event has one line, and there are no more. -/
theorem printEvent_oneLine_iff (sh : Show) (opts : Settings) (env : Env) :
    (∀ {orig pid comm dir event extra now line later}, extra.Given →
        Gives (printEvent port opts env orig pid comm dir event extra) now line later →
        (OneLine (lineText sh line) ↔
          10 ∉ comm ∧ (∀ uname ∈ line.user, 10 ∉ uname) ∧ 10 ∉ line.host))
      ∧ ∀ {msgs db steps later}, Gives (run opts env msgs) 0 (db, steps) later →
        (∀ line ∈ output steps, CommandOf env line.comm ∧ (OneLine (lineText sh line) ↔
          10 ∉ line.comm ∧ (∀ uname ∈ line.user, 10 ∉ uname) ∧ 10 ∉ line.host))
        ∧ (PlainNames env → (∀ line ∈ output steps, OneLine (lineText sh line))
          ∧ (written sh (output steps)).count 10 = (output steps).length) := by
  constructor
  · intro orig pid comm dir event extra now line later hextra h
    obtain ⟨rfl, hasked⟩ := printEvent_shows hextra h
    exact oneLine_lineText hasked.extra
  · intro msgs db steps later hrun
    have hcomm := output_command hrun
    have hasked := output_asked hrun
    refine ⟨fun line hline => ⟨hcomm line hline, oneLine_lineText (hasked line hline).extra⟩, ?_⟩
    intro hplain
    have hone : ∀ line ∈ output steps, OneLine (lineText sh line) := by
      intro line hline
      obtain ⟨hextra, huser, hhost⟩ := hasked line hline
      refine (oneLine_lineText hextra).mpr ⟨?_, fun uname hmem => ?_, ?_⟩
      · rcases hcomm line hline with hnil | ⟨_, _, _, _, howner, hname⟩
        · rw [hnil]
          exact List.not_mem_nil
        · rw [hname]
          exact hplain.comm _ _ _ _ howner
      · obtain ⟨_, _, rfl⟩ := huser uname hmem
        exact hplain.user _ _
      · rcases hhost with hnil | ⟨_, _, hname⟩
        · rw [hnil]
          exact List.not_mem_nil
        · rw [hname]
          exact hplain.host _ _
    refine ⟨hone, ?_⟩
    rw [written, count_flatten (List.forall_mem_map.mpr hone), List.length_map]

/-- The connection is one of process 200, and this is in its `comm` file. -/
def named (comm : Bytes) : Env :=
  { childOf100 9 with owner := fun _ inode => if inode = 7 then some (200, some comm) else none }

theorem newline_not_mem_millis : ∀ _ _ : Int, 10 ∉ [48, 46, 48, 48, 49, (115 : UInt8)] :=
  fun _ _ => by decide

/-- No colours, and all that is closed was open for `0.001s`. -/
def uncolored : Show := ⟨false, fun _ _ => [48, 46, 48, 48, 49, 115], newline_not_mem_millis⟩

/-- A process with a newline in its name opens a connection. -/
theorem named_not_oneLine : ∃ db steps later,
    Gives (run everything (named [97, 10, 98, 10]) [sampleNew]) 0 (db, steps) later
      ∧ ∃ line ∈ output steps, ¬OneLine (lineText uncolored line) := by
  obtain ⟨⟨db, steps⟩, later, hrun, hout⟩ := exists_gives
    (run everything (named [97, 10, 98, 10]) [sampleNew])
    (fun r => (output r.2).map Line.comm) [[97, 10, 98]] 0 9 (by decide +kernel)
  obtain ⟨line, hlines, hcomm⟩ := List.map_eq_singleton_iff.mp hout
  have hmem : line ∈ output steps := hlines ▸ List.mem_singleton_self line
  refine ⟨db, steps, later, hrun, line, hmem, fun hone => ?_⟩
  have hplain := ((oneLine_lineText (output_asked hrun line hmem).extra).mp hone).1
  rw [hcomm] at hplain
  exact hplain (by decide)

/-- One with a newline at the end. -/
theorem named_oneLine : ∃ db steps later,
    Gives (run everything (named [97, 10, 10]) [sampleNew]) 0 (db, steps) later
      ∧ (output steps).length = 1 ∧ (written uncolored (output steps)).count 10 = 1 := by
  obtain ⟨⟨db, steps⟩, later, hrun, hout⟩ := exists_gives
    (run everything (named [97, 10, 10]) [sampleNew])
    (fun r => (output r.2).length) 1 0 9 (by decide +kernel)
  have hplain : PlainNames (named [97, 10, 10]) := by
    refine ⟨fun now inode pid name howner => ?_, fun _ _ => List.not_mem_nil,
      fun _ _ => List.not_mem_nil⟩
    simp only [named] at howner
    split at howner
    · obtain ⟨-, hname⟩ := Prod.mk.inj (Option.some.inj howner)
      obtain rfl := Option.some.inj hname
      decide
    · cases howner
  have hcount := (((printEvent_oneLine_iff uncolored everything _).2 hrun).2 hplain).2
  exact ⟨db, steps, later, hrun, hout, hcount.trans hout⟩

end Go

end Tracep.Nettrace
