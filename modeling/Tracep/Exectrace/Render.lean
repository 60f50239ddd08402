import Tracep.Common.Cuts
import Tracep.Exectrace.Tracer
import Tracep.Exectrace.ShQuote
import Tracep.Exectrace.Cmdline
import Tracep.Lib.Cut
import Tracep.Lib.Decimal

/-!
# The text of an exec line

What the Linux exec tracer writes for a line of `Line`, in bytes. The ports
write the same parts in the same order, and differ in how a part is made: Go
joins strings, while C puts most parts in buffers that cut what is too long,
and makes colours and quotes in those of its pools (`Printer`).

So the text of the C port is that of the Go port or shorter, and the same
exactly when everything that is shown is short enough, and nothing that is
quoted is other than UTF-8 (`lineText_clips`).
-/

namespace Tracep.Exectrace

open Common (painted clrText written Colours)

/-! ## The code -/

/-- How lines are shown: the options `-f` and `-c`, and the seconds that `"%.3f"` prints for so
many nanoseconds. -/
structure Look where
  flatMode : Bool
  colorMode : Bool
  seconds : UInt64 → Bytes

/-- What the ports do each in their own way when they print: an indent, a colour, a quoted
text, and a text in a buffer of so many bytes. -/
structure Printer where
  indentStr : Int → Bytes
  clr : Bytes → Bytes → Bytes
  shQuote : Bytes → Bytes
  buf : Nat → Bytes → Bytes

namespace Go

def indentStr (flatMode : Bool) (depth : Int) : Bytes :=
  if flatMode ∨ depth ≤ 0 then [] else List.replicate (2 * depth.toNat) 32

/-- Go cuts nothing. -/
def printer (look : Look) : Printer :=
  ⟨indentStr look.flatMode, painted look.colorMode, shQuote, fun _ s => s⟩

end Go

namespace C

/-- The loop of `indentStr`, with so many levels left. -/
def indentLoop (cap : Nat) (w : Nat) : Nat → Bytes
  | 0 => []
  | i + 1 => if w + 2 < cap then 32 :: 32 :: indentLoop cap (w + 2) i else []

def indentStr (flatMode : Bool) (cap : Nat) (depth : Int) : Bytes :=
  if flatMode ∨ depth ≤ 0 ∨ cap = 0 then [] else indentLoop cap 0 depth.toNat

/-- `c` is `clr`, and both it and `shquote` give the text at the pointer they return. -/
def printer (look : Look) : Printer :=
  ⟨indentStr look.flatMode 1024, clrText look.colorMode, written, fitted⟩

end C

section Text

variable (P : Printer)

def pidText (pid : Int32) : Bytes := P.buf 64 (P.clr (str "33") (P.buf 16 (intText pid.toInt)))

/-- A name that `procUser` returns, in brackets. -/
def userText (name : Bytes) : Bytes :=
  let name := P.buf 256 name
  let wrapped := P.buf 300 (str " <" ++ name ++ str ">")
  P.clr (if name = str "root" then str "91" else str "92") wrapped

def cwdText (cwd : Bytes) : Bytes := P.clr (str "35") (P.shQuote cwd) ++ P.clr (str "2") (str " % ")

def commandText : Command → Bytes
  | .comm name => P.clr (str "2") (P.buf 300 (bracketed name))
  | .argv cmd args => P.clr (str "96") (P.shQuote cmd)
      ++ args.flatMap fun arg => str " " ++ P.clr (str "2") (P.shQuote arg)

/-- A variable of the environment, quoted on both sides of its first `=`. -/
def variableText (e : Bytes) : Bytes :=
  match Tracep.cut (str "=") e with
  | some (key, val) => P.clr (str "2") (P.shQuote key ++ str "=" ++ P.shQuote val)
  | none => P.clr (str "2") (P.shQuote e)

def envText (env : List Bytes) : Bytes :=
  str "\n  " ++ env.flatMap fun e => str " " ++ variableText P e

def startText (l : StartLine) : Bytes :=
  P.indentStr l.depth ++ P.clr (str "33") (P.buf 16 (intText l.pid.toInt))
    ++ (if l.plus then P.clr (str "32") (str "+") else [])
    ++ l.user.elim [] (userText P) ++ str " " ++ l.cwd.elim [] (cwdText P)
    ++ commandText P l.command ++ l.env.elim [] (envText P)

/-- `buildExecedLine`. -/
def execedText (pid : Int32) (depth : Int) (name : Bytes) : Bytes :=
  P.indentStr depth ++ pidText P pid ++ P.buf 64 (P.clr (str "31") (str "-")) ++ str " "
    ++ P.clr (str "2") (P.shQuote name) ++ str " execed"

/-- The table of `sigName`, the same in both ports. -/
def sigNames : List (Nat × Bytes) :=
  [(1, str "SIGHUP"), (2, str "SIGINT"), (3, str "SIGQUIT"), (4, str "SIGILL"), (5, str "SIGTRAP"),
    (6, str "SIGABRT"), (7, str "SIGBUS"), (8, str "SIGFPE"), (9, str "SIGKILL"),
    (10, str "SIGUSR1"), (11, str "SIGSEGV"), (12, str "SIGUSR2"), (13, str "SIGPIPE"),
    (14, str "SIGALRM"), (15, str "SIGTERM"), (17, str "SIGCHLD"), (18, str "SIGCONT"),
    (19, str "SIGSTOP"), (20, str "SIGTSTP"), (21, str "SIGTTIN"), (22, str "SIGTTOU"),
    (23, str "SIGURG"), (24, str "SIGXCPU"), (25, str "SIGXFSZ"), (26, str "SIGVTALRM"),
    (27, str "SIGPROF"), (28, str "SIGWINCH"), (29, str "SIGIO"), (30, str "SIGPWR"),
    (31, str "SIGSYS")]

def sigName (sig : Nat) : Bytes :=
  (sigNames.lookup sig).getD (P.buf 16 (str "SIG" ++ digits 10 sig))

/-- How a process ended: with a status, or by a signal. -/
def exitStr (exitCode : UInt32) : Bytes :=
  if exitCode &&& 0x7f = 0 then
    let code := (exitCode >>> 8) &&& 0xff
    if code = 0 then P.buf 64 (P.clr (str "32") (str "status=0"))
    else P.buf 64 (P.clr (str "31") (P.buf 32 (str "status=" ++ digits 10 code.toNat)))
  else P.buf 64 (P.clr (str "91")
    (P.buf 32 (str "signal=" ++ sigName P (exitCode &&& 0x7f).toNat)))

/-- The line that `handleExit` prints. -/
def exitedText (look : Look) (pid : Int32) (depth : Int) (name : Bytes) (exitCode : UInt32)
    (elapsed : UInt64) : Bytes :=
  P.indentStr depth ++ pidText P pid ++ P.buf 64 (P.clr (str "31") (str "-")) ++ str " "
    ++ P.clr (str "2") (P.shQuote name) ++ str " exited " ++ exitStr P exitCode ++ str " "
    ++ P.buf 64 (P.clr (str "36") (P.buf 32 (str "time=" ++ look.seconds elapsed ++ str "s")))

/-- A line as it is written, with its newline. -/
def lineText (look : Look) : Line → Bytes
  | .start l => startText P l ++ str "\n"
  | .execed pid depth name => execedText P pid depth name ++ str "\n"
  | .exited pid depth name exitCode elapsed =>
      exitedText P look pid depth name exitCode elapsed ++ str "\n"

end Text

/-! ## What is shown in full -/

/-- Nothing of the text is cut when it is quoted, and nothing of it is other than UTF-8 if it
needs quotes. -/
def Whole (s : Bytes) : Prop := Fits s ∧ (Common.isSafe s ∨ Utf8.Valid s)

section Shown

variable (look : Look)

/-- The indent has room for all levels. -/
def Indents (depth : Int) : Prop := look.flatMode = true ∨ depth ≤ 511

/-- The quoted text is shown in full in this colour. -/
def Quotes (code s : Bytes) : Prop := Whole s ∧ Colours look.colorMode code (Go.shQuote s)

def ShownCommand : Command → Prop
  | .comm name => name.length ≤ 297
  | .argv cmd args => Quotes look (str "96") cmd ∧ ∀ arg ∈ args, Quotes look (str "2") arg

def ShownVariable (e : Bytes) : Prop :=
  match Tracep.cut (str "=") e with
  | some (key, val) => Whole key ∧ Whole val
      ∧ Colours look.colorMode (str "2") (Go.shQuote key ++ str "=" ++ Go.shQuote val)
  | none => Quotes look (str "2") e

structure ShownStart (l : StartLine) : Prop where
  depth : Indents look l.depth
  user : ∀ name ∈ l.user, name.length ≤ 255
  cwd : ∀ cwd ∈ l.cwd, Quotes look (str "35") cwd
  command : ShownCommand look l.command
  env : ∀ env ∈ l.env, ∀ e ∈ env, ShownVariable look e

/-- Everything in the line is short enough for the buffers of the C port, and what is quoted
is UTF-8. -/
def ShownInFull : Line → Prop
  | .start l => ShownStart look l
  | .execed _ depth name => Indents look depth ∧ Quotes look (str "2") name
  | .exited _ depth name _ elapsed =>
      Indents look depth ∧ Quotes look (str "2") name ∧ (look.seconds elapsed).length ≤ 25

end Shown

/-! ## Part by part -/

section Parts

variable (look : Look) {s t : Bytes} {p : Prop}

theorem buf_clips (cap : Nat) (h : Clips s t p) :
    Clips ((C.printer look).buf cap s) ((Go.printer look).buf cap t) (t.length ≤ cap - 1 ∧ p) :=
  Common.fitted_clips h cap

theorem clr_clips (code : Bytes) (hcode : code.length ≤ 2) (h : Clips s t p) :
    Clips ((C.printer look).clr code s) ((Go.printer look).clr code t)
      (p ∧ Colours look.colorMode code t) :=
  Common.clrText_clips look.colorMode (by unfold Common.poolSz; omega) h

/-- A buffer with room for the text. -/
theorem buf_clips_of_le (cap : Nat) (h : Clips s t True) (hlen : t.length ≤ cap - 1) :
    Clips ((C.printer look).buf cap s) ((Go.printer look).buf cap t) True :=
  (buf_clips look cap h).congr (by simp [hlen])

/-- A text that is not too long for a colour. -/
theorem clr_clips_of_le (code : Bytes) (hcode : code.length ≤ 2) (h : Clips s t p)
    (hlen : t.length ≤ 1000) :
    Clips ((C.printer look).clr code s) ((Go.printer look).clr code t) p := by
  refine (clr_clips look code hcode h).congr (and_iff_left fun _ => ?_)
  unfold Common.poolSz
  omega

theorem length_painted_le (on : Bool) (code s : Bytes) :
    (painted on code s).length ≤ code.length + s.length + 7 := by
  unfold painted
  split
  · omega
  · rw [Common.length_colored]

/-- A short text that is coloured and then put in a buffer. -/
theorem buf_clr_clips (code : Bytes) (hcode : code.length ≤ 2) (h : Clips s t p)
    (hlen : t.length ≤ 54) :
    Clips ((C.printer look).buf 64 ((C.printer look).clr code s))
      ((Go.printer look).buf 64 ((Go.printer look).clr code t)) p := by
  have hclr := clr_clips_of_le look code hcode h (by omega)
  refine (buf_clips look 64 hclr).congr (and_iff_right ?_)
  have hpainted := length_painted_le look.colorMode code t
  change (painted look.colorMode code t).length ≤ 63
  omega

end Parts

section Indent

theorem indentLoop_clips (cap w i : Nat) :
    Clips (C.indentLoop cap w i) (List.replicate (2 * i) 32) (i = 0 ∨ w + 2 * i < cap) := by
  induction i generalizing w with
  | zero => exact (Clips.refl []).congr (by simp)
  | succ i ih =>
      have hblanks : List.replicate (2 * (i + 1)) (32 : UInt8)
          = [32, 32] ++ List.replicate (2 * i) 32 := by
        rw [Nat.mul_succ, Nat.add_comm, List.replicate_add]
        rfl
      rw [C.indentLoop, hblanks]
      split
      · next hroom =>
          refine ((Clips.refl [32, 32]).append (ih (w + 2))).congr ?_
          rw [true_and]
          omega
      · next hroom =>
          refine (Clips.of_lt (by simp)).congr ?_
          rw [false_iff]
          omega

theorem indentStr_clips (look : Look) (depth : Int) :
    Clips ((C.printer look).indentStr depth) ((Go.printer look).indentStr depth)
      (Indents look depth) := by
  change Clips (C.indentStr look.flatMode 1024 depth) (Go.indentStr look.flatMode depth) _
  unfold C.indentStr Go.indentStr Indents
  by_cases hflat : look.flatMode = true
  · simpa [hflat] using Clips.refl []
  by_cases hdepth : depth ≤ 0
  · rw [if_pos (Or.inr (Or.inl hdepth)), if_pos (Or.inr hdepth)]
    exact (Clips.refl []).congr ⟨fun _ => Or.inr (by omega), fun _ => trivial⟩
  · simp only [hflat, hdepth, Bool.false_eq_true, false_or, if_false, OfNat.ofNat_ne_zero]
    refine (indentLoop_clips 1024 0 depth.toNat).congr ?_
    omega

end Indent

section Quoting

/-- The escaped text with replacement characters is as long or longer. -/
theorem escaped_clipped (s : Bytes) :
    Clipped (s.flatMap Common.escape) ((Utf8.encode (Utf8.runes s)).flatMap Common.escape) := by
  induction s using Utf8.runes_induction with
  | nil => exact Clipped.refl []
  | char c s ih =>
      rw [Utf8.runes_encode, Utf8.encode_cons, List.flatMap_append, List.flatMap_append]
      exact (Clipped.refl _).append ih
  | error b s hdecode ih =>
      have hthree : ((Utf8.encodeRune Utf8.runeError).flatMap Common.escape).length = 3 := rfl
      have hwide : 128 ≤ b.toNat := by
        by_contra hlow
        rw [Utf8.decodeRune_ascii (Nat.lt_of_not_le hlow)] at hdecode
        cases hdecode
      have hbyte : Common.escape b = [b] := by
        simpa using flatMap_escape_of_le (s := [b]) (by simpa using hwide)
      have hle := ih.length_le
      rw [Utf8.runes_error hdecode, Utf8.encode_cons, List.flatMap_append, List.flatMap_cons, hbyte]
      refine Or.inr ?_
      rw [List.length_append, List.length_append, hthree, List.length_singleton]
      omega

theorem written_clips (s : Bytes) : Clips (written s) (Go.shQuote s) (Whole s) := by
  refine ⟨?_, written_eq_shQuote_iff s⟩
  rw [shQuote_eq, written]
  split
  · exact Clipped.refl _
  · split
    · exact (Clips.take _ s).clipped
    · have hkept := ((Common.kept_begins 1 s).flatMap Common.escape)
      have hbody := (Clipped.of_begins hkept).trans (escaped_clipped s)
      exact ((Clipped.refl [39]).append hbody).append (Clipped.refl [39])

theorem quotes_clips (look : Look) (code : Bytes) (hcode : code.length ≤ 2) (s : Bytes) :
    Clips ((C.printer look).clr code ((C.printer look).shQuote s))
      ((Go.printer look).clr code ((Go.printer look).shQuote s)) (Quotes look code s) :=
  clr_clips look code hcode (written_clips s)

end Quoting

section Lines

variable (look : Look)

theorem startPid_clips (pid : Int32) :
    Clips ((C.printer look).clr (str "33") ((C.printer look).buf 16 (intText pid.toInt)))
      ((Go.printer look).clr (str "33") ((Go.printer look).buf 16 (intText pid.toInt))) True := by
  have hlen := Strconv.length_intText_le (n := pid.toInt) ⟨pid.le_toInt, pid.toInt_lt⟩
  have hbuf := buf_clips_of_le look 16 (Clips.refl (intText pid.toInt)) (by omega)
  exact clr_clips_of_le look (str "33") (Nat.le_refl 2) hbuf (hlen.trans (by omega))

theorem pidText_clips (pid : Int32) :
    Clips (pidText (C.printer look) pid) (pidText (Go.printer look) pid) True := by
  have hlen := Strconv.length_intText_le (n := pid.toInt) ⟨pid.le_toInt, pid.toInt_lt⟩
  have hbuf := buf_clips_of_le look 16 (Clips.refl (intText pid.toInt)) (by omega)
  exact buf_clr_clips look _ (Nat.le_refl 2) hbuf (hlen.trans (by omega))

theorem userText_clips (name : Bytes) :
    Clips (userText (C.printer look) name) (userText (Go.printer look) name)
      (name.length ≤ 255) := by
  have hname := buf_clips look 256 (Clips.refl name)
  have hwrapped := buf_clips look 300
    (((Clips.refl (str " <")).append hname).append (Clips.refl (str ">")))
  have hwrap : (str " <" ++ name ++ str ">").length = name.length + 3 := by
    have hmarks : (str " <").length = 2 ∧ (str ">").length = 1 := ⟨rfl, rfl⟩
    rw [List.length_append, List.length_append, hmarks.1, hmarks.2]
    omega
  have hroot : (C.printer look).buf 256 name = str "root"
      ↔ (Go.printer look).buf 256 name = str "root" := by
    change name.take 255 = str "root" ↔ name = str "root"
    constructor
    · intro hcut
      have hlen := congrArg List.length hcut
      rw [List.length_take] at hlen
      have hfour : (str "root").length = 4 := rfl
      rw [List.take_of_length_le (by omega)] at hcut
      exact hcut
    · rintro rfl
      rfl
  have hcode : (if (Go.printer look).buf 256 name = str "root" then str "91"
      else str "92").length = 2 := by
    split <;> rfl
  unfold userText
  simp only [hroot]
  refine (clr_clips look _ hcode.le hwrapped).congr ⟨fun h => h.1.2.1.2.1, fun hname => ?_⟩
  refine ⟨⟨?_, ⟨trivial, hname, trivial⟩, trivial⟩, fun _ => ?_⟩
  · change (str " <" ++ name ++ str ">").length ≤ 299
    omega
  · rw [hcode]
    change 2 + (str " <" ++ name ++ str ">").length + 7 < 1024
    omega

theorem cwdText_clips (cwd : Bytes) :
    Clips (cwdText (C.printer look) cwd) (cwdText (Go.printer look) cwd)
      (Quotes look (str "35") cwd) := by
  have hmark := clr_clips_of_le look (str "2") (by decide)
    (Clips.refl (str " % ")) (by decide)
  exact ((quotes_clips look (str "35") (by decide) cwd).append hmark).congr (and_true _).to_iff

theorem commandText_clips (command : Command) :
    Clips (commandText (C.printer look) command) (commandText (Go.printer look) command)
      (ShownCommand look command) := by
  cases command with
  | comm name =>
      have hlen : (bracketed name).length = name.length + 2 := by simp [bracketed]
      have hbuf := buf_clips look 300 (Clips.refl (bracketed name))
      refine (clr_clips look (str "2") (by decide) hbuf).congr ⟨fun h => ?_, fun hname => ?_⟩
      · have hle := h.1.1
        change name.length ≤ 297
        omega
      · change name.length ≤ 297 at hname
        refine ⟨⟨by omega, trivial⟩, fun _ => ?_⟩
        change 1 + (bracketed name).length + 7 < 1024
        omega
  | argv cmd args =>
      refine (quotes_clips look (str "96") (by decide) cmd).append (Clips.flatMap fun arg _ => ?_)
      refine ((Clips.refl (str " ")).append (quotes_clips look (str "2") (by decide) arg)).congr ?_
      simp

theorem variableText_clips (e : Bytes) :
    Clips (variableText (C.printer look) e) (variableText (Go.printer look) e)
      (ShownVariable look e) := by
  unfold variableText ShownVariable
  cases Tracep.cut (str "=") e with
  | none => exact quotes_clips look (str "2") (by decide) e
  | some parts =>
      obtain ⟨key, val⟩ := parts
      have hjoined := ((written_clips key).append (Clips.refl (str "="))).append (written_clips val)
      refine (clr_clips look (str "2") (by decide) hjoined).congr ?_
      simp [and_assoc]

theorem envText_clips (env : List Bytes) :
    Clips (envText (C.printer look) env) (envText (Go.printer look) env)
      (∀ e ∈ env, ShownVariable look e) := by
  have hvars := Clips.flatMap (l := env) fun e _ =>
    (Clips.refl (str " ")).append (variableText_clips look e)
  exact ((Clips.refl (str "\n  ")).append hvars).congr (by simp)

theorem plus_clips (plus : Bool) :
    Clips (if plus then (C.printer look).clr (str "32") (str "+") else [])
      (if plus then (Go.printer look).clr (str "32") (str "+") else []) True := by
  cases plus with
  | false => exact Clips.refl []
  | true => exact clr_clips_of_le look (str "32") (Nat.le_refl 2) (Clips.refl _) (by decide)

theorem startText_clips (l : StartLine) :
    Clips (startText (C.printer look) l) (startText (Go.printer look) l) (ShownStart look l) := by
  have hparts := (indentStr_clips look l.depth).append (startPid_clips look l.pid)
    |>.append (plus_clips look l.plus)
    |>.append (Clips.elim (userText_clips look) l.user)
    |>.append (Clips.refl (str " "))
    |>.append (Clips.elim (cwdText_clips look) l.cwd)
    |>.append (commandText_clips look l.command)
    |>.append (Clips.elim (envText_clips look) l.env)
  refine hparts.congr ?_
  simp only [and_true, and_assoc]
  exact ⟨fun ⟨h1, h2, h3, h4, h5⟩ => ⟨h1, h2, h3, h4, h5⟩, fun h => ⟨h.1, h.2, h.3, h.4, h.5⟩⟩

theorem dash_clips : Clips ((C.printer look).buf 64 ((C.printer look).clr (str "31") (str "-")))
    ((Go.printer look).buf 64 ((Go.printer look).clr (str "31") (str "-"))) True :=
  buf_clr_clips look _ (Nat.le_refl 2) (Clips.refl _) (by decide)

theorem execedText_clips (pid : Int32) (depth : Int) (name : Bytes) :
    Clips (execedText (C.printer look) pid depth name) (execedText (Go.printer look) pid depth name)
      (Indents look depth ∧ Quotes look (str "2") name) := by
  have hparts := (indentStr_clips look depth).append (pidText_clips look pid)
    |>.append (dash_clips look)
    |>.append (Clips.refl (str " "))
    |>.append (quotes_clips look (str "2") (by decide) name)
    |>.append (Clips.refl (str " execed"))
  exact hparts.congr (by simp)

/-- No name of a signal is long. -/
theorem sigName_clips {sig : Nat} (hsig : sig < 128) :
    Clips (sigName (C.printer look) sig) (sigName (Go.printer look) sig) True
      ∧ (sigName (Go.printer look) sig).length ≤ 9 := by
  have hnames : sigNames.all (fun entry => entry.2.length ≤ 9) = true := rfl
  unfold sigName
  cases hlookup : sigNames.lookup sig with
  | some name =>
      obtain ⟨before, after, hsplit, -⟩ := List.lookup_eq_some_iff.mp hlookup
      have hmem : (sig, name) ∈ sigNames := by
        rw [hsplit]
        exact List.mem_append_right before List.mem_cons_self
      exact ⟨Clips.refl name, of_decide_eq_true (List.all_eq_true.mp hnames _ hmem)⟩
  | none =>
      have hdigits := Strconv.length_digits_le (n := sig) (by decide : 0 < 3) (by omega)
      have hlen : (str "SIG" ++ digits 10 sig).length ≤ 6 := by
        have hmark : (str "SIG").length = 3 := rfl
        rw [List.length_append, hmark]
        omega
      refine ⟨buf_clips_of_le look 16 (Clips.refl _) (by omega), ?_⟩
      change (str "SIG" ++ digits 10 sig).length ≤ 9
      omega

theorem exitStr_clips (exitCode : UInt32) :
    Clips (exitStr (C.printer look) exitCode) (exitStr (Go.printer look) exitCode) True := by
  unfold exitStr
  split
  · simp only []
    split
    · exact buf_clr_clips look _ (Nat.le_refl 2) (Clips.refl _) (by decide)
    · have hcode : ((exitCode >>> 8) &&& 0xff).toNat < 256 := by
        rw [UInt32.toNat_and]
        exact Nat.lt_succ_of_le Nat.and_le_right
      have hdigits := Strconv.length_digits_le (by decide : 0 < 3) (hcode.trans (by omega))
      have hlen : (str "status=" ++ digits 10 ((exitCode >>> 8) &&& 0xff).toNat).length ≤ 10 := by
        have hmark : (str "status=").length = 7 := rfl
        rw [List.length_append, hmark]
        omega
      have hbuf := buf_clips_of_le look 32 (Clips.refl _) (hlen.trans (by omega))
      exact buf_clr_clips look _ (Nat.le_refl 2) hbuf (hlen.trans (by omega))
  · have hsig : (exitCode &&& 0x7f).toNat < 128 := by
      rw [UInt32.toNat_and]
      exact Nat.lt_succ_of_le Nat.and_le_right
    obtain ⟨hname, hshort⟩ := sigName_clips look hsig
    have hlen : (str "signal=" ++ sigName (Go.printer look) (exitCode &&& 0x7f).toNat).length
        ≤ 16 := by
      have hmark : (str "signal=").length = 7 := rfl
      rw [List.length_append, hmark]
      omega
    have htext := ((Clips.refl (str "signal=")).append hname).congr (and_self_iff)
    have hbuf := buf_clips_of_le look 32 htext (hlen.trans (by omega))
    exact buf_clr_clips look _ (Nat.le_refl 2) hbuf (hlen.trans (by omega))

theorem timeText_clips (elapsed : UInt64) :
    Clips ((C.printer look).buf 64 ((C.printer look).clr (str "36") ((C.printer look).buf 32
        (str "time=" ++ look.seconds elapsed ++ str "s"))))
      ((Go.printer look).buf 64 ((Go.printer look).clr (str "36") ((Go.printer look).buf 32
        (str "time=" ++ look.seconds elapsed ++ str "s"))))
      ((look.seconds elapsed).length ≤ 25) := by
  have hlen : (str "time=" ++ look.seconds elapsed ++ str "s").length
      = (look.seconds elapsed).length + 6 := by
    have hmarks : (str "time=").length = 5 ∧ (str "s").length = 1 := ⟨rfl, rfl⟩
    rw [List.length_append, List.length_append, hmarks.1, hmarks.2]
    omega
  have hbuf := buf_clips look 32
    (Clips.refl (str "time=" ++ look.seconds elapsed ++ str "s"))
  have hclr := clr_clips look (str "36") (Nat.le_refl 2) hbuf
  refine (buf_clips look 64 hclr).congr ⟨fun h => ?_, fun hshort => ?_⟩
  · have hle := h.2.1.1
    omega
  · have hpainted := length_painted_le look.colorMode (str "36")
      (str "time=" ++ look.seconds elapsed ++ str "s")
    have hcode : (str "36").length = 2 := rfl
    refine ⟨?_, ⟨by omega, trivial⟩, fun _ => ?_⟩
    · change (painted look.colorMode (str "36")
        (str "time=" ++ look.seconds elapsed ++ str "s")).length ≤ 63
      omega
    · change 2 + (str "time=" ++ look.seconds elapsed ++ str "s").length + 7 < 1024
      omega

theorem exitedText_clips (pid : Int32) (depth : Int) (name : Bytes) (exitCode : UInt32)
    (elapsed : UInt64) :
    Clips (exitedText (C.printer look) look pid depth name exitCode elapsed)
      (exitedText (Go.printer look) look pid depth name exitCode elapsed)
      (Indents look depth ∧ Quotes look (str "2") name ∧ (look.seconds elapsed).length ≤ 25) := by
  have hparts := (indentStr_clips look depth).append (pidText_clips look pid)
    |>.append (dash_clips look)
    |>.append (Clips.refl (str " "))
    |>.append (quotes_clips look (str "2") (by decide) name)
    |>.append (Clips.refl (str " exited "))
    |>.append (exitStr_clips look exitCode)
    |>.append (Clips.refl (str " "))
    |>.append (timeText_clips look elapsed)
  exact hparts.congr (by simp [and_assoc])

/-- The C port writes what the Go port writes or less, and the same exactly when everything in
the line is shown in full. -/
theorem lineText_clips (line : Line) :
    Clips (lineText (C.printer look) look line) (lineText (Go.printer look) look line)
      (ShownInFull look line) := by
  cases line with
  | start l =>
      exact ((startText_clips look l).append (Clips.refl (str "\n"))).congr (by simp [ShownInFull])
  | execed pid depth name =>
      exact ((execedText_clips look pid depth name).append (Clips.refl (str "\n"))).congr
        (by simp [ShownInFull])
  | exited pid depth name exitCode elapsed =>
      exact ((exitedText_clips look pid depth name exitCode elapsed).append
        (Clips.refl (str "\n"))).congr (by simp [ShownInFull])

end Lines

end Tracep.Exectrace
