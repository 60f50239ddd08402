import Tracep.Lib.Cut
import Tracep.Lib.Fields

/-!
# The parent of a process

`/proc/<pid>/stat` has the name of the process in parentheses, and a process
can give itself any name, with parentheses, blanks and numbers in it. So the
readers look for the last parenthesis, since what comes after the name has
none. There are four of them, two in Go that are the same and two in C that
take the rest of the line apart in ways of their own. All of them read the
parent that the kernel has written (`statPPID_text`).
-/

namespace Tracep

open Fields Strconv Libc

/-! ## The Go code -/

namespace Procfs

/-- `statPPID`, of the contents of the file if it can be read. -/
def statPPID (data : Option Bytes) : Int32 :=
  match data.bind (cutLast 41) with
  | none => -1
  | some (_, after) =>
      match goFields (after.dropWhile (· = 32)) with
      | _ :: ppid :: _ =>
          match parseInt 32 ppid with
          | some ppid => Int32.ofInt ppid
          | none => -1
      | _ => -1

end Procfs

/-- `statPPID` of the exec tracer. -/
def Exectrace.Go.statPPID : Option Bytes → Int32 := Procfs.statPPID

/-- `statPPID` of the net tracer. -/
def Nettrace.Go.statPPID : Option Bytes → Int32 := Procfs.statPPID

/-! ## The C code -/

namespace Exectrace.C

/-- The loop over the fields, with so many to go before the one that is wanted. -/
def fieldAfter : Nat → Bytes → Option Bytes
  | n, data =>
      let start := data.dropWhile isSpace
      if start = [] then none
      else
        match n with
        | 0 => some (start.takeWhile fun b => !isSpace b)
        | n + 1 => fieldAfter n (start.dropWhile fun b => !isSpace b)

def ppidbufSize : Nat := 32

/-- `statPPID`. -/
def statPPID (data : Option Bytes) : Int32 :=
  match data.bind (cutLast 41) with
  | none => -1
  | some (_, after) =>
      match fieldAfter 1 (after.dropWhile (· = 32)) with
      | none => -1
      | some field =>
          if ppidbufSize ≤ field.length then -1
          else
            let ppidbuf := cstr field
            let v := strtol ppidbuf
            if numberEnd ppidbuf = ppidbuf ∨ numberEnd ppidbuf ≠ [] ∨ strtolRange ppidbuf
                ∨ v < -2147483648 ∨ 2147483647 < v then -1
            else Int32.ofInt v

end Exectrace.C

namespace Nettrace.C

def statDataSize : Nat := 8192

/-- `stat_ppid`. -/
def statPpid (data : Option Bytes) : Int32 :=
  match data.bind fun data => cutLast 41 (data.take (statDataSize - 1)) with
  | none => -1
  | some (_, after) =>
      match strtok [32, 9, 10] ((cstr after).dropWhile (· = 32)) with
      | _ :: f1 :: _ => if numberEnd f1 = f1 then -1 else Int32.ofInt (strtol f1)
      | _ => -1

end Nettrace.C

/-! ## What the kernel writes -/

namespace Procfs

/-- The line of a process: its PID and its name, which may be anything, its state and its parent,
and further numbers. -/
structure Stat where
  pid : Nat
  name : Bytes
  state : UInt8
  state_visible : 32 < state ∧ state < 127 ∧ state ≠ 41
  ppid : Nat
  ppid_lt : ppid < 2 ^ 31
  fields : List Int
  newline : Bool

/-- The line after the name. -/
def Stat.rest (s : Stat) : Bytes :=
  (s.fields.flatMap fun n => 32 :: intText n) ++ if s.newline then [10] else []

def Stat.after (s : Stat) : Bytes :=
  columnsText 32 [(1, [s.state]), (1, digits 10 s.ppid)] ++ s.rest

def Stat.text (s : Stat) : Bytes :=
  digits 10 s.pid ++ [32, 40] ++ s.name ++ 41 :: s.after

variable (s : Stat)

/-- No parenthesis and no NUL comes after the name. -/
theorem Stat.not_mem_after {b : UInt8} (hb : b = 41 ∨ b = 0) : b ∉ s.after := by
  have hdigit : isDigit b = false := by rcases hb with rfl | rfl <;> rfl
  have hne {c : UInt8} (h41 : c ≠ 41) (h0 : c ≠ 0) : b ≠ c := by
    rcases hb with rfl | rfl
    · exact h41.symm
    · exact h0.symm
  have hstate : b ≠ s.state := by
    refine hne s.state_visible.2.2 fun h0 => ?_
    exact absurd (h0 ▸ s.state_visible.1) (by decide)
  have hrest : b ∉ s.rest := by
    rw [Stat.rest, List.mem_append, List.mem_flatMap, not_or]
    refine ⟨?_, ?_⟩
    · rintro ⟨n, -, hmem⟩
      rcases List.mem_cons.mp hmem with heq | hmem
      · exact hne (by decide) (by decide) heq
      · exact not_mem_intText hdigit (hne (by decide) (by decide)) n hmem
    · split
      · exact fun hmem => hne (by decide) (by decide) (List.mem_singleton.mp hmem)
      · exact List.not_mem_nil
  rw [Stat.after, List.mem_append, not_or]
  refine ⟨?_, hrest⟩
  simp only [columnsText, List.flatMap_cons, List.flatMap_nil, List.replicate_one, List.append_nil,
    List.mem_append, List.mem_singleton, not_or]
  exact ⟨⟨hne (by decide) (by decide), hstate⟩, hne (by decide) (by decide),
    not_mem_digits hdigit _⟩

theorem Stat.cutLast_text : cutLast 41 s.text = some (digits 10 s.pid ++ [32, 40] ++ s.name, s.after) :=
  cutLast_append (s.not_mem_after (Or.inl rfl))

/-- A blank follows the parent, or nothing. -/
theorem Stat.ends_rest {blank : Bytes → Nat} (h : Ascii blank) : Ends blank s.rest := by
  unfold Stat.rest
  cases s.fields with
  | nil =>
      cases s.newline with
      | true => exact h.newline
      | false => trivial
  | cons n fields => exact h.space

theorem Stat.words : Words [(1, [s.state]), (1, digits 10 s.ppid)] := by
  constructor
  · rintro column hc
    rcases List.mem_cons.mp hc with rfl | hc
    · refine ⟨List.cons_ne_nil _ _, fun b hb => ?_⟩
      obtain rfl := List.mem_singleton.mp hb
      exact ⟨s.state_visible.1, s.state_visible.2.1⟩
    · obtain rfl := List.mem_singleton.mp hc
      exact ⟨digits_ne_nil _, fun b hb => visible_of_isDigit (digits_isDigit _ b hb)⟩
  · rintro column hc
    obtain rfl := List.mem_singleton.mp hc
    exact Nat.one_pos

/-- The first two fields after the name, whatever is a blank. -/
theorem Stat.split_after {blank : Bytes → Nat} (h : Ascii blank) :
    split blank (s.after.dropWhile (· = 32)) = [s.state] :: digits 10 s.ppid :: split blank s.rest := by
  have hblank : ∀ b : UInt8, decide (b = 32) = true → Blank blank b :=
    fun b hb => of_decide_eq_true hb ▸ h.space
  rw [split_dropWhile hblank, Stat.after, h.split s.words (s.ends_rest h)]
  rfl

/-- The Go readers read the parent. -/
theorem statPPID_go : statPPID (some s.text) = Int32.ofNat s.ppid := by
  have hfields := s.split_after ascii_whiteSpace
  have hparse : parseInt 32 (digits 10 s.ppid) = some (s.ppid : Int) :=
    parseInt_digits (by decide) s.ppid_lt
  simp only [statPPID, Option.bind_some, s.cutLast_text, goFields, hfields, hparse]
  rfl

end Procfs

/-! ## The parent is read -/

namespace Exectrace.C

/-- The loop finds what a split gives. -/
theorem fieldAfter_eq (n : Nat) (data : Bytes) :
    fieldAfter n data = (split (oneOf isSpace) data)[n]? := by
  induction n generalizing data with
  | zero =>
      unfold fieldAfter
      by_cases hend : data.dropWhile isSpace = []
      · rw [← split_dropWhile fun b => blank_oneOf, hend]
        rfl
      · rw [split_token hend]
        exact if_neg hend
  | succ n ih =>
      unfold fieldAfter
      by_cases hend : data.dropWhile isSpace = []
      · rw [← split_dropWhile fun b => blank_oneOf, hend]
        rfl
      · rw [split_token hend, List.getElem?_cons_succ, ← ih]
        exact if_neg hend

end Exectrace.C

namespace Procfs

variable (s : Stat)

theorem Stat.fieldAfter_after :
    Exectrace.C.fieldAfter 1 (s.after.dropWhile (· = 32)) = some (digits 10 s.ppid) := by
  rw [Exectrace.C.fieldAfter_eq, s.split_after ascii_isSpace]
  rfl

theorem statPPID_cExec : Exectrace.C.statPPID (some s.text) = Int32.ofNat s.ppid := by
  have hlen : (digits 10 s.ppid).length ≤ 10 :=
    length_digits_le (by decide) (s.ppid_lt.trans (by decide))
  have hlt := s.ppid_lt
  have hcstr : cstr (digits 10 s.ppid) = digits 10 s.ppid := cstr_of_noNul (not_mem_digits rfl _)
  have hfits : ¬Exectrace.C.ppidbufSize ≤ (digits 10 s.ppid).length :=
    Nat.not_le.mpr (lt_of_le_of_lt hlen (by decide))
  have hend : ¬[] = digits 10 s.ppid := (digits_ne_nil _).symm
  simp only [Exectrace.C.statPPID, Option.bind_some, s.cutLast_text, s.fieldAfter_after, hcstr,
    if_neg hfits, numberEnd_digits, strtolRange_digits (hlt.trans (by decide)),
    strtol_digits (hlt.trans (by decide))]
  rw [if_neg]
  · rfl
  · rintro (h | h | h | h | h)
    · exact hend h
    · exact h rfl
    · cases h
    · omega
    · omega

theorem statPPID_cNet (h : s.text.length < Nettrace.C.statDataSize) :
    Nettrace.C.statPpid (some s.text) = Int32.ofNat s.ppid := by
  have hall : s.text.take (Nettrace.C.statDataSize - 1) = s.text :=
    List.take_of_length_le (Nat.le_sub_one_of_lt h)
  have hcstr : cstr s.after = s.after := cstr_of_noNul (s.not_mem_after (Or.inr rfl))
  have hfields := s.split_after ascii_strtok
  have hend : ¬[] = digits 10 s.ppid := (digits_ne_nil _).symm
  simp only [Nettrace.C.statPpid, Option.bind_some, hall, s.cutLast_text, hcstr, strtok, hfields,
    numberEnd_digits, if_neg hend, strtol_digits (s.ppid_lt.trans (by decide))]
  rfl

/-- Every reader reads the parent that is in the line, whatever the name. -/
theorem statPPID_text (h : s.text.length < 8192) :
    Exectrace.Go.statPPID (some s.text) = Int32.ofNat s.ppid
      ∧ Nettrace.Go.statPPID (some s.text) = Int32.ofNat s.ppid
      ∧ Exectrace.C.statPPID (some s.text) = Int32.ofNat s.ppid
      ∧ Nettrace.C.statPpid (some s.text) = Int32.ofNat s.ppid :=
  ⟨statPPID_go s, statPPID_go s, statPPID_cExec s, statPPID_cNet s h⟩

/-- A process whose name is `) R 1 (` and a newline. -/
def forged : Stat where
  pid := 5
  name := [41, 32, 82, 32, 49, 32, 40, 10]
  state := 83
  state_visible := by decide
  ppid := 42
  ppid_lt := by decide
  fields := [5, -1]
  newline := true

theorem statPPID_forged :
    Exectrace.Go.statPPID (some forged.text) = 42 ∧ Nettrace.Go.statPPID (some forged.text) = 42
      ∧ Exectrace.C.statPPID (some forged.text) = 42 ∧ Nettrace.C.statPpid (some forged.text) = 42 :=
  statPPID_text forged (by decide)

end Procfs

end Tracep
