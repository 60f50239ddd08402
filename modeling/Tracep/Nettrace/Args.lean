import Tracep.Lib.Trim
import Tracep.Lib.Utf8

/-!
# The command line of the net tracer

Arguments that begin with a dash are clusters of letters. Most of these set
a variable; `p` and `o` take the next argument for a list of PIDs and for
the output file. The first argument that is no cluster begins the command.

After a `p` or an `o` the C port leaves the rest of the cluster out, and the
Go port goes on with it. A command line is read as a list of items
(`itemsOf`), of which C passes over some that Go takes for letters
(`C.scan_eq`, `Go.scan_eq`). What is white space around a PID differs too,
and only C takes an empty name for that of a file. So the ports end alike
exactly where none of this shows (`scan_same_iff`).
-/

namespace Tracep.Nettrace.Args

open Fields Strconv

/-! ## The code -/

/-- The variables that letters set. -/
inductive Switch where
  | colorForce
  | showClose
  | showUpdate
  | showUser
  | showReverse
  | ipv4Only
  | ipv6Only
  | outboundOnly
  | showErrors
deriving Repr, DecidableEq

/-- The value that a variable is set to. At the start it has the other one. -/
def Switch.value (sw : Switch) : Bool := sw ≠ .showErrors

/-- The variable that a letter sets. -/
def switchOf : Char → Option Switch
  | 'c' => some .colorForce
  | 't' => some .showClose
  | 'U' => some .showUpdate
  | 'u' => some .showUser
  | 'r' => some .showReverse
  | '4' => some .ipv4Only
  | '6' => some .ipv6Only
  | 'O' => some .outboundOnly
  | 'Q' => some .showErrors
  | _ => none

/-- The variables. The output file is kept by each port in its own way. -/
structure Vars (φ : Type) where
  switch : Switch → Bool
  watchPIDs : List Int32
  outFile : φ

def Vars.start {φ : Type} (noFile : φ) : Vars φ := ⟨fun sw => !sw.value, [], noFile⟩

def Vars.set {φ : Type} (v : Vars φ) (sw : Switch) : Vars φ :=
  { v with switch := Function.update v.switch sw sw.value }

/-- The argument is no cluster. -/
def IsCommand (a : Bytes) : Prop := a.length < 2 ∨ a.head? ≠ some 45

instance decidableIsCommand (a : Bytes) : Decidable (IsCommand a) :=
  inferInstanceAs (Decidable (_ ∨ _))

namespace Go

section Scan

variable (gone : Int32 → Bool)

/-- A part of the list of PIDs: the PID, if it is not empty. There is no process with some PIDs. -/
def readPID (s : Bytes) : Option (Option Int32) :=
  let s := trimSpace s
  if s = [] then some none
  else
    let (pid, ok) := atoi s
    if !ok || pid ≤ 0 then none
    else if gone (Int32.ofInt pid) then none
    else some (some (Int32.ofInt pid))

def readPIDs (watchPIDs : List Int32) : List Bytes → Option (List Int32)
  | [] => some watchPIDs
  | s :: parts =>
      match readPID gone s with
      | none => none
      | some none => readPIDs watchPIDs parts
      | some (some pid) => readPIDs (watchPIDs ++ [pid]) parts

/-- The letters of a cluster, with the arguments after it. `-h` ends the program, too. -/
def letters (v : Vars Bytes) : List Char → List Bytes → Option (Vars Bytes × List Bytes)
  | [], args => some (v, args)
  | ch :: chs, args =>
      match switchOf ch with
      | some sw => letters (v.set sw) chs args
      | none =>
          if ch = 'p' then do
            let arg ← args.head?
            let watchPIDs ← readPIDs gone v.watchPIDs (arg.splitOn 44)
            letters { v with watchPIDs } chs args.tail
          else if ch = 'o' then do
            let arg ← args.head?
            letters { v with outFile := arg } chs args.tail
          else none

theorem letters_length {v v' : Vars Bytes} {chs : List Char} {args rest : List Bytes}
    (h : letters gone v chs args = some (v', rest)) : rest.length ≤ args.length := by
  induction chs generalizing v args with
  | nil =>
      obtain ⟨-, rfl⟩ := Prod.mk.inj (Option.some.inj h)
      exact Nat.le_refl _
  | cons ch chs ih =>
      rw [letters] at h
      split at h
      · exact ih h
      · split at h
        · obtain ⟨_, -, h⟩ := Option.bind_eq_some_iff.mp h
          obtain ⟨_, -, h⟩ := Option.bind_eq_some_iff.mp h
          exact (ih h).trans ((List.tail_sublist _).length_le)
        · split at h
          · obtain ⟨_, -, h⟩ := Option.bind_eq_some_iff.mp h
            exact (ih h).trans ((List.tail_sublist _).length_le)
          · cases h

/-- The loop over the arguments; the command is what is left. -/
def scan (v : Vars Bytes) : List Bytes → Option (Vars Bytes × List Bytes)
  | [] => some (v, [])
  | a :: args =>
      if IsCommand a then some (v, a :: args)
      else
        match _h : letters gone v (Utf8.runes a.tail) args with
        | none => none
        | some (v, rest) => scan v rest
termination_by args => args.length
decreasing_by exact Nat.lt_succ_of_le (letters_length gone _h)

/-- What the loop starts with. -/
def scanArgs (args : List Bytes) : Option (Vars Bytes × List Bytes) := scan gone (.start []) args

end Scan

end Go

namespace C

def maxWatch : Nat := 256

/-- Blanks and tabs. -/
def isBlank (b : UInt8) : Bool := b == 32 || b == 9

/-- The bytes of a text as characters. -/
def chars (s : Bytes) : List Char := s.map fun b => Char.ofNat b.toNat

section Scan

variable (gone : Int32 → Bool)

/-- A token of the list of PIDs: the PID, if there is more than blanks and tabs. -/
def readPid (s : Bytes) : Option (Option Int32) :=
  let s := trimBytes isBlank s
  if s = [] then some none
  else
    let pid := Libc.strtol s
    if Libc.numberEnd s ≠ [] ∨ pid ≤ 0 then none
    else if gone (Int32.ofInt pid) then none
    else some (some (Int32.ofInt pid))

def readPids (watchPids : List Int32) : List Bytes → Option (List Int32)
  | [] => some watchPids
  | s :: tokens =>
      match readPid gone s with
      | none => none
      | some none => readPids watchPids tokens
      | some (some pid) =>
          readPids (if watchPids.length < maxWatch then watchPids ++ [pid] else watchPids) tokens

/-- The letters of a cluster, with the arguments after it. After `p` and `o` the next argument is
up. -/
def letters (v : Vars (Option Bytes)) :
    List Char → List Bytes → Option (Vars (Option Bytes) × List Bytes)
  | [], args => some (v, args)
  | ch :: chs, args =>
      match switchOf ch with
      | some sw => letters (v.set sw) chs args
      | none =>
          if ch = 'p' then do
            let arg ← args.head?
            let watchPIDs ← readPids gone v.watchPIDs (strtok [44] arg)
            return ({ v with watchPIDs }, args.tail)
          else if ch = 'o' then do
            let arg ← args.head?
            return ({ v with outFile := some arg }, args.tail)
          else none

theorem letters_length {v v' : Vars (Option Bytes)} {chs : List Char} {args rest : List Bytes}
    (h : letters gone v chs args = some (v', rest)) : rest.length ≤ args.length := by
  induction chs generalizing v with
  | nil =>
      obtain ⟨-, rfl⟩ := Prod.mk.inj (Option.some.inj h)
      exact Nat.le_refl _
  | cons ch chs ih =>
      rw [letters] at h
      split at h
      · exact ih h
      · split at h
        · obtain ⟨_, -, h⟩ := Option.bind_eq_some_iff.mp h
          obtain ⟨_, -, h⟩ := Option.bind_eq_some_iff.mp h
          obtain ⟨-, rfl⟩ := Prod.mk.inj (Option.some.inj h)
          exact (List.tail_sublist _).length_le
        · split at h
          · obtain ⟨_, -, h⟩ := Option.bind_eq_some_iff.mp h
            obtain ⟨-, rfl⟩ := Prod.mk.inj (Option.some.inj h)
            exact (List.tail_sublist _).length_le
          · cases h

/-- The loop over the arguments; the command is what is left. -/
def scan (v : Vars (Option Bytes)) : List Bytes → Option (Vars (Option Bytes) × List Bytes)
  | [] => some (v, [])
  | a :: args =>
      if IsCommand a then some (v, a :: args)
      else
        match _h : letters gone v (chars a.tail) args with
        | none => none
        | some (v, rest) => scan v rest
termination_by args => args.length
decreasing_by exact Nat.lt_succ_of_le (letters_length gone _h)

/-- What the loop starts with. -/
def scanArgs (args : List Bytes) : Option (Vars (Option Bytes) × List Bytes) :=
  scan gone (.start none) args

end Scan

end C

/-! ## A command line as items -/

/-- What a command line asks for. A letter is skipped if it is after one that takes an argument. -/
inductive Item where
  | letter (ch : Char)
  | pids (arg : Bytes)
  | out (arg : Bytes)
  | missing
  | skipped (ch : Char)
deriving DecidableEq

/-- The items of a cluster, with the arguments after it. -/
def itemsOf : List Char → List Bytes → List Item × List Bytes
  | [], args => ([], args)
  | ch :: chs, args =>
      if ch = 'p' ∨ ch = 'o' then
        match args with
        | [] => ([.missing], [])
        | arg :: args => ((if ch = 'p' then .pids arg else .out arg) :: chs.map .skipped, args)
      else
        let (items, rest) := itemsOf chs args
        (.letter ch :: items, rest)

theorem itemsOf_length (chs : List Char) (args : List Bytes) :
    (itemsOf chs args).2.length ≤ args.length := by
  induction chs with
  | nil => exact Nat.le_refl _
  | cons ch chs ih =>
      rw [itemsOf.eq_def]
      simp only []
      split
      · cases args with
        | nil => exact Nat.le_refl _
        | cons arg args => exact Nat.le_succ _
      · exact ih

/-- The items of all clusters, and the command. -/
def lineOf : List Bytes → List Item × List Bytes
  | [] => ([], [])
  | a :: args =>
      if IsCommand a then ([], a :: args)
      else
        let items := (itemsOf (C.chars a.tail) args).1
        let line := lineOf (itemsOf (C.chars a.tail) args).2
        (items ++ line.1, line.2)
termination_by args => args.length
decreasing_by exact Nat.lt_succ_of_le (itemsOf_length _ _)

def items (args : List Bytes) : List Item := (lineOf args).1

def command (args : List Bytes) : List Bytes := (lineOf args).2

theorem items_cluster {a : Bytes} (h : ¬IsCommand a) (args : List Bytes) : items (a :: args)
    = (itemsOf (C.chars a.tail) args).1 ++ items (itemsOf (C.chars a.tail) args).2 := by
  rw [items, lineOf, if_neg h]
  rfl

theorem command_cluster {a : Bytes} (h : ¬IsCommand a) (args : List Bytes) :
    command (a :: args) = command (itemsOf (C.chars a.tail) args).2 := by
  rw [command, lineOf, if_neg h]
  rfl

/-- A letter that takes an argument, after another one. -/
def Item.Second : Item → Prop
  | .skipped ch => ch = 'p' ∨ ch = 'o'
  | _ => False

theorem not_switch_of_takes {ch : Char} (h : ch = 'p' ∨ ch = 'o') : switchOf ch = none := by
  rcases h with rfl | rfl <;> rfl

/-! ### In C -/

namespace C

section Items

variable (gone : Int32 → Bool)

/-- What an item does. -/
def apply (v : Vars (Option Bytes)) : Item → Option (Vars (Option Bytes))
  | .letter ch => (switchOf ch).map v.set
  | .pids arg => (readPids gone v.watchPIDs (strtok [44] arg)).map fun w => { v with watchPIDs := w }
  | .out arg => some { v with outFile := some arg }
  | .missing => none
  | .skipped _ => some v

variable {gone} {v : Vars (Option Bytes)}

theorem foldlM_skipped (chs : List Char) :
    (chs.map Item.skipped).foldlM (apply gone) v = some v := by
  induction chs with
  | nil => rfl
  | cons ch chs ih =>
      rw [List.map_cons, List.foldlM_cons]
      exact ih

theorem letters_eq (chs : List Char) (args : List Bytes) : letters gone v chs args
    = ((itemsOf chs args).1.foldlM (apply gone) v).map (·, (itemsOf chs args).2) := by
  induction chs generalizing v with
  | nil => rfl
  | cons ch chs ih =>
      rw [letters, itemsOf.eq_def]
      simp only []
      by_cases htakes : ch = 'p' ∨ ch = 'o'
      · rw [not_switch_of_takes htakes, if_pos htakes]
        cases args with
        | nil =>
            rcases htakes with rfl | rfl <;> rfl
        | cons arg args =>
            rcases htakes with rfl | rfl
            · simp only [if_true, List.head?_cons, List.tail_cons, List.foldlM_cons, apply,
                Option.bind_eq_bind, Option.bind_some]
              cases readPids gone v.watchPIDs (strtok [44] arg) with
              | none => rfl
              | some w =>
                  simp only [Option.map_some, Option.bind_some, foldlM_skipped]
                  rfl
            · simp only [Char.reduceEq, if_false, if_true, List.head?_cons, List.tail_cons,
                List.foldlM_cons, apply, Option.bind_eq_bind, Option.bind_some, foldlM_skipped]
              rfl
      · obtain ⟨hp, ho⟩ := not_or.mp htakes
        rw [if_neg htakes, if_neg hp, if_neg ho, List.foldlM_cons, apply]
        cases switchOf ch with
        | none => rfl
        | some sw => exact ih

theorem scan_cluster {a : Bytes} (h : ¬IsCommand a) (args : List Bytes) :
    scan gone v (a :: args) = (letters gone v (chars a.tail) args).bind fun r =>
      scan gone r.1 r.2 := by
  rw [scan, if_neg h]
  split
  · next hnone => rw [hnone, Option.bind_none]
  · next hsome => rw [hsome, Option.bind_some]

theorem scan_eq (args : List Bytes) :
    scan gone v args = ((items args).foldlM (apply gone) v).map (·, command args) := by
  induction args using lineOf.induct generalizing v with
  | case1 =>
      rw [scan, items, command, lineOf]
      rfl
  | case2 a args hcommand =>
      rw [scan, if_pos hcommand, items, command, lineOf, if_pos hcommand]
      rfl
  | case3 a args hcluster ih =>
      rw [scan_cluster hcluster, letters_eq, items_cluster hcluster, command_cluster hcluster,
        List.foldlM_append]
      cases (itemsOf (chars a.tail) args).1.foldlM (apply gone) v with
      | none => rfl
      | some v => exact ih

end Items

end C

/-! ### In Go -/

theorem not_known_of_le {ch : Char} (h : 128 ≤ ch.toNat) :
    switchOf ch = none ∧ ¬(ch = 'p' ∨ ch = 'o') := by
  constructor
  · unfold switchOf
    split
    all_goals first
      | rfl
      | exact absurd h (by decide)
  · rintro (rfl | rfl) <;> exact absurd h (by decide)

namespace Go

section Items

variable (gone : Int32 → Bool)

/-- What an item does. -/
def apply (v : Vars Bytes) : Item → Option (Vars Bytes)
  | .letter ch => (switchOf ch).map v.set
  | .pids arg => (readPIDs gone v.watchPIDs (arg.splitOn 44)).map fun w => { v with watchPIDs := w }
  | .out arg => some { v with outFile := arg }
  | .missing => none
  | .skipped ch => (switchOf ch).map v.set

variable {gone} {v : Vars Bytes}

theorem letters_switch {ch : Char} (h : ¬(ch = 'p' ∨ ch = 'o')) (chs : List Char)
    (args : List Bytes) :
    letters gone v (ch :: chs) args = (switchOf ch).bind fun sw => letters gone (v.set sw) chs args := by
  obtain ⟨hp, ho⟩ := not_or.mp h
  rw [letters, if_neg hp, if_neg ho]
  cases switchOf ch <;> rfl

theorem letters_pids (chs : List Char) (arg : Bytes) (args : List Bytes) :
    letters gone v ('p' :: chs) (arg :: args) = (apply gone v (.pids arg)).bind fun v =>
      letters gone v chs args := by
  rw [letters, apply]
  simp only [switchOf, if_true, List.head?_cons, List.tail_cons, Option.bind_eq_bind,
    Option.bind_some]
  cases readPIDs gone v.watchPIDs (arg.splitOn 44) <;> rfl

/-- Runes and bytes are the same letters, up to the first that is none. -/
theorem letters_runes (s : Bytes) (args : List Bytes) :
    letters gone v (Utf8.runes s) args = letters gone v (C.chars s) args := by
  induction s generalizing v args with
  | nil => rfl
  | cons b s ih =>
      rcases Nat.lt_or_ge b.toNat 128 with hascii | hhigh
      · rw [Utf8.runes_ascii hascii, C.chars, List.map_cons]
        simp only [letters, ih]
        rfl
      · obtain ⟨c, cs, hrunes, hc⟩ := Utf8.runes_not_ascii hhigh s
        have hb : 128 ≤ (Char.ofNat b.toNat).toNat := hhigh.trans_eq
          (Utf8.toNat_val_ofNat b.toNat_lt).symm
        rw [hrunes, C.chars, List.map_cons, letters_switch (not_known_of_le hc).2,
          letters_switch (not_known_of_le hb).2, (not_known_of_le hc).1, (not_known_of_le hb).1]
        rfl

variable (gone v) in
/-- No item before which nothing is refused is a second letter that takes an argument. -/
def Clear (items : List Item) : Prop :=
  ∀ pre i post, items = pre ++ i :: post → i.Second → pre.foldlM (apply gone) v = none

theorem Clear.not_second {i : Item} {items : List Item} (h : Clear gone v (i :: items)) :
    ¬i.Second := fun hi => Option.some_ne_none v (h [] i items rfl hi)

theorem Clear.left {l r : List Item} (h : Clear gone v (l ++ r)) : Clear gone v l := by
  rintro pre i post rfl
  exact h pre i (post ++ r) (by rw [List.append_assoc, List.cons_append])

theorem Clear.right {v' : Vars Bytes} {l r : List Item} (h : Clear gone v (l ++ r))
    (hl : l.foldlM (apply gone) v = some v') : Clear gone v' r := by
  rintro pre i post rfl hi
  have hpre := h (l ++ pre) i post (List.append_assoc l pre _).symm hi
  rwa [List.foldlM_append, hl] at hpre

theorem Clear.tail {v' : Vars Bytes} {i : Item} {items : List Item}
    (h : Clear gone v (i :: items)) (hi : apply gone v i = some v') : Clear gone v' items := by
  refine Clear.right (l := [i]) h ?_
  rw [List.foldlM_cons, hi]
  rfl

theorem letters_skipped {chs : List Char} (h : Clear gone v (chs.map .skipped))
    (args : List Bytes) : letters gone v chs args
      = ((chs.map Item.skipped).foldlM (apply gone) v).map (·, args) := by
  induction chs generalizing v with
  | nil => rfl
  | cons ch chs ih =>
      rw [List.map_cons] at h ⊢
      rw [letters_switch h.not_second, List.foldlM_cons]
      have htail := fun v' => @Clear.tail gone v v' _ _ h
      rw [apply] at htail ⊢
      cases hsw : switchOf ch with
      | none => rfl
      | some sw => exact ih (htail _ (congrArg (Option.map v.set) hsw))

theorem letters_eq {chs : List Char} {args : List Bytes}
    (h : Clear gone v (itemsOf chs args).1) : letters gone v chs args
      = ((itemsOf chs args).1.foldlM (apply gone) v).map (·, (itemsOf chs args).2) := by
  induction chs generalizing v with
  | nil => rfl
  | cons ch chs ih =>
      rw [itemsOf.eq_def] at h ⊢
      simp only [] at h ⊢
      by_cases htakes : ch = 'p' ∨ ch = 'o'
      · simp only [if_pos htakes] at h ⊢
        cases args with
        | nil =>
            rw [letters, not_switch_of_takes htakes]
            rcases htakes with rfl | rfl <;> rfl
        | cons arg args =>
            rcases htakes with rfl | rfl
            · simp only [if_true] at h ⊢
              rw [letters_pids, List.foldlM_cons]
              cases hpids : apply gone v (.pids arg) with
              | none => rfl
              | some v => exact letters_skipped (h.tail hpids) args
            · exact letters_skipped (h.tail rfl) args
      · simp only [if_neg htakes] at h ⊢
        rw [letters_switch htakes, List.foldlM_cons]
        have htail := fun v' => @Clear.tail gone v v' _ _ h
        rw [apply] at htail ⊢
        cases hsw : switchOf ch with
        | none => rfl
        | some sw => exact ih (htail _ (congrArg (Option.map v.set) hsw))

theorem scan_cluster {a : Bytes} (h : ¬IsCommand a) (args : List Bytes) :
    scan gone v (a :: args) = (letters gone v (C.chars a.tail) args).bind fun r =>
      scan gone r.1 r.2 := by
  rw [scan, if_neg h, ← letters_runes]
  split
  · next hnone => rw [hnone, Option.bind_none]
  · next hsome => rw [hsome, Option.bind_some]

theorem scan_eq {args : List Bytes} (h : Clear gone v (items args)) :
    scan gone v args = ((items args).foldlM (apply gone) v).map (·, command args) := by
  induction args using lineOf.induct generalizing v with
  | case1 =>
      rw [scan, items, command, lineOf]
      rfl
  | case2 a args hcommand =>
      rw [scan, if_pos hcommand, items, command, lineOf, if_pos hcommand]
      rfl
  | case3 a args hcluster ih =>
      rw [items_cluster hcluster] at h
      rw [scan_cluster hcluster, letters_eq h.left, items_cluster hcluster,
        command_cluster hcluster, List.foldlM_append]
      cases hitems : (itemsOf (C.chars a.tail) args).1.foldlM (apply gone) v with
      | none => rfl
      | some v => exact ih (h.right hitems)

end Items

end Go

/-! ## Lists of PIDs -/

/-- The PIDs in the parts of a list. -/
def pidList (read : Bytes → Option (Option Int32)) : List Bytes → Option (List Int32)
  | [] => some []
  | s :: parts => (read s).bind fun pid => (pidList read parts).map (pid.toList ++ ·)

/-- What is white space around a PID for Go is so for C, too: only blanks and tabs are after it, no
white space that is not ASCII is before it, and where there is no PID there are but blanks and
tabs. -/
def Tidy (s : Bytes) : Prop :=
  (trimBytes C.isBlank s).dropWhile Libc.isSpace = trimSpace s
    ∧ (trimSpace s = [] → trimBytes C.isBlank s = [])

section Pids

variable {gone : Int32 → Bool} {s arg : Bytes} {parts : List Bytes} {watch l : List Int32}
  {r : Option Int32}

theorem Go.readPIDs_eq :
    Go.readPIDs gone watch parts = (pidList (Go.readPID gone) parts).map (watch ++ ·) := by
  induction parts generalizing watch with
  | nil => exact congrArg some (List.append_nil watch).symm
  | cons s parts ih =>
      rw [readPIDs, pidList]
      cases readPID gone s with
      | none => rfl
      | some pid =>
          cases pid with
          | none =>
              simp only [ih, Option.bind_some, Option.toList_none, List.nil_append, Option.map_id']
          | some pid =>
              simp only [ih, Option.bind_some, Option.map_map, Function.comp_def,
                Option.toList_some, List.append_assoc]

theorem C.readPids_eq (h : watch.length ≤ maxWatch) : C.readPids gone watch parts
    = (pidList (C.readPid gone) parts).map fun l => (watch ++ l).take maxWatch := by
  induction parts generalizing watch with
  | nil =>
      rw [readPids, pidList, Option.map_some, List.append_nil, List.take_of_length_le h]
  | cons s parts ih =>
      rw [readPids, pidList]
      cases readPid gone s with
      | none => rfl
      | some pid =>
          cases pid with
          | none =>
              simp only [ih h, Option.bind_some, Option.toList_none, List.nil_append,
                Option.map_id']
          | some pid =>
              simp only [Option.bind_some, Option.map_map, Function.comp_def, Option.toList_some]
              split
              · next hroom =>
                  rw [ih (by rw [List.length_append]; exact hroom)]
                  simp only [List.append_assoc]
              · next hfull =>
                  have hlen : watch.length = maxWatch := Nat.le_antisymm h (Nat.not_lt.mp hfull)
                  simp only [ih h, List.take_left' hlen]

theorem plain_of_number (h : Libc.Number s) : ∀ b ∈ s, Plain whiteSpace b := by
  obtain ⟨-, hdigits⟩ := h
  have hdigit : ∀ b, isDigit b = true → Plain whiteSpace b := fun b hb =>
    plain_whiteSpace (UInt8.lt_trans (visible_of_isDigit hb).2 (by decide))
      (Libc.isSpace_of_isDigit hb)
  intro b hb
  unfold signed at hdigits
  split at hdigits
  · rcases List.mem_cons.mp hb with rfl | hb
    · exact plain_whiteSpace (by decide) rfl
    · exact hdigit b (hdigits b hb)
  · rcases List.mem_cons.mp hb with rfl | hb
    · exact plain_whiteSpace (by decide) rfl
    · exact hdigit b (hdigits b hb)
  · exact hdigit b (hdigits b hb)

theorem isSpace_of_isBlank {b : UInt8} (h : C.isBlank b = true) : Libc.isSpace b = true := by
  rw [C.isBlank, Bool.or_eq_true, beq_iff_eq, beq_iff_eq] at h
  rcases h with rfl | rfl <;> rfl

theorem strtol_dropWhile (s : Bytes) :
    Libc.strtol (s.dropWhile Libc.isSpace) = Libc.strtol s := by
  rw [Libc.strtol, Libc.strtol, Libc.leading, Libc.leading, List.dropWhile_idempotent]

/-- A number with white space around it, some of which is trimmed. -/
theorem trimSpace_of_number {lead w trail : Bytes} (hlead : ∀ b ∈ lead, Libc.isSpace b = true)
    (htrail : ∀ b ∈ trail, Libc.isSpace b = true) (h : Libc.Number (w.dropWhile Libc.isSpace)) :
    trimSpace (lead ++ (w ++ trail)) = w.dropWhile Libc.isSpace := by
  have hw : lead ++ (w ++ trail)
      = lead ++ w.takeWhile Libc.isSpace ++ (w.dropWhile Libc.isSpace ++ trail) := by
    rw [List.append_assoc, ← List.append_assoc (w.takeWhile _), List.takeWhile_append_dropWhile]
  rw [hw]
  refine trimSpace_word (fun b hb => ?_) (plain_of_number h) htrail
  rcases List.mem_append.mp hb with hb | hb
  · exact hlead b hb
  · exact List.mem_takeWhile_imp hb

/-- C accepts what Go does where it is tidy, and nothing else. -/
theorem C.readPid_iff (hsmall : (atoi (trimSpace s)).1 < 2 ^ 31) :
    C.readPid gone s = some r ↔ Go.readPID gone s = some r ∧ Tidy s := by
  obtain ⟨lead, trail, hs, hlead, htrail⟩ := trimBytes_around C.isBlank s
  have hlead : ∀ b ∈ lead, Libc.isSpace b = true := fun b hb => isSpace_of_isBlank (hlead b hb)
  have htrail : ∀ b ∈ trail, Libc.isSpace b = true := fun b hb => isSpace_of_isBlank (htrail b hb)
  rw [C.readPid, Go.readPID, Tidy]
  generalize trimBytes C.isBlank s = w at hs ⊢
  by_cases hnil : w = []
  · have htrim : trimSpace s = [] := by
      rw [hs, hnil]
      exact trimSpace_word hlead (fun b hb => absurd hb List.not_mem_nil) htrail
    simp only [hnil, htrim, if_true, List.dropWhile_nil, imp_self, and_true]
  have hnumber := Libc.numberEnd_eq_nil_iff hnil
  simp only [if_neg hnil]
  by_cases hnum : Libc.Number (w.dropWhile Libc.isSpace)
  · -- both come to the number
    have htrim : trimSpace s = w.dropWhile Libc.isSpace := by
      rw [hs]
      exact trimSpace_of_number hlead htrail hnum
    have hne : w.dropWhile Libc.isSpace ≠ [] := by
      intro hempty
      rw [hempty] at hnum
      exact hnum.1 rfl
    rw [htrim] at hsmall ⊢
    obtain ⟨hpos, hnonpos⟩ := Libc.atoi_of_number hnum hsmall
    rw [hnumber.mpr hnum, ← strtol_dropWhile w]
    simp only [if_neg hne, ne_eq, not_true, false_or]
    rcases Int.lt_or_le 0 (Libc.strtol (w.dropWhile Libc.isSpace)) with hpid | hpid
    · simp only [hpos hpid, Int.not_le.mpr hpid, Bool.not_true, Bool.false_or, decide_false,
        Bool.false_eq_true, if_false, true_and]
      exact (and_iff_left fun h => absurd h hne).symm
    · have hgo : (!(atoi (w.dropWhile Libc.isSpace)).2
          || decide ((atoi (w.dropWhile Libc.isSpace)).1 ≤ 0)) = true := by
        rw [decide_eq_true (hnonpos hpid), Bool.or_true]
      simp only [if_pos hpid, if_pos hgo]
      exact iff_of_false (Option.some_ne_none r).symm fun h => Option.some_ne_none r h.1.symm
  · -- C refuses, and Go does if it comes to the same text
    have hrefused : Libc.numberEnd w ≠ [] := mt hnumber.mp hnum
    rw [if_pos (Or.inl hrefused)]
    refine iff_of_false (Option.some_ne_none r).symm ?_
    rintro ⟨hgo, htidy, hempty⟩
    rw [← htidy] at hgo hempty
    rw [if_neg fun h => hnil (hempty h)] at hgo
    split at hgo
    · cases hgo
    · next hok =>
        rw [Bool.not_eq_true, Bool.or_eq_false_iff, Bool.not_eq_false'] at hok
        exact hnum (Libc.number_of_atoi hok.1)

theorem C.pidList_iff (hsmall : ∀ s ∈ arg.splitOn 44, (atoi (trimSpace s)).1 < 2 ^ 31) :
    pidList (C.readPid gone) (strtok [44] arg) = some l ↔
      pidList (Go.readPID gone) (arg.splitOn 44) = some l ∧ ∀ s ∈ arg.splitOn 44, Tidy s := by
  rw [strtok_single]
  generalize arg.splitOn 44 = parts at hsmall ⊢
  induction parts generalizing l with
  | nil => exact (and_iff_left fun s hs => absurd hs List.not_mem_nil).symm
  | cons s parts ih =>
      obtain ⟨hs, hparts⟩ := List.forall_mem_cons.mp hsmall
      by_cases hempty : s = []
      · have hskip : pidList (Go.readPID gone) (s :: parts) = pidList (Go.readPID gone) parts := by
          rw [pidList, hempty]
          exact Option.map_id'
        have htidy : Tidy s := by
          rw [hempty]
          exact ⟨rfl, fun _ => rfl⟩
        rw [List.filter_cons_of_neg (by simpa using hempty), ih hparts, hskip, List.forall_mem_cons,
          and_iff_right htidy]
      · rw [List.filter_cons_of_pos (by simpa using hempty), pidList, pidList,
          Option.bind_eq_some_iff, Option.bind_eq_some_iff, List.forall_mem_cons]
        simp only [Option.map_eq_some_iff, C.readPid_iff hs, ih hparts]
        constructor
        · rintro ⟨r, ⟨hr, htidy⟩, l', ⟨hl', hall⟩, rfl⟩
          exact ⟨⟨r, hr, l', hl', rfl⟩, htidy, hall⟩
        · rintro ⟨⟨r, hr, l', hl', rfl⟩, htidy, hall⟩
          exact ⟨r, ⟨hr, htidy⟩, l', ⟨hl', hall⟩, rfl⟩

end Pids

/-! ## Where a scanner ends -/

def Item.outArg : Item → Option Bytes
  | .out arg => some arg
  | _ => none

/-- What a port makes of items: which it refuses, which variable and which PIDs they stand for,
how many PIDs it keeps, and how it keeps the name of a file. -/
structure Taking (φ : Type) where
  refused : Item → Prop
  sets : Item → Option Switch
  pids : Item → List Int32
  clip : List Int32 → List Int32
  file : Bytes → φ
  clip_append : ∀ l l', clip (clip l ++ l') = clip (l ++ l')

namespace Taking

variable {φ : Type} (P : Taking φ)

/-- The variables after items. -/
def after (v : Vars φ) (items : List Item) : Vars φ where
  switch sw := if some sw ∈ items.map P.sets then sw.value else v.switch sw
  watchPIDs := P.clip (v.watchPIDs ++ items.flatMap P.pids)
  outFile := (items.filterMap Item.outArg).getLast?.elim v.outFile P.file

variable {P} {apply : Vars φ → Item → Option (Vars φ)} {items : List Item} {v : Vars φ}

theorem after_nil (hclip : P.clip v.watchPIDs = v.watchPIDs) : P.after v [] = v := by
  rw [after, List.flatMap_nil, List.append_nil, hclip]
  rfl

/-- The variables after one item. -/
theorem after_single (i : Item) : P.after v [i] =
    ⟨(P.sets i).elim v.switch fun sw => (v.set sw).switch, P.clip (v.watchPIDs ++ P.pids i),
      i.outArg.elim v.outFile P.file⟩ := by
  have hswitch : (P.after v [i]).switch = (P.sets i).elim v.switch fun sw => (v.set sw).switch := by
    funext sw
    simp only [after, List.map_cons, List.map_nil, List.mem_singleton]
    cases P.sets i with
    | none => exact if_neg (Option.some_ne_none sw)
    | some sw' =>
        simp only [Option.some.injEq, Option.elim_some, Vars.set, Function.update_apply]
        by_cases h : sw = sw'
        · rw [if_pos h, if_pos h, h]
        · rw [if_neg h, if_neg h]
  have hfile : (P.after v [i]).outFile = i.outArg.elim v.outFile P.file := by
    simp only [after, List.filterMap_cons, List.filterMap_nil]
    cases i.outArg <;> rfl
  rw [after, Vars.mk.injEq, List.flatMap_singleton]
  exact ⟨hswitch, rfl, hfile⟩

theorem after_cons (i : Item) : P.after (P.after v [i]) items = P.after v (i :: items) := by
  have hswitch : (P.after (P.after v [i]) items).switch = (P.after v (i :: items)).switch := by
    funext sw
    simp only [after, List.map_cons, List.map_nil, List.mem_cons, List.not_mem_nil, or_false]
    by_cases hlater : some sw ∈ items.map P.sets
    · rw [if_pos hlater, if_pos (Or.inr hlater)]
    · simp only [if_neg hlater, or_iff_left hlater]
  have hpids : (P.after (P.after v [i]) items).watchPIDs = (P.after v (i :: items)).watchPIDs := by
    simp only [after, List.flatMap_cons, List.flatMap_nil, List.append_nil, P.clip_append,
      List.append_assoc]
  have hfile : (P.after (P.after v [i]) items).outFile = (P.after v (i :: items)).outFile := by
    simp only [after, List.filterMap_cons, List.filterMap_nil]
    cases i.outArg with
    | none => rfl
    | some arg =>
        simp only [List.getLast?_cons]
        cases (items.filterMap Item.outArg).getLast? <;> rfl
  rw [after, after, Vars.mk.injEq]
  exact ⟨hswitch, hpids, hfile⟩

theorem clip_after (i : Item) : P.clip (P.after v [i]).watchPIDs = (P.after v [i]).watchPIDs := by
  have hidem := P.clip_append (v.watchPIDs ++ [i].flatMap P.pids) []
  rwa [List.append_nil, List.append_nil] at hidem

/-- What a port does with one item. -/
structure Takes (P : Taking φ) (apply : Vars φ → Item → Option (Vars φ)) : Prop where
  none {v i} : P.clip v.watchPIDs = v.watchPIDs → P.refused i → apply v i = none
  some {v i} : P.clip v.watchPIDs = v.watchPIDs → ¬P.refused i → apply v i = some (P.after v [i])

theorem foldlM_after (happly : Takes P apply) (hclip : P.clip v.watchPIDs = v.watchPIDs)
    (h : ∀ i ∈ items, ¬P.refused i) : items.foldlM apply v = some (P.after v items) := by
  induction items generalizing v with
  | nil => exact congrArg some (after_nil hclip).symm
  | cons i items ih =>
      obtain ⟨hi, hitems⟩ := List.forall_mem_cons.mp h
      rw [List.foldlM_cons, happly.some hclip hi]
      exact (ih (clip_after i) hitems).trans (congrArg some (after_cons i))

theorem foldlM_refused (happly : Takes P apply) (hclip : P.clip v.watchPIDs = v.watchPIDs)
    (h : ∃ i ∈ items, P.refused i) : items.foldlM apply v = none := by
  induction items generalizing v with
  | nil =>
      obtain ⟨i, hi, -⟩ := h
      cases hi
  | cons i items ih =>
      rw [List.foldlM_cons]
      by_cases hi : P.refused i
      · rw [happly.none hclip hi]
        rfl
      · rw [happly.some hclip hi]
        obtain ⟨j, hj, hrefused⟩ := h
        rcases List.mem_cons.mp hj with rfl | hj
        · exact absurd hrefused hi
        · exact ih (clip_after i) ⟨j, hj, hrefused⟩

end Taking

section Ports

variable (gone : Int32 → Bool)

def Go.taking : Taking Bytes where
  refused
    | .letter ch => switchOf ch = none
    | .skipped ch => switchOf ch = none
    | .pids arg => pidList (readPID gone) (arg.splitOn 44) = none
    | .out _ => False
    | .missing => True
  sets
    | .letter ch => switchOf ch
    | .skipped ch => switchOf ch
    | _ => none
  pids
    | .pids arg => (pidList (readPID gone) (arg.splitOn 44)).getD []
    | _ => []
  clip l := l
  file arg := arg
  clip_append _ _ := rfl

def C.taking : Taking (Option Bytes) where
  refused
    | .letter ch => switchOf ch = none
    | .skipped _ => False
    | .pids arg => pidList (readPid gone) (strtok [44] arg) = none
    | .out _ => False
    | .missing => True
  sets
    | .letter ch => switchOf ch
    | _ => none
  pids
    | .pids arg => (pidList (readPid gone) (strtok [44] arg)).getD []
    | _ => []
  clip l := l.take maxWatch
  file arg := some arg
  clip_append l l' := take_append_take maxWatch l l'

end Ports

section Same

variable {gone : Int32 → Bool}

theorem Go.takes : Taking.Takes (taking gone) (apply gone) where
  none {v i} _ h := by
    cases i with
    | letter ch => exact congrArg (Option.map v.set) h
    | skipped ch => exact congrArg (Option.map v.set) h
    | pids arg =>
        have h : pidList (readPID gone) (arg.splitOn 44) = none := h
        rw [apply, readPIDs_eq, h]
        rfl
    | out arg => cases h
    | missing => rfl
  some {v i} _ h := by
    rw [Taking.after_single]
    cases i with
    | letter ch =>
        obtain ⟨sw, hsw⟩ := Option.ne_none_iff_exists'.mp h
        simp only [apply, taking, hsw, List.append_nil]
        rfl
    | skipped ch =>
        obtain ⟨sw, hsw⟩ := Option.ne_none_iff_exists'.mp h
        simp only [apply, taking, hsw, List.append_nil]
        rfl
    | pids arg =>
        obtain ⟨l, hl⟩ := Option.ne_none_iff_exists'.mp h
        simp only [apply, taking, readPIDs_eq, hl]
        rfl
    | out arg =>
        simp only [taking, List.append_nil]
        rfl
    | missing => exact absurd trivial h

theorem C.takes : Taking.Takes (taking gone) (apply gone) where
  none {v i} hclip h := by
    have hlen : v.watchPIDs.length ≤ maxWatch := List.take_eq_self_iff _ |>.mp hclip
    cases i with
    | letter ch => exact congrArg (Option.map v.set) h
    | skipped ch => cases h
    | pids arg =>
        have h : pidList (readPid gone) (strtok [44] arg) = none := h
        rw [apply, readPids_eq hlen, h]
        rfl
    | out arg => cases h
    | missing => rfl
  some {v i} hclip h := by
    have hlen : v.watchPIDs.length ≤ maxWatch := List.take_eq_self_iff _ |>.mp hclip
    rw [Taking.after_single]
    cases i with
    | letter ch =>
        obtain ⟨sw, hsw⟩ := Option.ne_none_iff_exists'.mp h
        simp only [apply, taking, hsw, List.append_nil, List.take_of_length_le hlen]
        rfl
    | skipped ch =>
        simp only [taking, List.append_nil, List.take_of_length_le hlen]
        rfl
    | pids arg =>
        obtain ⟨l, hl⟩ := Option.ne_none_iff_exists'.mp h
        simp only [apply, taking, readPids_eq hlen, hl]
        rfl
    | out arg =>
        simp only [taking, List.append_nil, List.take_of_length_le hlen]
        rfl
    | missing => exact absurd trivial h

/-! ## Where both end alike -/

/-- What the Go port opens at the end, if anything. -/
def Go.file (outFile : Bytes) : Option Bytes := if outFile = [] then none else some outFile

/-- Both refuse the command line, or both end with the same variables and the same command. -/
def Same : Option (Vars Bytes × List Bytes) → Option (Vars (Option Bytes) × List Bytes) → Prop
  | none, none => True
  | some (g, gcommand), some (c, ccommand) =>
      g.switch = c.switch ∧ g.watchPIDs = c.watchPIDs ∧ Go.file g.outFile = c.outFile
        ∧ gcommand = ccommand
  | _, _ => False

variable (gone) (args : List Bytes)

/-- The PIDs are of 31 bits, and not more than C keeps. -/
structure Fits : Prop where
  range : ∀ arg, .pids arg ∈ items args → ∀ s ∈ arg.splitOn 44, (atoi (trimSpace s)).1 < 2 ^ 31
  count : ((items args).flatMap (Go.taking gone).pids).length ≤ C.maxWatch

/-- Go refuses something before it comes to a second letter that takes an argument. -/
def OneValue : Prop :=
  ∀ pre i post, items args = pre ++ i :: post → i.Second → ∃ j ∈ pre, (Go.taking gone).refused j

/-- Nothing is refused, the lists of PIDs are tidy, what C passes over it has seen elsewhere, and
the last name of a file is not empty. -/
structure Plainly : Prop where
  accepted : ∀ i ∈ items args, ¬(Go.taking gone).refused i
  tidy : ∀ arg, .pids arg ∈ items args → ∀ s ∈ arg.splitOn 44, Tidy s
  again : ∀ ch, .skipped ch ∈ items args → .letter ch ∈ items args
  named : ((items args).filterMap Item.outArg).getLast? ≠ some []

/-- Each port refuses something, or neither does and the difference does not show. -/
def Alike : Prop :=
  ((∃ i ∈ items args, (Go.taking gone).refused i) ∧ ∃ i ∈ items args, (C.taking gone).refused i)
    ∨ Plainly gone args

variable {gone} {args}

/-- The letter that sets a variable. -/
def Switch.letter : Switch → Char
  | .colorForce => 'c'
  | .showClose => 't'
  | .showUpdate => 'U'
  | .showUser => 'u'
  | .showReverse => 'r'
  | .ipv4Only => '4'
  | .ipv6Only => '6'
  | .outboundOnly => 'O'
  | .showErrors => 'Q'

theorem letter_of_switchOf {ch : Char} {sw : Switch} (h : switchOf ch = some sw) :
    ch = sw.letter := by
  unfold switchOf at h
  split at h
  all_goals first
    | exact absurd h.symm (Option.some_ne_none sw)
    | cases h; rfl

theorem switchOf_inj {ch ch' : Char} (h : switchOf ch ≠ none) (heq : switchOf ch = switchOf ch') :
    ch = ch' := by
  obtain ⟨sw, hsw⟩ := Option.ne_none_iff_exists'.mp h
  rw [letter_of_switchOf hsw, letter_of_switchOf (heq.symm.trans hsw)]

/-- What Go accepts C accepts where it is tidy. -/
theorem C.accepted_iff {i : Item} (hfits : Fits gone args) (hi : i ∈ items args)
    (hgo : ¬(Go.taking gone).refused i) : ¬(taking gone).refused i ↔
      ∀ arg, i = .pids arg → ∀ s ∈ arg.splitOn 44, Tidy s := by
  cases i with
  | letter ch => exact iff_of_true hgo nofun
  | skipped ch => exact iff_of_true not_false nofun
  | out arg => exact iff_of_true not_false nofun
  | missing => exact absurd trivial hgo
  | pids arg =>
      obtain ⟨l, hl⟩ := Option.ne_none_iff_exists'.mp hgo
      have hc := fun l => @pidList_iff gone arg l (hfits.range arg hi)
      constructor
      · rintro h _ ⟨⟩
        obtain ⟨l', hl'⟩ := Option.ne_none_iff_exists'.mp h
        exact ((hc l').mp hl').2
      · intro htidy hnone
        exact Option.some_ne_none l (((hc l).mpr ⟨hl, htidy arg rfl⟩).symm.trans hnone)

theorem C.pids_eq {i : Item} (hfits : Fits gone args) (hi : i ∈ items args)
    (hgo : ¬(Go.taking gone).refused i)
    (htidy : ∀ arg, i = .pids arg → ∀ s ∈ arg.splitOn 44, Tidy s) :
    (taking gone).pids i = (Go.taking gone).pids i := by
  cases i with
  | pids arg =>
      obtain ⟨l, hl⟩ := Option.ne_none_iff_exists'.mp hgo
      have hc := (@pidList_iff gone arg l (hfits.range arg hi)).mpr ⟨hl, htidy arg rfl⟩
      exact congrArg (Option.getD · []) (hc.trans hl.symm)
  | _ => rfl

theorem switch_eq_iff {P : Taking φ} {Q : Taking ψ} {noFile : φ} {noFile' : ψ}
    {l : List Item} : (P.after (.start noFile) l).switch = (Q.after (.start noFile') l).switch ↔
      ∀ sw, some sw ∈ l.map P.sets ↔ some sw ∈ l.map Q.sets := by
  rw [funext_iff]
  refine forall_congr' fun sw => ?_
  simp only [Taking.after, Vars.start]
  by_cases hP : some sw ∈ l.map P.sets <;> by_cases hQ : some sw ∈ l.map Q.sets <;>
    simp [hP, hQ]

/-- The letters that C passes over make no difference where it meets them elsewhere. -/
theorem sets_iff {l : List Item} (hgo : ∀ i ∈ l, ¬(Go.taking gone).refused i) :
    (∀ sw, some sw ∈ l.map (Go.taking gone).sets ↔ some sw ∈ l.map (C.taking gone).sets) ↔
      ∀ ch, .skipped ch ∈ l → .letter ch ∈ l := by
  constructor
  · intro h ch hch
    have hne : switchOf ch ≠ none := hgo _ hch
    obtain ⟨sw, hsw⟩ := Option.ne_none_iff_exists'.mp hne
    obtain ⟨i, hi, hset⟩ := List.mem_map.mp ((h sw).mp (List.mem_map.mpr ⟨_, hch, hsw⟩))
    cases i with
    | letter ch' => rwa [switchOf_inj hne (hsw.trans hset.symm)]
    | _ => cases hset
  · intro h sw
    simp only [List.mem_map]
    constructor
    · rintro ⟨i, hi, hset⟩
      cases i with
      | letter ch => exact ⟨_, hi, hset⟩
      | skipped ch => exact ⟨_, h ch hi, hset⟩
      | _ => cases hset
    · rintro ⟨i, hi, hset⟩
      cases i with
      | letter ch => exact ⟨_, hi, hset⟩
      | _ => cases hset

theorem file_iff {o : Option Bytes} :
    Go.file (o.elim [] fun arg => arg) = o.elim none some ↔ o ≠ some [] := by
  cases o with
  | none => exact iff_of_true rfl nofun
  | some arg =>
      rw [Option.elim_some, Option.elim_some, Go.file]
      by_cases h : arg = []
      · rw [if_pos h, h]
        exact iff_of_false nofun (not_not.mpr rfl)
      · rw [if_neg h]
        exact iff_of_true rfl fun heq => h (Option.some.inj heq)

theorem Go.scanArgs_eq (h : OneValue gone args) : scanArgs gone args
    = ((items args).foldlM (apply gone) (.start [])).map (·, command args) :=
  scan_eq fun pre i post hitems hi => Taking.foldlM_refused takes rfl (h pre i post hitems hi)

theorem C.scanArgs_eq : scanArgs gone args
    = ((items args).foldlM (apply gone) (.start none)).map (·, command args) :=
  scan_eq args

/-- The ports end alike where Go comes to no second letter that takes an argument and no other
difference shows. Short of such a letter this is the only way. -/
theorem scan_same_iff (hfits : Fits gone args) :
    (OneValue gone args ∧ Alike gone args → Same (Go.scanArgs gone args) (C.scanArgs gone args)) ∧
      (OneValue gone args → Same (Go.scanArgs gone args) (C.scanArgs gone args) →
        Alike gone args) := by
  suffices h : OneValue gone args →
      (Same (Go.scanArgs gone args) (C.scanArgs gone args) ↔ Alike gone args) from
    ⟨fun ⟨hone, halike⟩ => (h hone).mpr halike, fun hone => (h hone).mp⟩
  intro hone
  rw [Go.scanArgs_eq hone, C.scanArgs_eq]
  by_cases hgo : ∃ i ∈ items args, (Go.taking gone).refused i
  · have hplainly : ¬Plainly gone args := fun h =>
      let ⟨i, hi, hrefused⟩ := hgo
      h.accepted i hi hrefused
    rw [Taking.foldlM_refused Go.takes rfl hgo, Alike, or_iff_left hplainly, and_iff_right hgo]
    by_cases hc : ∃ i ∈ items args, (C.taking gone).refused i
    · rw [Taking.foldlM_refused C.takes rfl hc]
      exact iff_of_true trivial hc
    · rw [Taking.foldlM_after C.takes rfl fun i hi h => hc ⟨i, hi, h⟩]
      exact iff_of_false not_false hc
  · have haccepted : ∀ i ∈ items args, ¬(Go.taking gone).refused i := fun i hi h => hgo ⟨i, hi, h⟩
    rw [Taking.foldlM_after Go.takes rfl haccepted, Alike, or_iff_right fun h => hgo h.1]
    by_cases hc : ∃ i ∈ items args, (C.taking gone).refused i
    · rw [Taking.foldlM_refused C.takes rfl hc]
      refine iff_of_false not_false fun h => ?_
      obtain ⟨i, hi, hrefused⟩ := hc
      refine (C.accepted_iff hfits hi (haccepted i hi)).mpr ?_ hrefused
      rintro arg rfl
      exact h.tidy arg hi
    · rw [Taking.foldlM_after C.takes rfl fun i hi h => hc ⟨i, hi, h⟩]
      have htidy : ∀ i ∈ items args, ∀ arg, i = .pids arg → ∀ s ∈ arg.splitOn 44, Tidy s :=
        fun i hi => (C.accepted_iff hfits hi (haccepted i hi)).mp fun h => hc ⟨i, hi, h⟩
      have hpids : (items args).flatMap (C.taking gone).pids
          = (items args).flatMap (Go.taking gone).pids :=
        List.flatMap_congr fun i hi => C.pids_eq hfits hi (haccepted i hi) (htidy i hi)
      have hwatch : ((Go.taking gone).after (.start []) (items args)).watchPIDs
          = ((C.taking gone).after (.start none) (items args)).watchPIDs := by
        rw [Taking.after, Taking.after, hpids]
        exact (List.take_of_length_le hfits.count).symm
      rw [Option.map_some, Option.map_some, Same, switch_eq_iff, sets_iff haccepted,
        and_iff_right hwatch, and_iff_left rfl]
      refine (and_congr_right fun _ => file_iff).trans ⟨fun ⟨hagain, hnamed⟩ => ?_, fun h => ?_⟩
      · exact ⟨haccepted, fun arg hi => htidy _ hi arg rfl, hagain, hnamed⟩
      · exact ⟨h.again, h.named⟩

/-! A `t` before a `p` in its cluster, and after it. -/

theorem items_before : items [[45, 116, 112], [49]] = [.letter 't', .pids [49]] := by
  rw [items_cluster (by decide), items, lineOf.eq_def]
  rfl

theorem items_behind : items [[45, 112, 116], [49]] = [.pids [49], .skipped 't'] := by
  rw [items_cluster (by decide), items, lineOf.eq_def]
  rfl

theorem not_second_before {pre post : List Item} {i : Item}
    (h : [.letter 't', .pids [49]] = pre ++ i :: post) : ¬i.Second := by
  have hi : i ∈ [Item.letter 't', .pids [49]] := h ▸ List.mem_append_right _ List.mem_cons_self
  rcases List.mem_cons.mp hi with rfl | hi
  · exact not_false
  · rw [List.mem_singleton.mp hi]
    exact not_false

theorem splitOn_one : ([49] : Bytes).splitOn 44 = [[49]] := by
  decide

theorem fits_of_one {l : List Item} (hitems : items args = l)
    (h : ∀ arg, .pids arg ∈ l → arg = [49])
    (hcount : (l.flatMap (Go.taking gone).pids).length ≤ C.maxWatch) : Fits gone args := by
  constructor
  · rintro arg harg s hs
    rw [hitems] at harg
    rw [h arg harg, splitOn_one, List.mem_singleton] at hs
    rw [hs]
    decide
  · rwa [hitems]

theorem scan_before_same : Same (Go.scanArgs (fun _ => false) [[45, 116, 112], [49]])
    (C.scanArgs (fun _ => false) [[45, 116, 112], [49]]) := by
  refine (scan_same_iff (fits_of_one items_before (by simp) (by decide))).1 ⟨?_, Or.inr ?_⟩
  · intro pre i post hitems hi
    rw [items_before] at hitems
    exact absurd hi (not_second_before hitems)
  · constructor
    · rw [items_before]
      intro i hi
      rcases List.mem_cons.mp hi with rfl | hi
      · exact Option.some_ne_none _
      · rw [List.mem_singleton.mp hi]
        exact (by decide : pidList (Go.readPID fun _ => false) ([49].splitOn 44) ≠ none)
    · rw [items_before]
      rintro arg harg s hs
      have harg : arg = [49] := by simpa using harg
      rw [harg, splitOn_one, List.mem_singleton] at hs
      rw [hs]
      unfold Tidy
      decide
    · rw [items_before]
      simp
    · rw [items_before]
      exact Option.some_ne_none _ ∘ Eq.symm

theorem scan_behind_differ : Fits (fun _ => false) [[45, 112, 116], [49]]
    ∧ ¬Same (Go.scanArgs (fun _ => false) [[45, 112, 116], [49]])
      (C.scanArgs (fun _ => false) [[45, 112, 116], [49]]) := by
  refine ⟨fits_of_one items_behind (by simp) (by decide), ?_⟩
  rw [Go.scanArgs, Go.scan_cluster (by decide), C.scanArgs, C.scan_cluster (by decide)]
  have hgo : Go.letters (fun _ => false) (.start []) (C.chars [112, 116]) [[49]]
      = some ({ Vars.set (.start []) .showClose with watchPIDs := [1] }, []) := rfl
  have hc : C.letters (fun _ => false) (.start none) (C.chars [112, 116]) [[49]]
      = some ({ Vars.start none with watchPIDs := [1] }, []) := rfl
  rw [List.tail_cons, hgo, hc, Option.bind_some, Option.bind_some, Go.scan, C.scan]
  intro h
  exact absurd (congrFun h.1 .showClose) (by decide)

end Same

end Tracep.Nettrace.Args
