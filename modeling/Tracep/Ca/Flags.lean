import Tracep.Lib.BasePrefix
import Tracep.Lib.Cut

/-!
# The command line of `tracep ca`

Flags may come before and after the host. The Go port parses flags up to the
first argument that is none, takes that argument, and parses on behind it; the
C port goes over the arguments once. A command line is read as a list of items
(`items`), of which both do the same things one after the other (`C.scans`,
`Go.scans`). What they make of an item differs: only Go knows `--` and
prefixes for the base of a number, only C takes an empty text for true and
white space before a number. So the ports end alike exactly where no such
item is met, or each meets one that it refuses (`flags_same_iff`).
-/

namespace Tracep.Ca.Flags

open Strconv

/-! ## The code -/

inductive IntFlag where
  | port
  | timeout
deriving Repr, DecidableEq

inductive BoolFlag where
  | fetchRoot
  | insecure
  | all
  | version
deriving Repr, DecidableEq

inductive Flag where
  | int (f : IntFlag)
  | bool (f : BoolFlag)
  | o
deriving Repr, DecidableEq

/-- `port`, `timeout`, `fetch-root`, `insecure`, `all`, `version` and `o`. -/
def Flag.name : Flag → Bytes
  | int .port => [112, 111, 114, 116]
  | int .timeout => [116, 105, 109, 101, 111, 117, 116]
  | bool .fetchRoot => [102, 101, 116, 99, 104, 45, 114, 111, 111, 116]
  | bool .insecure => [105, 110, 115, 101, 99, 117, 114, 101]
  | bool .all => [97, 108, 108]
  | bool .version => [118, 101, 114, 115, 105, 111, 110]
  | o => [111]

def Flag.isBool : Flag → Bool
  | bool _ => true
  | _ => false

/-- The flags in the order in which C tries them. -/
def flags : List Flag :=
  [.int .port, .bool .fetchRoot, .bool .insecure, .bool .all, .bool .version, .int .timeout, .o]

/-- The values of the flags, and the arguments that are none. -/
structure Scanned where
  int : IntFlag → Int
  bool : BoolFlag → Bool
  o : Bytes
  args : List Bytes

def defaults : IntFlag → Int
  | .port => 443
  | .timeout => 10

def Scanned.start : Scanned := ⟨defaults, fun _ => false, [], []⟩

/-- Set a flag to what is made of a text, or of none. -/
def Scanned.set (st : Scanned) (readInt : Bytes → Option Int) (readBool : Option Bytes → Option Bool)
    (val : Option Bytes) : Flag → Option Scanned
  | .int f => (val.bind readInt).map fun n => { st with int := Function.update st.int f n }
  | .bool f => (readBool val).map fun b => { st with bool := Function.update st.bool f b }
  | .o => val.map fun s => { st with o := s }

/-- `1`, `t`, `T`, `true`, `TRUE` and `True`. -/
def trueTexts : List Bytes :=
  [[49], [116], [84], [116, 114, 117, 101], [84, 82, 85, 69], [84, 114, 117, 101]]

/-- `0`, `f`, `F`, `false`, `FALSE` and `False`. -/
def falseTexts : List Bytes :=
  [[48], [102], [70], [102, 97, 108, 115, 101], [70, 65, 76, 83, 69], [70, 97, 108, 115, 101]]

/-- What both ports know of the texts of truth values. -/
def boolText (s : Bytes) : Option Bool :=
  if trueTexts.contains s then some true else if falseTexts.contains s then some false else none

/-- The argument is no flag. -/
def IsPositional (a : Bytes) : Prop := a.length < 2 ∨ a.head? ≠ some 45

instance decidableIsPositional (a : Bytes) : Decidable (IsPositional a) :=
  inferInstanceAs (Decidable (_ ∨ _))

/-- An argument without its first dash, or its first two. -/
def bodyOf (a : Bytes) : Bytes :=
  let body := a.drop 1
  if body.head? = some 45 then body.drop 1 else body

namespace Go

/-- The flag is set to `true` if nothing is said. -/
def readBool (val : Option Bytes) : Option Bool := boolText (val.getD [116, 114, 117, 101])

/-- The name and the value of a flag. The name is not empty. -/
def splitValue : Bytes → Bytes × Option Bytes
  | [] => ([], none)
  | b :: name =>
      match cut [61] name with
      | some (before, value) => (b :: before, some value)
      | none => (b :: name, none)

def formal (name : Bytes) : Option Flag := flags.find? (·.name = name)

/-- `parseOne`: whether there was a flag, and the arguments after it. `-h` ends the program, too. -/
def parseOne (st : Scanned) : List Bytes → Option (Bool × Scanned × List Bytes)
  | [] => some (false, st, [])
  | s :: args =>
      if IsPositional s then some (false, st, s :: args)
      else if s = [45, 45] then some (false, st, args)
      else
        let name := bodyOf s
        if name = [] ∨ name.head? = some 45 ∨ name.head? = some 61 then none
        else do
          let (name, value) := splitValue name
          let f ← formal name
          if f.isBool ∨ value.isSome then
            let st ← st.set (parseIntBase 64) readBool value f
            return (true, st, args)
          else
            let value ← args.head?
            let st ← st.set (parseIntBase 64) readBool (some value) f
            return (true, st, args.tail)

theorem parseOne_length {st st' : Scanned} {seen : Bool} {args rest : List Bytes}
    (h : parseOne st args = some (seen, st', rest)) :
    rest.length ≤ args.length ∧ (seen = true → rest.length < args.length) := by
  cases args with
  | nil =>
      cases h
      exact ⟨Nat.le_refl _, nofun⟩
  | cons s args =>
      have htail : args.tail.length ≤ args.length := (List.tail_sublist args).length_le
      rw [parseOne] at h
      split at h
      · cases h
        exact ⟨Nat.le_refl _, nofun⟩
      · split at h
        · cases h
          exact ⟨Nat.le_succ _, nofun⟩
        · dsimp only at h
          split at h
          · cases h
          · obtain ⟨f, -, h⟩ := Option.bind_eq_some_iff.mp h
            have hrest : rest = args ∨ rest = args.tail := by
              split at h
              · obtain ⟨st, -, h⟩ := Option.bind_eq_some_iff.mp h
                exact Or.inl (Prod.mk.inj (Prod.mk.inj (Option.some.inj h)).2).2.symm
              · obtain ⟨value, -, h⟩ := Option.bind_eq_some_iff.mp h
                obtain ⟨st, -, h⟩ := Option.bind_eq_some_iff.mp h
                exact Or.inr (Prod.mk.inj (Prod.mk.inj (Option.some.inj h)).2).2.symm
            rw [List.length_cons]
            rcases hrest with rfl | rfl <;> exact ⟨by omega, fun _ => by omega⟩

/-- `Parse`: the arguments that are left. -/
def parse (st : Scanned) (args : List Bytes) : Option (Scanned × List Bytes) :=
  match _h : parseOne st args with
  | none => none
  | some (false, st, rest) => some (st, rest)
  | some (true, st, rest) => parse st rest
termination_by args.length
decreasing_by exact (parseOne_length _h).2 rfl

theorem parse_length {st st' : Scanned} {args rest : List Bytes}
    (h : parse st args = some (st', rest)) : rest.length ≤ args.length := by
  induction hn : args.length using Nat.strong_induction_on generalizing st args with
  | _ n ih =>
      subst hn
      rw [parse] at h
      split at h
      · cases h
      · next hone =>
          obtain ⟨-, rfl⟩ := Prod.mk.inj (Option.some.inj h)
          exact (parseOne_length hone).1
      · next hone =>
          have hlt := (parseOne_length hone).2 rfl
          exact (ih _ hlt h rfl).trans hlt.le

/-- The loop of `Main`. -/
def permute (st : Scanned) (rest : List Bytes) : Option Scanned :=
  match _h : parse st rest with
  | none => none
  | some (st, []) => some st
  | some (st, a :: rest) => permute { st with args := st.args ++ [a] } rest
termination_by rest.length
decreasing_by exact parse_length _h

def scanArgs (args : List Bytes) : Option Scanned := permute .start args

end Go

namespace C

/-- What `match_flag` finds: a flag that lacks its value, or the value and the arguments after it. -/
inductive Match where
  | missing
  | found (val : Option Bytes) (rest : List Bytes)

/-- `match_flag`. -/
def matchFlag (a : Bytes) (args : List Bytes) (f : Flag) : Option Match :=
  if a.head? ≠ some 45 then none
  else
    let body := bodyOf a
    if body.take f.name.length ≠ f.name then none
    else
      match body.drop f.name.length with
      | [] =>
          if f.isBool then some (.found none args)
          else
            match args with
            | [] => some .missing
            | val :: args => some (.found (some val) args)
      | after :: val => if after = 61 then some (.found (some val) args) else none

/-- The first flag that matches. -/
def tryFlags (a : Bytes) (args : List Bytes) : Option (Flag × Match) :=
  flags.findSome? fun f => (matchFlag a args f).map (f, ·)

/-- `parse_bool`. -/
def parseBool : Option Bytes → Option Bool
  | none => some true
  | some [] => some true
  | some s => boolText s

/-- A number up to the end of the text, as an `int`. -/
def readInt (val : Bytes) : Option Int :=
  if Libc.numberEnd val = val ∨ Libc.numberEnd val ≠ [] then none
  else some (int32 (Libc.strtol val))

/-- Four arguments are kept. -/
def keep (args : List Bytes) (a : Bytes) : List Bytes :=
  if args.length < 4 then args ++ [a] else args

theorem tryFlags_length {a : Bytes} {args rest : List Bytes} {f : Flag} {val : Option Bytes}
    (h : tryFlags a args = some (f, .found val rest)) : rest.length ≤ args.length := by
  obtain ⟨g, -, hmatch⟩ := List.exists_of_findSome?_eq_some h
  obtain ⟨m, hmatch, heq⟩ := Option.map_eq_some_iff.mp hmatch
  obtain ⟨rfl, rfl⟩ := Prod.mk.inj heq
  unfold matchFlag at hmatch
  split at hmatch
  · cases hmatch
  · dsimp only at hmatch
    split at hmatch
    · cases hmatch
    · split at hmatch
      · split at hmatch
        · obtain ⟨-, rfl⟩ := Match.found.inj (Option.some.inj hmatch)
          exact Nat.le_refl _
        · split at hmatch
          · cases hmatch
          · obtain ⟨-, rfl⟩ := Match.found.inj (Option.some.inj hmatch)
            exact Nat.le_succ _
      · split at hmatch
        · obtain ⟨-, rfl⟩ := Match.found.inj (Option.some.inj hmatch)
          exact Nat.le_refl _
        · cases hmatch

/-- The loop of `ca_main`. -/
def scan (st : Scanned) : List Bytes → Option Scanned
  | [] => some st
  | a :: args =>
      match _h : tryFlags a args with
      | some (_, .missing) => none
      | some (f, .found val rest) =>
          match st.set readInt parseBool val f with
          | none => none
          | some st => scan st rest
      | none =>
          if a.head? = some 45 ∧ a.drop 1 ≠ [] then none
          else scan { st with args := keep st.args a } args
termination_by args => args.length
decreasing_by
  · exact Nat.lt_succ_of_le (tryFlags_length _h)
  · exact Nat.lt_succ_self _

def scanArgs (args : List Bytes) : Option Scanned := scan .start args

end C

/-! ## A command line as items -/

/-- What a command line says. A flag that needs a value is given with it. -/
inductive Item where
  | flag (f : Flag) (val : Option Bytes)
  | positional (a : Bytes)
  | ends
  | wrong

/-- The flag that an argument names, and the value behind the first `=`. -/
def flagOf (a : Bytes) : Option (Flag × Option Bytes) :=
  match cut [61] (bodyOf a) with
  | some (name, val) => (Go.formal name).map (·, some val)
  | none => (Go.formal (bodyOf a)).map (·, none)

/-- Behind `--` there is an argument that is taken as it is. Nothing is said behind what is wrong. -/
def items : List Bytes → List Item
  | [] => []
  | a :: args =>
      if IsPositional a then .positional a :: items args
      else if a = [45, 45] then
        .ends ::
          match args with
          | [] => []
          | b :: args => .positional b :: items args
      else
        match flagOf a with
        | none => [.wrong]
        | some (f, val) =>
            if f.isBool ∨ val.isSome then .flag f val :: items args
            else
              match args with
              | [] => [.wrong]
              | val :: args => .flag f (some val) :: items args

/-- What a port makes of values and of arguments. -/
structure Port where
  readInt : Bytes → Option Int
  readBool : Option Bytes → Option Bool
  keep : List Bytes → Bytes → List Bytes
  ends : Bool

/-- What an item does. -/
def Port.apply (p : Port) (st : Scanned) : Item → Option Scanned
  | .flag f val => st.set p.readInt p.readBool val f
  | .positional a => some { st with args := p.keep st.args a }
  | .ends => if p.ends then some st else none
  | .wrong => none

def Go.port : Port := ⟨parseIntBase 64, readBool, fun args a => args ++ [a], true⟩

def C.port : Port := ⟨readInt, parseBool, keep, false⟩

/-- A scanner that does for each argument what the items say. -/
structure Port.Scans (p : Port) (scan : Scanned → List Bytes → Option Scanned) : Prop where
  nil : ∀ st, scan st [] = some st
  positional : ∀ st {a} args, IsPositional a →
    scan st (a :: args) = scan { st with args := p.keep st.args a } args
  ends : ∀ st args, scan st ([45, 45] :: args)
    = if p.ends then
        match args with
        | [] => some st
        | b :: args => scan { st with args := p.keep st.args b } args
      else none
  wrong : ∀ st {a} args, ¬IsPositional a → a ≠ [45, 45] → flagOf a = none → scan st (a :: args) = none
  given : ∀ st {a f val} args, ¬IsPositional a → a ≠ [45, 45] → flagOf a = some (f, val) →
    f.isBool = true ∨ val.isSome = true →
    scan st (a :: args) = (st.set p.readInt p.readBool val f).bind fun st => scan st args
  missing : ∀ st {a f val}, ¬IsPositional a → a ≠ [45, 45] → flagOf a = some (f, val) →
    ¬(f.isBool = true ∨ val.isSome = true) → scan st [a] = none
  next : ∀ st {a f val} v args, ¬IsPositional a → a ≠ [45, 45] → flagOf a = some (f, val) →
    ¬(f.isBool = true ∨ val.isSome = true) →
    scan st (a :: v :: args) = (st.set p.readInt p.readBool (some v) f).bind fun st => scan st args

/-- Such a scanner goes over the items one after the other. -/
theorem Port.Scans.eq {p : Port} {scan : Scanned → List Bytes → Option Scanned} (h : p.Scans scan)
    (st : Scanned) (args : List Bytes) : scan st args = (items args).foldlM p.apply st := by
  induction hn : args.length using Nat.strong_induction_on generalizing st args with
  | _ n ih =>
      subst hn
      cases args with
      | nil => exact h.nil st
      | cons a args =>
          have hrest : ∀ st, scan st args = (items args).foldlM p.apply st := fun st =>
            ih _ (Nat.lt_succ_self _) st args rfl
          have hshorter : ∀ {v rest}, args = v :: rest →
              ∀ st, scan st rest = (items rest).foldlM p.apply st := by
            rintro v rest rfl st
            exact ih _ (Nat.lt_succ_of_lt (Nat.lt_succ_self _)) st rest rfl
          rw [items.eq_def]
          dsimp only
          by_cases hpositional : IsPositional a
          · rw [h.positional st args hpositional, if_pos hpositional, List.foldlM_cons]
            exact hrest _
          rw [if_neg hpositional]
          by_cases hends : a = [45, 45]
          · subst hends
            rw [h.ends, if_pos rfl, List.foldlM_cons, Port.apply]
            cases p.ends with
            | false => rfl
            | true =>
                cases args with
                | nil => rfl
                | cons b args => exact hshorter rfl _
          rw [if_neg hends]
          cases hflag : flagOf a with
          | none => exact h.wrong st args hpositional hends hflag
          | some parts =>
              obtain ⟨f, val⟩ := parts
              dsimp only
              by_cases hvalue : f.isBool = true ∨ val.isSome = true
              · rw [h.given st args hpositional hends hflag hvalue, if_pos hvalue, List.foldlM_cons]
                exact congrArg (Option.bind _) (funext hrest)
              · rw [if_neg hvalue]
                cases args with
                | nil => exact h.missing st hpositional hends hflag hvalue
                | cons v args =>
                    rw [h.next st v args hpositional hends hflag hvalue, List.foldlM_cons]
                    exact congrArg (Option.bind _) (funext (hshorter rfl))

section Names

variable {a name val : Bytes} {f : Flag} {args : List Bytes}

theorem name_plain (f : Flag) : 61 ∉ f.name := by
  cases f with
  | int f => cases f <;> decide
  | bool f => cases f <;> decide
  | o => decide

theorem name_cons (f : Flag) : ∃ b t, f.name = b :: t ∧ b ≠ 45 ∧ b ≠ 61 := by
  cases f with
  | int f => cases f <;> exact ⟨_, _, rfl, by decide, by decide⟩
  | bool f => cases f <;> exact ⟨_, _, rfl, by decide, by decide⟩
  | o => exact ⟨_, _, rfl, by decide, by decide⟩

theorem formal_name (f : Flag) : Go.formal f.name = some f := by
  cases f with
  | int f => cases f <;> rfl
  | bool f => cases f <;> rfl
  | o => rfl

theorem formal_eq_some_iff : Go.formal name = some f ↔ name = f.name := by
  constructor
  · intro h
    have hname := List.find?_some h
    exact (of_decide_eq_true hname).symm
  · rintro rfl
    exact formal_name f

/-- An argument names a flag if its name is all of it or goes up to the first `=`. -/
theorem flagOf_eq_some_iff {val : Option Bytes} : flagOf a = some (f, val)
    ↔ bodyOf a = f.name ++ val.elim [] (61 :: ·) := by
  rw [flagOf]
  constructor
  · intro h
    split at h
    · next name v hcut =>
        obtain ⟨g, hg, heq⟩ := Option.map_eq_some_iff.mp h
        obtain ⟨rfl, rfl⟩ := Prod.mk.inj heq
        rw [cut_parts hcut, formal_eq_some_iff.mp hg, List.append_assoc]
        rfl
    · obtain ⟨g, hg, heq⟩ := Option.map_eq_some_iff.mp h
      obtain ⟨rfl, rfl⟩ := Prod.mk.inj heq
      rw [formal_eq_some_iff.mp hg]
      exact (List.append_nil _).symm
  · intro h
    cases val with
    | some v =>
        have h : bodyOf a = f.name ++ 61 :: v := h
        rw [h, cut_byte (name_plain f)]
        dsimp only
        rw [formal_name]
        rfl
    | none =>
        have h : bodyOf a = f.name := h.trans (List.append_nil _)
        have hcut : cut [61] f.name = none := by
          rw [cut_eq_none_iff (List.cons_ne_nil _ _)]
          exact fun hin => name_plain f (hin.subset List.mem_cons_self)
        rw [h, hcut]
        dsimp only
        rw [formal_name]
        rfl

theorem flagOf_positional {a : Bytes} (h : IsPositional a) : a.head? ≠ some 45 ∨ flagOf a = none := by
  refine (Or.symm h).imp_right fun hlen => ?_
  have hbody : bodyOf a = [] := by
    have hdrop : a.drop 1 = [] := List.drop_eq_nil_iff.mpr (Nat.le_of_lt_succ hlen)
    rw [bodyOf, hdrop]
    rfl
  rw [flagOf, hbody]
  rfl

theorem dash_positional {a : Bytes} (h : IsPositional a) : ¬(a.head? = some 45 ∧ a.drop 1 ≠ []) := by
  rintro ⟨hdash, hlong⟩
  rcases h with hlen | hhead
  · exact hlong (List.drop_eq_nil_iff.mpr (Nat.le_of_lt_succ hlen))
  · exact hhead hdash

theorem not_positional {a : Bytes} (h : ¬IsPositional a) :
    a.head? = some 45 ∧ a.drop 1 ≠ [] := by
  obtain ⟨hlen, hdash⟩ := not_or.mp h
  refine ⟨not_not.mp hdash, ?_⟩
  rw [Ne, List.drop_eq_nil_iff]
  omega

end Names

/-! ### In C -/

namespace C

section Items

variable {a : Bytes} {args rest : List Bytes} {st : Scanned} {f : Flag} {val : Option Bytes}

theorem matchFlag_none (h : ∀ val, flagOf a ≠ some (f, val)) : matchFlag a args f = none := by
  unfold matchFlag
  split
  · rfl
  · dsimp only
    split
    · rfl
    · next hname =>
        have hbody : bodyOf a = f.name ++ (bodyOf a).drop f.name.length := by
          have happend := List.take_append_drop f.name.length (bodyOf a)
          rw [not_not.mp hname] at happend
          exact happend.symm
        split
        · next hnil =>
            rw [hnil] at hbody
            exact absurd (flagOf_eq_some_iff.mpr hbody) (h none)
        · next after v hcons =>
            rw [hcons] at hbody
            by_cases hafter : after = 61
            · subst hafter
              exact absurd (flagOf_eq_some_iff.mpr hbody) (h (some v))
            · rw [if_neg hafter]

/-- The value is the one behind the `=`, or the next argument. -/
def valueOf (f : Flag) (val : Option Bytes) (args : List Bytes) : Match :=
  if f.isBool ∨ val.isSome then .found val args
  else
    match args with
    | [] => .missing
    | v :: rest => .found (some v) rest

theorem matchFlag_some (hdash : a.head? = some 45) (h : flagOf a = some (f, val)) :
    matchFlag a args f = some (valueOf f val args) := by
  have hbody := flagOf_eq_some_iff.mp h
  unfold matchFlag valueOf
  rw [if_neg (not_not_intro hdash)]
  simp only [hbody, List.take_left, List.drop_left, ne_eq, not_true_eq_false, if_false]
  cases val with
  | some v => simp
  | none =>
      simp only [Option.elim_none, Option.isSome_none, Bool.false_eq_true, or_false]
      split
      · rfl
      · cases args <;> rfl

theorem tryFlags_none (h : a.head? ≠ some 45 ∨ flagOf a = none) : tryFlags a args = none := by
  rw [tryFlags, List.findSome?_eq_none_iff]
  intro f _
  rw [Option.map_eq_none_iff]
  rcases h with hdash | hnone
  · exact if_pos hdash
  · exact matchFlag_none fun val => by rw [hnone]; exact Option.some_ne_none _ ∘ Eq.symm

theorem tryFlags_some (args : List Bytes) (hdash : a.head? = some 45) (h : flagOf a = some (f, val)) :
    tryFlags a args = some (f, valueOf f val args) := by
  have hmatch : ∀ g, (matchFlag a args g).map (g, ·)
      = if g = f then some (f, valueOf f val args) else none := by
    intro g
    by_cases hg : g = f
    · rw [hg, matchFlag_some hdash h, if_pos rfl]
      rfl
    · rw [if_neg hg, matchFlag_none]
      · rfl
      · intro v hv
        exact hg (Prod.mk.inj (Option.some.inj (hv.symm.trans h))).1
  rw [tryFlags, funext hmatch]
  cases f with
  | int f => cases f <;> rfl
  | bool f => cases f <;> rfl
  | o => rfl

theorem scan_none (h : tryFlags a args = none) : scan st (a :: args)
    = if a.head? = some 45 ∧ a.drop 1 ≠ [] then none
      else scan { st with args := keep st.args a } args := by
  rw [scan]
  split
  · next hsome => rw [h] at hsome; cases hsome
  · next hsome => rw [h] at hsome; cases hsome
  · rfl

theorem scan_missing (h : tryFlags a args = some (f, .missing)) : scan st (a :: args) = none := by
  rw [scan]
  split
  · rfl
  · next hsome => rw [h] at hsome; cases hsome
  · next hnone => rw [h] at hnone; cases hnone

theorem scan_found (h : tryFlags a args = some (f, .found val rest)) : scan st (a :: args)
    = (st.set readInt parseBool val f).bind fun st => scan st rest := by
  rw [scan]
  split
  · next hsome => rw [h] at hsome; cases hsome
  · next hsome =>
      rw [h] at hsome
      cases hsome
      split
      · next hset => rw [hset, Option.bind_none]
      · next hset => rw [hset, Option.bind_some]
  · next hnone => rw [h] at hnone; cases hnone

theorem scans : port.Scans scan where
  nil st := by rw [scan]
  positional st a args h := by
    rw [scan_none (tryFlags_none (flagOf_positional h)), if_neg (dash_positional h)]
    rfl
  ends st args := by
    rw [scan_none (tryFlags_none (Or.inr rfl))]
    rfl
  wrong st a args h _ hflag := by
    rw [scan_none (tryFlags_none (Or.inr hflag)), if_pos (not_positional h)]
  given st a f val args h _ hflag hvalue := by
    have htry := tryFlags_some args (not_positional h).1 hflag
    rw [valueOf.eq_def, if_pos hvalue] at htry
    exact scan_found htry
  missing st a f val h _ hflag hvalue := by
    have htry := tryFlags_some [] (not_positional h).1 hflag
    rw [valueOf.eq_def, if_neg hvalue] at htry
    exact scan_missing htry
  next st a f val v args h _ hflag hvalue := by
    have htry := tryFlags_some (v :: args) (not_positional h).1 hflag
    rw [valueOf.eq_def, if_neg hvalue] at htry
    exact scan_found htry

end Items

end C

/-! ### In Go -/

namespace Go

section Items

variable {a s : Bytes} {args rest : List Bytes} {st st' : Scanned} {f : Flag} {val : Option Bytes}

theorem parseOne_positional (h : IsPositional s) :
    parseOne st (s :: args) = some (false, st, s :: args) := if_pos h

/-- The loops that read flags and take arguments are one loop over what `parseOne` leaves. -/
theorem permute_flag (h : parseOne st args = some (true, st', rest)) :
    permute st args = permute st' rest := by
  have hparse : parse st args = parse st' rest := by
    rw [parse]
    split
    · next hone => rw [h] at hone; cases hone
    · next hone => rw [h] at hone; cases hone
    · next hone => rw [h] at hone; cases hone; rfl
  rw [permute, permute, hparse]

theorem permute_none (h : parseOne st args = none) : permute st args = none := by
  have hparse : parse st args = none := by
    rw [parse]
    split
    · rfl
    · next hone => rw [h] at hone; cases hone
    · next hone => rw [h] at hone; cases hone
  rw [permute]
  split
  · rfl
  · next hsome => rw [hparse] at hsome; cases hsome
  · next hsome => rw [hparse] at hsome; cases hsome

theorem parse_stop (h : parseOne st args = some (false, st', rest)) :
    parse st args = some (st', rest) := by
  rw [parse]
  split
  · next hone => rw [h] at hone; cases hone
  · next hone => rw [h] at hone; cases hone; rfl
  · next hone => rw [h] at hone; cases hone

theorem permute_done (h : parseOne st args = some (false, st', [])) :
    permute st args = some st' := by
  rw [permute]
  split
  · next hnone => rw [parse_stop h] at hnone; cases hnone
  · next hsome => rw [parse_stop h] at hsome; cases hsome; rfl
  · next hsome => rw [parse_stop h] at hsome; cases hsome

theorem permute_taken (h : parseOne st args = some (false, st', a :: rest)) :
    permute st args = permute { st' with args := st'.args ++ [a] } rest := by
  rw [permute]
  split
  · next hnone => rw [parse_stop h] at hnone; cases hnone
  · next hsome => rw [parse_stop h] at hsome; cases hsome
  · next hsome => rw [parse_stop h] at hsome; cases hsome; rfl

/-- A name begins with a letter. -/
theorem flagOf_bad (h : bodyOf s = [] ∨ (bodyOf s).head? = some 45 ∨ (bodyOf s).head? = some 61) :
    flagOf s = none := by
  by_contra hflag
  obtain ⟨⟨f, val⟩, hflag⟩ := Option.ne_none_iff_exists'.mp hflag
  obtain ⟨b, name, hname, hb⟩ := name_cons f
  rw [flagOf_eq_some_iff.mp hflag, hname] at h
  rcases h with h | h | h
  · cases h
  · exact hb.1 (Option.some.inj h)
  · exact hb.2 (Option.some.inj h)

theorem flagOf_splitValue (h : (bodyOf s).head? ≠ some 61) :
    flagOf s = (formal (splitValue (bodyOf s)).1).map (·, (splitValue (bodyOf s)).2) := by
  rw [flagOf]
  cases hbody : bodyOf s with
  | nil => rfl
  | cons b name =>
      have hb : b ≠ 61 := fun heq => h (by rw [hbody, heq]; rfl)
      have hcut := @cut_skip 61 [b] name [] (mt List.mem_singleton.mp hb.symm)
      rw [List.singleton_append] at hcut
      rw [hcut, splitValue]
      cases cut [61] name <;> rfl

theorem parseOne_flag (st : Scanned) (args : List Bytes) (h : ¬IsPositional s)
    (hends : s ≠ [45, 45]) : parseOne st (s :: args)
      = (flagOf s).bind fun (f, val) =>
        if f.isBool ∨ val.isSome then
          (st.set (parseIntBase 64) readBool val f).map (true, ·, args)
        else args.head?.bind fun v =>
          (st.set (parseIntBase 64) readBool (some v) f).map (true, ·, args.tail) := by
  rw [parseOne, if_neg h, if_neg hends]
  dsimp only
  by_cases hbad : bodyOf s = [] ∨ (bodyOf s).head? = some 45 ∨ (bodyOf s).head? = some 61
  · rw [if_pos hbad, flagOf_bad hbad]
    rfl
  · rw [if_neg hbad, flagOf_splitValue fun heq => hbad (Or.inr (Or.inr heq))]
    generalize splitValue (bodyOf s) = parts
    obtain ⟨name, value⟩ := parts
    dsimp only
    cases formal name with
    | none => rfl
    | some f =>
        rw [Option.map_some, Option.bind_some]
        dsimp only [Option.bind_eq_bind, Option.bind_some]
        split
        · cases st.set (parseIntBase 64) readBool value f <;> rfl
        · cases args with
          | nil => rfl
          | cons v args =>
              simp only [List.head?_cons, Option.bind_some, List.tail_cons]
              cases st.set (parseIntBase 64) readBool (some v) f <;> rfl

/-- What is set for a flag, before the loops go on. -/
theorem permute_set {o : Option Scanned} (h : parseOne st args = o.map (true, ·, rest)) :
    permute st args = o.bind fun st => permute st rest := by
  cases o with
  | none => exact permute_none h
  | some st' => exact permute_flag h

theorem scans : port.Scans permute where
  nil st := permute_done rfl
  positional st a args h := permute_taken (parseOne_positional h)
  ends st args := by
    have hone : parseOne st ([45, 45] :: args) = some (false, st, args) := rfl
    cases args with
    | nil => exact permute_done hone
    | cons b args => exact permute_taken hone
  wrong st a args h hends hflag := by
    have hone := parseOne_flag st args h hends
    rw [hflag] at hone
    exact permute_none hone
  given st a f val args h hends hflag hvalue := by
    have hone := parseOne_flag st args h hends
    rw [hflag, Option.bind_some] at hone
    exact permute_set (hone.trans (if_pos hvalue))
  missing st a f val h hends hflag hvalue := by
    have hone := parseOne_flag st [] h hends
    rw [hflag, Option.bind_some] at hone
    exact permute_none (hone.trans (if_neg hvalue))
  next st a f val v args h hends hflag hvalue := by
    have hone := parseOne_flag st (v :: args) h hends
    rw [hflag, Option.bind_some] at hone
    exact permute_set (hone.trans (if_neg hvalue))

end Items

end Go

/-! ## What the ports end with -/

section Fold

variable {p : Port} {st st' : Scanned} {i : Item} {l : List Item}

/-- The port does not go on behind the item. -/
def Port.Refuses (p : Port) : Item → Prop
  | .flag (.int _) val => val.bind p.readInt = none
  | .flag (.bool _) val => p.readBool val = none
  | .flag .o val => val = none
  | .positional _ => False
  | .ends => p.ends = false
  | .wrong => True

theorem apply_eq_none_iff : p.apply st i = none ↔ p.Refuses i := by
  cases i with
  | flag f val =>
      cases f with
      | int f => exact Option.map_eq_none_iff
      | bool f => exact Option.map_eq_none_iff
      | o => exact Option.map_eq_none_iff
  | positional a => exact iff_of_false nofun id
  | ends =>
      rw [Port.apply, Port.Refuses]
      cases p.ends
      · exact iff_of_true rfl rfl
      · exact iff_of_false nofun nofun
  | wrong => exact iff_of_true rfl trivial

theorem foldlM_eq_none_iff : l.foldlM p.apply st = none ↔ ∃ i ∈ l, p.Refuses i := by
  induction l generalizing st with
  | nil => exact iff_of_false nofun nofun
  | cons i l ih =>
      rw [List.foldlM_cons, List.exists_mem_cons_iff]
      cases hst : p.apply st i with
      | none => exact iff_of_true rfl (Or.inl (apply_eq_none_iff.mp hst))
      | some st' =>
          have hnot : ¬p.Refuses i := by
            rw [← @apply_eq_none_iff p st, hst]
            exact Option.some_ne_none st'
          rw [or_iff_right hnot]
          exact ih

/-- The text of a number for a flag. -/
def Item.intText (f : IntFlag) : Item → Option Bytes
  | .flag (.int g) val => if g = f then val else none
  | _ => none

/-- The text of the last number for a flag. -/
def lastText (f : IntFlag) (l : List Item) : Option Bytes := (l.filterMap (Item.intText f)).getLast?

theorem int_of_apply (f : IntFlag) (h : p.apply st i = some st') :
    (i.intText f = none → st'.int f = st.int f)
      ∧ ∀ s, i.intText f = some s → p.readInt s = some (st'.int f) := by
  cases i with
  | flag g val =>
      cases g with
      | int g =>
          obtain ⟨n, hn, rfl⟩ := Option.map_eq_some_iff.mp h
          obtain ⟨s, rfl, hs⟩ := Option.bind_eq_some_iff.mp hn
          rw [Item.intText]
          by_cases hg : g = f
          · subst hg
            rw [if_pos rfl]
            refine ⟨nofun, ?_⟩
            rintro _ ⟨⟩
            exact hs.trans (congrArg some (Function.update_self g n st.int).symm)
          · rw [if_neg hg]
            exact ⟨fun _ => Function.update_of_ne (Ne.symm hg) _ _, nofun⟩
      | bool g =>
          obtain ⟨b, -, rfl⟩ := Option.map_eq_some_iff.mp h
          exact ⟨fun _ => rfl, nofun⟩
      | o =>
          obtain ⟨s, -, rfl⟩ := Option.map_eq_some_iff.mp h
          exact ⟨fun _ => rfl, nofun⟩
  | positional a =>
      obtain rfl := Option.some.inj h
      exact ⟨fun _ => rfl, nofun⟩
  | ends =>
      rw [Port.apply] at h
      split at h
      · obtain rfl := Option.some.inj h
        exact ⟨fun _ => rfl, nofun⟩
      · cases h
  | wrong => cases h

theorem lastText_cons (f : IntFlag) (i : Item) (l : List Item) :
    lastText f (i :: l) = (lastText f l).or (i.intText f) := by
  rw [lastText, lastText, List.filterMap_cons]
  cases i.intText f with
  | none => exact (Option.or_none).symm
  | some s =>
      dsimp only
      rw [List.getLast?_cons]
      cases (l.filterMap (Item.intText f)).getLast? <;> rfl

/-- The last number for a flag is its value. -/
theorem int_of_foldlM (f : IntFlag) (h : l.foldlM p.apply st = some st') :
    (lastText f l = none → st'.int f = st.int f)
      ∧ ∀ s, lastText f l = some s → p.readInt s = some (st'.int f) := by
  induction l generalizing st with
  | nil =>
      obtain rfl := Option.some.inj h
      exact ⟨fun _ => rfl, nofun⟩
  | cons i l ih =>
      rw [List.foldlM_cons] at h
      obtain ⟨mid, hmid, hrest⟩ := Option.bind_eq_some_iff.mp h
      obtain ⟨hkept, hset⟩ := int_of_apply f hmid
      obtain ⟨hkept', hset'⟩ := ih hrest
      rw [lastText_cons]
      cases hlast : lastText f l with
      | none =>
          rw [Option.none_or, hkept' hlast]
          exact ⟨hkept, hset⟩
      | some t =>
          refine ⟨nofun, ?_⟩
          rintro _ ⟨⟩
          exact hset' t hlast

end Fold

section Same

variable {g g' c c' : Scanned} {i : Item} {l : List Item}

/-- All but the numbers is the same, as far as C keeps it. -/
structure Agree (g c : Scanned) : Prop where
  bool : g.bool = c.bool
  o : g.o = c.o
  args : c.args = g.args.take 4

theorem parseBool_of_readBool {val : Option Bytes} {b : Bool} (h : Go.readBool val = some b) :
    C.parseBool val = some b := by
  cases val with
  | none => exact h
  | some s =>
      cases s with
      | nil => cases h
      | cons a s => exact h

theorem keep_take (args : List Bytes) (a : Bytes) :
    C.keep (args.take 4) a = (args ++ [a]).take 4 := by
  unfold C.keep
  by_cases hlen : args.length < 4
  · rw [List.take_of_length_le hlen.le, if_pos hlen, List.take_of_length_le]
    rw [List.length_append]
    exact hlen
  · have hlen : 4 ≤ args.length := Nat.le_of_not_lt hlen
    rw [List.length_take, Nat.min_eq_left hlen, if_neg (Nat.lt_irrefl 4),
      List.take_append_of_le_length hlen]

theorem Agree.apply (h : Agree g c) (hgo : Go.port.apply g i = some g')
    (hc : C.port.apply c i = some c') : Agree g' c' := by
  cases i with
  | flag f val =>
      cases f with
      | int f =>
          obtain ⟨n, -, rfl⟩ := Option.map_eq_some_iff.mp hgo
          obtain ⟨m, -, rfl⟩ := Option.map_eq_some_iff.mp hc
          exact ⟨h.bool, h.o, h.args⟩
      | bool f =>
          obtain ⟨b, hb, rfl⟩ := Option.map_eq_some_iff.mp hgo
          obtain ⟨b', hb', rfl⟩ := Option.map_eq_some_iff.mp hc
          obtain rfl : b = b' := Option.some.inj ((parseBool_of_readBool hb).symm.trans hb')
          exact ⟨congrArg (Function.update · f b) h.bool, h.o, h.args⟩
      | o =>
          obtain ⟨s, rfl, rfl⟩ := Option.map_eq_some_iff.mp hgo
          obtain rfl := Option.some.inj hc
          exact ⟨h.bool, rfl, h.args⟩
  | positional a =>
      obtain rfl := Option.some.inj hgo
      obtain rfl := Option.some.inj hc
      refine ⟨h.bool, h.o, ?_⟩
      change C.keep c.args a = (g.args ++ [a]).take 4
      rw [h.args, keep_take]
  | ends => cases hc
  | wrong => cases hc

theorem Agree.foldlM (h : Agree g c) (hgo : l.foldlM Go.port.apply g = some g')
    (hc : l.foldlM C.port.apply c = some c') : Agree g' c' := by
  induction l generalizing g c with
  | nil =>
      obtain rfl := Option.some.inj hgo
      obtain rfl := Option.some.inj hc
      exact h
  | cons i l ih =>
      rw [List.foldlM_cons] at hgo hc
      obtain ⟨gmid, hgmid, hgrest⟩ := Option.bind_eq_some_iff.mp hgo
      obtain ⟨cmid, hcmid, hcrest⟩ := Option.bind_eq_some_iff.mp hc
      exact ih (h.apply hgmid hcmid) hgrest hcrest

/-- Both refuse the command line, or both end with the same values and the same first two
arguments. -/
def Same : Option Scanned → Option Scanned → Prop
  | none, none => True
  | some g, some c =>
      g.int = c.int ∧ g.bool = c.bool ∧ g.o = c.o ∧ g.args.take 2 = c.args.take 2
  | _, _ => False

/-- Nothing is refused, and the last numbers are small. -/
structure Plainly (args : List Bytes) : Prop where
  accepted : ∀ i ∈ items args, ¬Go.port.Refuses i ∧ ¬C.port.Refuses i
  small : ∀ f s, lastText f (items args) = some s → IsSmall s

/-- Each port refuses something, or neither does and the numbers are read alike. -/
def Alike (args : List Bytes) : Prop :=
  ((∃ i ∈ items args, Go.port.Refuses i) ∧ ∃ i ∈ items args, C.port.Refuses i) ∨ Plainly args

theorem int_eq_iff {f : IntFlag} (hgo : l.foldlM Go.port.apply .start = some g)
    (hc : l.foldlM C.port.apply .start = some c) :
    g.int f = c.int f ↔ ∀ s, lastText f l = some s → IsSmall s := by
  obtain ⟨hgokept, hgoset⟩ := int_of_foldlM f hgo
  obtain ⟨hckept, hcset⟩ := int_of_foldlM f hc
  cases hlast : lastText f l with
  | none => exact iff_of_true ((hgokept hlast).trans (hckept hlast).symm) nofun
  | some s =>
      have hgoread : parseIntBase 64 s = some (g.int f) := hgoset s hlast
      have hcread : C.readInt s = some (c.int f) := hcset s hlast
      rw [C.readInt] at hcread
      split at hcread
      · cases hcread
      · next hend =>
          obtain ⟨hne, hend⟩ := not_or.mp hend
          have hs : s ≠ [] := fun heq => hne (by rw [heq]; rfl)
          have hnumber := Libc.number_of_both hs hgoread (not_not.mp hend)
          rw [← Option.some.inj hcread, Libc.int_strtol_eq_iff hnumber hgoread]
          constructor
          · rintro h _ ⟨⟩
            exact h
          · exact fun h => h s rfl

/-- The ports end alike exactly where each refuses something, or neither does and the last numbers
are small. -/
theorem flags_same_iff (args : List Bytes) :
    Same (Go.scanArgs args) (C.scanArgs args) ↔ Alike args := by
  rw [Go.scanArgs, Go.scans.eq, C.scanArgs, C.scans.eq, Alike]
  cases hgo : (items args).foldlM Go.port.apply .start with
  | none =>
      obtain ⟨i, hi, hrefuses⟩ := foldlM_eq_none_iff.mp hgo
      rw [and_iff_right ⟨i, hi, hrefuses⟩, or_iff_left fun h => (h.accepted i hi).1 hrefuses]
      cases hc : (items args).foldlM C.port.apply .start with
      | none => exact iff_of_true trivial (foldlM_eq_none_iff.mp hc)
      | some c =>
          refine iff_of_false id ?_
          rw [← @foldlM_eq_none_iff C.port .start, hc]
          exact Option.some_ne_none c
  | some g =>
      have hgoaccepted : ¬∃ i ∈ items args, Go.port.Refuses i := by
        rw [← @foldlM_eq_none_iff Go.port .start, hgo]
        exact Option.some_ne_none g
      rw [or_iff_right fun h => hgoaccepted h.1]
      cases hc : (items args).foldlM C.port.apply .start with
      | none =>
          obtain ⟨i, hi, hrefuses⟩ := foldlM_eq_none_iff.mp hc
          exact iff_of_false id fun h => (h.accepted i hi).2 hrefuses
      | some c =>
          have hcaccepted : ¬∃ i ∈ items args, C.port.Refuses i := by
            rw [← @foldlM_eq_none_iff C.port .start, hc]
            exact Option.some_ne_none c
          have hagree : Agree g c := Agree.foldlM ⟨rfl, rfl, rfl⟩ hgo hc
          have hargs : g.args.take 2 = c.args.take 2 := by
            rw [hagree.args, List.take_take]
            rfl
          rw [Same, and_iff_left ⟨hagree.bool, hagree.o, hargs⟩, funext_iff]
          simp only [int_eq_iff hgo hc]
          constructor
          · exact fun h => ⟨fun i hi => ⟨fun hr => hgoaccepted ⟨i, hi, hr⟩,
              fun hr => hcaccepted ⟨i, hi, hr⟩⟩, h⟩
          · exact fun h => h.small

/-- `-port 010 h` is for port 8 in Go and for port 10 in C. -/
theorem scan_octal_differ : ¬Same (Go.scanArgs [[45, 112, 111, 114, 116], [48, 49, 48], [104]])
    (C.scanArgs [[45, 112, 111, 114, 116], [48, 49, 48], [104]]) := by
  rw [Go.scanArgs, Go.scans.eq, C.scanArgs, C.scans.eq]
  intro h
  exact absurd (congrFun h.1 .port) (by decide)

end Same

end Tracep.Ca.Flags
