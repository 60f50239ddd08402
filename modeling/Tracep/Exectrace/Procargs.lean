import Tracep.Exectrace.Cmdline
import Tracep.Lib.Framing

/-!
# The arguments of a process on macOS

`kern.procargs2` is one buffer: the number of arguments, the path of the
executable with NULs after it, the arguments and the environment, a NUL
after each. Both ports read it with a cursor that passes the path and the
NULs, takes strings for arguments until it has as many as there should be
or comes to the end, and what follows for the environment.

The Go port returns on every buffer (`Go.pidArgv_returns`). The C port
stores the strings to arrays it has made before, whose sizes it computes as
`int`: one is too small for a number of arguments near `2^31` and above, the
other cannot grow beyond `2^30` strings (`C.pidArgvEnv_same`).
-/

namespace Tracep.Exectrace.Darwin

open Exec

/-! ## The code -/

def skipStep (d : Bytes) (more : UInt8 → Bool) (p : Int) : Exec (Int ⊕ Int) :=
  if p < d.length then do
    let b ← index d p
    return if more b then .inl (p + 1) else .inr p
  else return .inr p

/-- `for p < len && more(buf[p]) { p++ }`. -/
def skipWhile (d : Bytes) (more : UInt8 → Bool) : Int → Exec Int := loop (skipStep d more)

/-- Past the path and the padding. -/
def argsStart (d : Bytes) : Exec Int := do
  let p ← skipWhile d (· ≠ 0) 4
  skipWhile d (· = 0) p

/-- The string at `p`, and where it ends. -/
def readString (d : Bytes) (p : Int) : Exec (Bytes × Int) := do
  let q ← skipWhile d (· ≠ 0) p
  return (← slice d p q, q)

section Steps

variable {σ : Type} (d : Bytes) (past : Int → Int) (push : σ → Bytes → Exec σ)

/-- An iteration of the loop over the arguments; `past` passes the end of a string, `push` keeps
the string. -/
def argvStep (argc : Int) : Int × Int × σ → Exec ((Int × Int × σ) ⊕ (Int × σ))
  | (i, p, argv) =>
      if i < argc ∧ p < d.length then do
        let (s, q) ← readString d p
        let argv ← push argv s
        return .inl (i + 1, past q, argv)
      else return .inr (p, argv)

/-- An iteration of the loop over the environment. -/
def envpStep : Int × σ → Exec ((Int × σ) ⊕ σ)
  | (p, envp) =>
      if p < d.length then do
        let (s, q) ← readString d p
        let envp ← if p < q then push envp s else pure envp
        return .inl (past q, envp)
      else return .inr envp

end Steps

namespace Go

def append (l : List Bytes) (s : Bytes) : Exec (List Bytes) := pure (l ++ [s])

/-- `p++`. -/
def past (p : Int) : Int := p + 1

/-- `pidArgv`, of the data that `sysctlRaw` returns. -/
def pidArgv (data : Option Bytes) : Exec (List Bytes × List Bytes) :=
  match data with
  | none => return ([], [])
  | some d =>
      if d.length < 4 then return ([], [])
      else do
        let argc := ((← readLe32 d 0).toNat : Int)
        let p ← argsStart d
        let (p, argv) ← loop (argvStep d past append argc) (0, p, [])
        let envp ← loop (envpStep d past append) (p, [])
        return (argv, envp)

end Go

namespace C

/-- Store to an array that `malloc` made for `cap` strings. For a negative number it returned
`NULL`, no memory being that large. -/
def putString (cap : Int) (av : List Bytes) (s : Bytes) : Exec (List Bytes) :=
  if av.length < cap then pure (av ++ [s]) else .fault

/-- Store to `ev`, made larger if it is full. -/
def putEnv (ev : Int × List Bytes) (s : Bytes) : Exec (Int × List Bytes) := do
  let ecap := if ev.2.length = ev.1 then int32 (ev.1 * 2) else ev.1
  return (ecap, ← putString ecap ev.2 s)

/-- `if (p < size) p++`. -/
def pastEnd (d : Bytes) (p : Int) : Int := if p < d.length then p + 1 else p

/-- `pidArgvEnv`, of the data that `sysctl` gives; `none` if it returns 0, and no environment
unless it is asked for. -/
def pidArgvEnv (data : Option Bytes) (wantEnv : Bool) :
    Exec (Option (List Bytes × Option (List Bytes))) :=
  match data with
  | none => return none
  | some d =>
      if d.length < 4 then return none
      else do
        let argc ← readLe32 d 0
        let p ← argsStart d
        let cap := int32 (int32 argc.toNat + 4)
        let (p, av) ← loop (argvStep d (pastEnd d) (putString cap) argc.toNat) (0, p, [])
        if wantEnv then do
          let ev ← loop (envpStep d (pastEnd d) putEnv) (p, (16, []))
          return some (av, some ev.2)
        else return some (av, none)

end C

/-! ## The strings of a buffer -/

theorem drop_string_shrink {t : Bytes} (h : t ≠ []) :
    (t.drop ((cstr t).length + 1)).length < t.length := by
  have := List.length_pos_of_ne_nil h
  rw [List.length_drop]
  omega

/-- The strings of a text, each with its NUL but perhaps the last. -/
def strings : Framing UInt8 Bytes :=
  .headed (· ≠ []) cstr (fun t => t.drop ((cstr t).length + 1)) fun _ h => drop_string_shrink h

/-- What follows the path and the padding. -/
def afterPath (d : Bytes) : Bytes := ((d.drop 4).dropWhile (· ≠ 0)).dropWhile (· = 0)

def argcOf (d : Bytes) : Nat := (leWord32 d 0).toNat

/-- The arguments: as many strings as there should be, or all there are. -/
def argvOf (d : Bytes) : List Bytes := (strings.frames (afterPath d)).take (argcOf d)

/-- The environment: the other strings, but for empty ones. -/
def envpOf (d : Bytes) : List Bytes :=
  ((strings.frames (afterPath d)).drop (argcOf d)).filter (· ≠ [])

variable {d t : Bytes} {p : Nat}

theorem frames_of_ne (h : t ≠ []) : strings.frames t
    = cstr t :: strings.frames (t.drop ((cstr t).length + 1)) := Framing.headed_frames_of h

theorem frames_cmdlineOf {args : List Bytes} (hargs : ∀ arg ∈ args, (0 : UInt8) ∉ arg) :
    strings.frames (cmdlineOf args ++ t) = args ++ strings.frames t := by
  induction args with
  | nil => rfl
  | cons arg args ih =>
      obtain ⟨harg, hargs⟩ := List.forall_mem_cons.mp hargs
      have hsplit : cmdlineOf (arg :: args) ++ t = arg ++ 0 :: (cmdlineOf args ++ t) := by
        simp [cmdlineOf]
      have hfirst : cstr (arg ++ 0 :: (cmdlineOf args ++ t)) = arg := by
        rw [cstr_append_nul, cstr_of_noNul harg]
      have hrest : (arg ++ 0 :: (cmdlineOf args ++ t)).drop (arg.length + 1) = cmdlineOf args ++ t := by
        rw [← List.drop_drop, List.drop_left]
        rfl
      rw [hsplit, frames_of_ne (by simp), hfirst, hrest, ih hargs]
      rfl

/-! ## Reading a string -/

theorem drop_skip (d : Bytes) (p : Nat) (more : UInt8 → Bool) :
    d.drop (p + ((d.drop p).takeWhile more).length) = (d.drop p).dropWhile more := by
  have hsplit : (d.drop p).takeWhile more ++ (d.drop p).dropWhile more = d.drop p :=
    List.takeWhile_append_dropWhile
  rw [← List.drop_drop]
  calc (d.drop p).drop ((d.drop p).takeWhile more).length
      = ((d.drop p).takeWhile more ++ (d.drop p).dropWhile more).drop
          ((d.drop p).takeWhile more).length := by rw [hsplit]
    _ = (d.drop p).dropWhile more := List.drop_left

theorem skipWhile_returns (d : Bytes) (more : UInt8 → Bool) (p : Nat) :
    (skipWhile d more p).Returns ((p + ((d.drop p).takeWhile more).length : Nat) : Int) := by
  generalize hn : d.length - p = n
  induction n generalizing p with
  | zero =>
      have hdrop : d.drop p = [] := List.drop_eq_nil_of_le (by omega)
      rw [hdrop]
      refine loop_returns_now ?_
      rw [skipStep, if_neg (by omega)]
      exact returns_pure.mpr rfl
  | succ n ih =>
      have hlt : p < d.length := by omega
      have hstep : skipStep d more p
          = pure (if more d[p] then .inl ((p + 1 : Nat) : Int) else .inr (p : Int)) := by
        rw [skipStep, if_pos (by omega), index_eq (List.getElem?_eq_getElem hlt), pure_bind]
        rfl
      rw [List.drop_eq_getElem_cons hlt, List.takeWhile_cons]
      by_cases hmore : more d[p]
      · rw [if_pos hmore, List.length_cons, Nat.add_comm _ 1, ← Nat.add_assoc]
        refine Next.loop_returns ?_ (ih (p + 1) (by omega))
        rw [Next, hstep, if_pos hmore]
        exact returns_pure.mpr rfl
      · rw [if_neg hmore]
        refine loop_returns_now ?_
        rw [hstep, if_neg hmore]
        exact returns_pure.mpr rfl

theorem readString_returns (h : p ≤ d.length) :
    (readString d p).Returns (cstr (d.drop p), ((p + (cstr (d.drop p)).length : Nat) : Int)) := by
  have hbegins : cstr (d.drop p) <+: d.drop p := List.takeWhile_prefix _
  have hle := hbegins.length_le
  rw [List.length_drop] at hle
  unfold readString
  rw [(skipWhile_returns d _ p).bind_iff]
  change (do return (← slice d p ((p + (cstr (d.drop p)).length : Nat) : Int), _)).Returns _
  rw [slice_eq p (cstr (d.drop p)).length rfl (by omega) (by omega), pure_bind,
    ← List.prefix_iff_eq_take.mp hbegins]
  exact returns_pure.mpr rfl

theorem argsStart_returns (d : Bytes) : ∃ p : Nat, (argsStart d).Returns p ∧ d.drop p = afterPath d := by
  have hpath := skipWhile_returns d (· ≠ 0) 4
  have hpad := skipWhile_returns d (· = 0) (4 + ((d.drop 4).takeWhile (· ≠ 0)).length)
  exact ⟨_, hpath.bind_iff.mpr hpad, by rw [drop_skip, drop_skip, afterPath]⟩

/-! ## The loops -/

section Loops

variable {σ : Type} {d : Bytes} {past : Int → Int} (push : σ → Bytes → Exec σ)
  (hpast : ∀ q : Nat, ∃ q' : Nat, past q = q' ∧ d.drop q' = d.drop (q + 1))
include hpast

/-- The loop over the arguments keeps the strings from its position on, as many as are still to
come, and ends after them. -/
theorem argv_same {argc : Nat} (k : Nat) {i : Nat} (hk : i + k = argc) (p : Nat) :
    ∃ p' : Nat, strings.frames (d.drop p') = (strings.frames (d.drop p)).drop k
      ∧ ∀ acc, Same (loop (argvStep d past push argc) (i, p, acc))
        (((strings.frames (d.drop p)).take k).foldlM push acc >>= fun acc => pure ((p' : Int), acc)) := by
  induction k generalizing i p with
  | zero =>
      refine ⟨p, rfl, fun acc => (loop_returns_now ?_).same⟩
      rw [argvStep, if_neg (by omega)]
      exact returns_pure.mpr rfl
  | succ k ih =>
      by_cases hlt : p < d.length
      · obtain ⟨q', hq', hdrop⟩ := hpast (p + (cstr (d.drop p)).length)
        obtain ⟨p', hframes, hloop⟩ := ih (i := i + 1) (by omega) q'
        have hne : d.drop p ≠ [] := by rw [Ne, List.drop_eq_nil_iff]; omega
        rw [Nat.add_assoc, ← List.drop_drop] at hdrop
        rw [hdrop] at hframes hloop
        rw [frames_of_ne hne, List.take_succ_cons, List.drop_succ_cons]
        refine ⟨p', hframes, fun acc => (loop_same _ _).trans ?_⟩
        rw [argvStep, if_pos ⟨by omega, by omega⟩]
        simp only [List.foldlM_cons, bind_assoc, pure_bind, Sum.elim_inl]
        refine ((readString_returns hlt.le).same_bind _).trans ?_
        simp only [hq']
        refine (Same.refl _).bind fun acc => ?_
        exact hloop acc
      · have hdrop : d.drop p = [] := List.drop_eq_nil_of_le (by omega)
        refine ⟨p, by rw [hdrop, strings.frames_nil]; rfl, fun acc => ?_⟩
        rw [hdrop, strings.frames_nil]
        refine (loop_returns_now ?_).same
        rw [argvStep, if_neg (by omega)]
        exact returns_pure.mpr rfl

/-- The loop over the environment keeps the strings that are not empty. -/
theorem envp_same (p : Nat) (acc : σ) : Same (loop (envpStep d past push) (p, acc))
    (((strings.frames (d.drop p)).filter (· ≠ [])).foldlM push acc) := by
  generalize hn : (d.drop p).length = n
  induction n using Nat.strong_induction_on generalizing p acc with
  | h n ih =>
      by_cases hlt : p < d.length
      · obtain ⟨q', hq', hdrop⟩ := hpast (p + (cstr (d.drop p)).length)
        have hne : d.drop p ≠ [] := by rw [Ne, List.drop_eq_nil_iff]; omega
        rw [Nat.add_assoc, ← List.drop_drop] at hdrop
        have hloop := fun acc => ih _ (hn ▸ hdrop ▸ drop_string_shrink hne) q' acc rfl
        rw [hdrop] at hloop
        rw [frames_of_ne hne]
        refine (loop_same _ _).trans ?_
        rw [envpStep, if_pos (by omega)]
        simp only [bind_assoc, pure_bind]
        refine ((readString_returns hlt.le).same_bind _).trans ?_
        simp only [hq']
        by_cases hempty : cstr (d.drop p) = []
        · rw [if_neg (by rw [hempty, List.length_nil]; omega), pure_bind,
            List.filter_cons_of_neg (by simpa using hempty)]
          exact hloop acc
        · have hpos := List.length_pos_of_ne_nil hempty
          rw [if_pos (by omega), List.filter_cons_of_pos (by simpa using hempty), List.foldlM_cons]
          simp only [bind_assoc, pure_bind, Sum.elim_inl]
          exact (Same.refl _).bind fun acc => hloop acc
      · have hdrop : d.drop p = [] := List.drop_eq_nil_of_le (by omega)
        rw [hdrop, strings.frames_nil]
        refine (loop_returns_now ?_).same
        rw [envpStep, if_neg (by omega)]
        exact returns_pure.mpr rfl

end Loops

/-! ## What is stored -/

theorem Go.foldlM_append (l acc : List Bytes) : l.foldlM Go.append acc = pure (acc ++ l) := by
  induction l generalizing acc with
  | nil => rw [List.foldlM_nil, List.append_nil]
  | cons s l ih => rw [List.foldlM_cons, Go.append, pure_bind, ih, List.append_assoc]; rfl

namespace C

/-- Strings are stored to an array if it has room for all of them. -/
theorem foldlM_putString {cap : Int} (l : List Bytes) {av : List Bytes} (h : av.length ≤ cap.toNat) :
    Same (l.foldlM (putString cap) av)
      (if av.length + l.length ≤ cap.toNat then pure (av ++ l) else .fault) := by
  induction l generalizing av with
  | nil =>
      rw [if_pos (by simpa using h), List.append_nil]
      exact Same.refl _
  | cons s l ih =>
      rw [List.foldlM_cons, putString]
      by_cases hroom : (av.length : Int) < cap
      · have hlen : (av ++ [s]).length = av.length + 1 := List.length_append
        rw [if_pos hroom, pure_bind]
        refine (ih (by omega)).trans ?_
        rw [List.append_assoc, List.singleton_append, List.length_cons, hlen, Nat.add_right_comm,
          Nat.add_assoc]
        exact Same.refl _
      · rw [if_neg hroom, fault_bind, if_neg (by rw [List.length_cons]; omega)]
        exact Same.refl _

/-- `ecap`, as it grows. -/
def Grown (ecap : Int) : Prop := ∃ j : Nat, j ≤ 26 ∧ ecap = 2 ^ (4 + j)

theorem Grown.bounds {ecap : Int} (h : Grown ecap) : 0 < ecap ∧ ecap ≤ 2 ^ 30 := by
  obtain ⟨j, hj, rfl⟩ := h
  exact ⟨by positivity, pow_le_pow_right₀ (by decide) (by omega)⟩

/-- It doubles up to `2^30`, and is negative after that. -/
theorem Grown.double {ecap : Int} (h : Grown ecap) :
    (int32 (ecap * 2) = ecap * 2 ∧ Grown (ecap * 2)) ∨ (ecap = 2 ^ 30 ∧ int32 (ecap * 2) < 0) := by
  obtain ⟨j, hj, rfl⟩ := h
  rcases hj.lt_or_eq with hlt | rfl
  · have hnext : Grown (2 ^ (4 + j) * 2) := ⟨j + 1, hlt, by ring⟩
    have hbounds := hnext.bounds
    exact Or.inl ⟨int32_eq (by omega) (by omega), hnext⟩
  · exact Or.inr ⟨rfl, by decide⟩

theorem putEnv_room {ecap : Int} {ev : List Bytes} {s : Bytes} (hg : Grown ecap)
    (hle : ev.length ≤ ecap) (hroom : ev.length < 2 ^ 30) :
    ∃ ecap', Grown ecap' ∧ ((ev ++ [s]).length : Int) ≤ ecap'
      ∧ putEnv (ecap, ev) s = pure (ecap', ev ++ [s]) := by
  have hlen : (ev ++ [s]).length = ev.length + 1 := List.length_append
  have hpos := hg.bounds
  unfold putEnv putString
  by_cases hfull : (ev.length : Int) = ecap
  · rcases hg.double with ⟨hint, hnext⟩ | ⟨hmax, -⟩
    · refine ⟨ecap * 2, hnext, by omega, ?_⟩
      simp only [if_pos hfull, hint]
      rw [if_pos (by omega), pure_bind]
    · omega
  · refine ⟨ecap, hg, by omega, ?_⟩
    simp only [if_neg hfull]
    rw [if_pos (by omega), pure_bind]

theorem putEnv_full {ecap : Int} {ev : List Bytes} {s : Bytes} (hg : Grown ecap)
    (hle : ev.length ≤ ecap) (hfull : 2 ^ 30 ≤ ev.length) : putEnv (ecap, ev) s = .fault := by
  have hpos := hg.bounds
  unfold putEnv putString
  rcases hg.double with ⟨-, hnext⟩ | ⟨hmax, hneg⟩
  · have := hnext.bounds
    omega
  · have heq : (ev.length : Int) = ecap := by omega
    simp only [if_pos heq]
    rw [if_neg (by omega), fault_bind]

/-- The environment is stored if it has no more than `2^30` strings. -/
theorem foldlM_putEnv {β : Type} (f : List Bytes → Exec β) (l : List Bytes) {ecap : Int}
    {ev : List Bytes} (hg : Grown ecap) (hle : ev.length ≤ ecap) :
    Same (l.foldlM putEnv (ecap, ev) >>= fun ev => f ev.2)
      (if ev.length + l.length ≤ 2 ^ 30 then f (ev ++ l) else .fault) := by
  induction l generalizing ecap ev with
  | nil =>
      have hbounds := hg.bounds
      rw [if_pos (by rw [List.length_nil]; omega), List.append_nil, List.foldlM_nil, pure_bind]
      exact Same.refl _
  | cons s l ih =>
      have hlen : (ev ++ [s]).length = ev.length + 1 := List.length_append
      rw [List.foldlM_cons, List.length_cons]
      by_cases hroom : ev.length < 2 ^ 30
      · obtain ⟨ecap', hg', hle', hput⟩ := putEnv_room (s := s) hg hle hroom
        rw [hput, pure_bind]
        refine (ih hg' hle').trans ?_
        rw [List.append_assoc, List.singleton_append, hlen, Nat.add_right_comm, Nat.add_assoc]
        exact Same.refl _
      · rw [putEnv_full hg hle (by omega), fault_bind, fault_bind, if_neg (by omega)]
        exact Same.refl _

theorem pastEnd_drop (d : Bytes) (q : Nat) :
    ∃ q' : Nat, pastEnd d q = q' ∧ d.drop q' = d.drop (q + 1) := by
  unfold pastEnd
  by_cases hlt : (q : Int) < d.length
  · exact ⟨q + 1, if_pos hlt, rfl⟩
  · refine ⟨q, if_neg hlt, ?_⟩
    rw [List.drop_eq_nil_of_le (by omega), List.drop_eq_nil_of_le (by omega)]

end C

/-! ## What is returned -/

theorem readLe32_argc (hd : 4 ≤ d.length) : readLe32 d 0 = pure (leWord32 d 0) :=
  readLe32_eq 0 rfl (by omega)

/-- The Go port returns the strings of every buffer. -/
theorem Go.pidArgv_returns (hd : 4 ≤ d.length) :
    (Go.pidArgv (some d)).Returns (argvOf d, envpOf d) := by
  have hpast : ∀ q : Nat, ∃ q' : Nat, Go.past q = q' ∧ d.drop q' = d.drop (q + 1) :=
    fun q => ⟨q + 1, rfl, rfl⟩
  obtain ⟨p, hstart, hdrop⟩ := argsStart_returns d
  obtain ⟨p', hframes, hargv⟩ := argv_same Go.append hpast (argcOf d) (Nat.zero_add _) p
  have henvp := envp_same Go.append hpast p' []
  rw [hframes, hdrop, Go.foldlM_append] at henvp
  have hargs := hargv []
  rw [hdrop, Go.foldlM_append, pure_bind] at hargs
  have hargsRet := (hargs.returns _).mpr (returns_pure.mpr rfl)
  have henvRet := (henvp.returns _).mpr (returns_pure.mpr rfl)
  unfold Go.pidArgv
  simp only [if_neg (Nat.not_lt.mpr hd), readLe32_argc hd, pure_bind]
  rw [hstart.bind_iff]
  exact (Returns.bind_iff hargsRet).mpr ((Returns.bind_iff henvRet).mpr (returns_pure.mpr rfl))

/-- The room for arguments, `(int)argc + 4`. -/
def capacity (argc : Nat) : Nat := (int32 (int32 argc + 4)).toNat

/-- The arrays that the C port makes have room for the strings of a buffer. -/
def Stored (d : Bytes) : Prop :=
  min (argcOf d) (strings.frames (afterPath d)).length ≤ capacity (argcOf d)
    ∧ (envpOf d).length ≤ 2 ^ 30

instance decidableStored (d : Bytes) : Decidable (Stored d) := inferInstanceAs (Decidable (_ ∧ _))

/-- The C port returns the same if it has room for it, and else it writes outside its arrays. -/
theorem C.pidArgvEnv_same (hd : 4 ≤ d.length) : Same (C.pidArgvEnv (some d) true)
    (if Stored d then pure (some (argvOf d, some (envpOf d))) else .fault) := by
  obtain ⟨p, hstart, hdrop⟩ := argsStart_returns d
  obtain ⟨p', hframes, hargv⟩ := argv_same (C.putString (int32 (int32 (argcOf d) + 4)))
    (C.pastEnd_drop d) (argcOf d) (Nat.zero_add _) p
  have henvp := envp_same C.putEnv (C.pastEnd_drop d) p' (16, [])
  rw [hframes, hdrop] at henvp
  have hargs := hargv []
  rw [hdrop] at hargs
  unfold C.pidArgvEnv
  simp only [if_neg (Nat.not_lt.mpr hd), readLe32_argc hd, pure_bind, if_true]
  refine (hstart.same_bind _).trans ?_
  refine (hargs.bind fun _ => Same.refl _).trans ?_
  rw [bind_assoc]
  refine ((C.foldlM_putString _ (Nat.zero_le _)).bind fun _ => Same.refl _).trans ?_
  rw [List.nil_append, List.length_nil, Nat.zero_add, List.length_take, ← capacity]
  by_cases hargs : min (argcOf d) (strings.frames (afterPath d)).length ≤ capacity (argcOf d)
  · rw [if_pos hargs, pure_bind]
    refine (henvp.bind fun _ => Same.refl _).trans ?_
    have hgrown : C.Grown 16 := ⟨0, Nat.zero_le _, rfl⟩
    refine (C.foldlM_putEnv (fun ev => pure (some (argvOf d, some ev))) _ hgrown (by decide)).trans ?_
    rw [List.nil_append, List.length_nil, Nat.zero_add]
    change Same (if (envpOf d).length ≤ 2 ^ 30 then pure (some (argvOf d, some (envpOf d)))
      else .fault) _
    by_cases henv : (envpOf d).length ≤ 2 ^ 30
    · have hstored : Stored d := ⟨hargs, henv⟩
      rw [if_pos henv, if_pos hstored]
      exact Same.refl _
    · have hstored : ¬Stored d := fun h => henv h.2
      rw [if_neg henv, if_neg hstored]
      exact Same.refl _
  · have hstored : ¬Stored d := fun h => hargs h.1
    rw [if_neg hargs, fault_bind, if_neg hstored]
    exact Same.refl _

/-! ## What the kernel writes -/

/-- The parts of a `kern.procargs2` buffer. -/
structure ProcArgs where
  path : Bytes
  padding : Nat
  argv : List Bytes
  envp : List Bytes
  path_ne : path ≠ []
  path_text : 0 ∉ path
  first_ne : ∃ a0 args, argv = a0 :: args ∧ a0 ≠ []
  argv_text : ∀ arg ∈ argv, 0 ∉ arg
  envp_ne : ∀ e ∈ envp, e ≠ []
  envp_text : ∀ e ∈ envp, 0 ∉ e
  argc_lt : argv.length < 2 ^ 32

namespace ProcArgs

variable (x : ProcArgs)

def bytes : Bytes :=
  le32Bytes (UInt32.ofNat x.argv.length)
    ++ (x.path ++ 0 :: (List.replicate x.padding 0 ++ (cmdlineOf x.argv ++ cmdlineOf x.envp)))

theorem four_le : 4 ≤ x.bytes.length := by
  rw [bytes, List.length_append, le32Bytes_length]
  exact Nat.le_add_right 4 _

theorem argcOf_bytes : argcOf x.bytes = x.argv.length := by
  have hword : At x.bytes 0 (le32Bytes (UInt32.ofNat x.argv.length)) := ⟨x.four_le, List.take_left⟩
  rw [argcOf, hword.leWord32]
  exact Nat.mod_eq_of_lt x.argc_lt

theorem afterPath_bytes : afterPath x.bytes = cmdlineOf x.argv ++ cmdlineOf x.envp := by
  obtain ⟨a0, args, hargv, hne⟩ := x.first_ne
  obtain ⟨c, a0', rfl⟩ := List.exists_cons_of_ne_nil hne
  have hc : c ≠ 0 := fun heq => x.argv_text (c :: a0') (hargv ▸ List.mem_cons_self) (heq ▸ List.mem_cons_self)
  have hpath : ∀ b ∈ x.path, decide (b ≠ 0) = true := fun b hb =>
    decide_eq_true fun heq => x.path_text (heq ▸ hb)
  have hpad : ∀ b ∈ List.replicate x.padding (0 : UInt8), decide (b = 0) = true := fun b hb =>
    decide_eq_true (List.eq_of_mem_replicate hb)
  have hfirst : ∃ rest, cmdlineOf x.argv ++ cmdlineOf x.envp = c :: rest :=
    ⟨_, by rw [hargv]; rfl⟩
  obtain ⟨rest, hrest⟩ := hfirst
  have hword : (le32Bytes (UInt32.ofNat x.argv.length)).length = 4 := rfl
  rw [afterPath, bytes, List.drop_left' hword, List.dropWhile_append_of_pos hpath,
    List.dropWhile_cons_of_neg (by simp), List.dropWhile_cons_of_pos (by simp),
    List.dropWhile_append_of_pos hpad, hrest, List.dropWhile_cons_of_neg (by simpa using hc)]

theorem frames_bytes : strings.frames (afterPath x.bytes) = x.argv ++ x.envp := by
  rw [afterPath_bytes, frames_cmdlineOf x.argv_text, ← List.append_nil (cmdlineOf x.envp),
    frames_cmdlineOf x.envp_text, strings.frames_nil, List.append_nil]

theorem argvOf_bytes : argvOf x.bytes = x.argv := by
  rw [argvOf, frames_bytes, argcOf_bytes, List.take_left]

theorem envpOf_bytes : envpOf x.bytes = x.envp := by
  rw [envpOf, frames_bytes, argcOf_bytes, List.drop_left, List.filter_eq_self]
  exact fun e he => decide_eq_true (x.envp_ne e he)

end ProcArgs

theorem capacity_small {n : Nat} (h : n < 2 ^ 31 - 4) : capacity n = n + 4 := by
  have hint : int32 n = n := int32_eq (by omega) (by omega)
  rw [capacity, hint, int32_eq (by omega) (by omega)]
  omega

/-- A larger number of arguments has room for three strings at most. -/
theorem capacity_large {n : Nat} (h : 2 ^ 31 - 4 ≤ n) (hlt : n < 2 ^ 32) : capacity n < 4 := by
  rw [capacity]
  by_cases hint : n < 2 ^ 31
  · have hsame : int32 n = n := int32_eq (by omega) (by omega)
    rw [hsame, int32_neg (by omega) (by omega)]
    omega
  · have hneg : int32 n = n - 2 ^ 32 := int32_neg (by omega) (by omega)
    rw [hneg, int32_eq (by omega) (by omega)]
    omega

theorem ProcArgs.stored_bytes (x : ProcArgs) :
    Stored x.bytes ↔ x.argv.length < 2 ^ 31 - 4 ∧ x.envp.length ≤ 2 ^ 30 := by
  have hlt := x.argc_lt
  rw [Stored, x.argcOf_bytes, x.frames_bytes, x.envpOf_bytes, List.length_append,
    Nat.min_eq_left (Nat.le_add_right _ _)]
  refine and_congr_left fun _ => ?_
  by_cases hsmall : x.argv.length < 2 ^ 31 - 4
  · rw [capacity_small hsmall]
    exact iff_of_true (Nat.le_add_right _ _) hsmall
  · have hcap := capacity_large (by omega) hlt
    exact iff_of_false (by omega) hsmall

/-- The Go port reads back what the kernel writes, and returns no more arguments than there
should be on any buffer; the C port does so exactly when its arrays have room. -/
theorem pidArgv_reads (x : ProcArgs) (hd : 4 ≤ d.length) :
    (Go.pidArgv (some x.bytes)).Returns (x.argv, x.envp)
      ∧ ((C.pidArgvEnv (some x.bytes) true).Returns (some (x.argv, some x.envp))
        ↔ x.argv.length < 2 ^ 31 - 4 ∧ x.envp.length ≤ 2 ^ 30)
      ∧ (∃ argv envp, (Go.pidArgv (some d)).Returns (argv, envp) ∧ argv.length ≤ argcOf d)
      ∧ ((∃ argv envp, (C.pidArgvEnv (some d) true).Returns (some (argv, some envp))
          ∧ argv.length ≤ argcOf d) ↔ Stored d) := by
  have hgo := Go.pidArgv_returns x.four_le
  have hc := (C.pidArgvEnv_same x.four_le).returns
  rw [x.argvOf_bytes, x.envpOf_bytes] at hgo hc
  refine ⟨hgo, ?_, ⟨_, _, Go.pidArgv_returns hd, List.length_take_le _ _⟩, ?_⟩
  · rw [hc, ← x.stored_bytes]
    by_cases hstored : Stored x.bytes
    · rw [if_pos hstored]
      exact iff_of_true (returns_pure.mpr rfl) hstored
    · rw [if_neg hstored]
      exact iff_of_false not_returns_fault hstored
  · simp only [(C.pidArgvEnv_same hd).returns]
    by_cases hstored : Stored d
    · rw [if_pos hstored]
      exact iff_of_true ⟨_, _, returns_pure.mpr rfl, List.length_take_le _ _⟩ hstored
    · rw [if_neg hstored]
      refine iff_of_false ?_ hstored
      rintro ⟨argv, envp, hret, -⟩
      exact not_returns_fault hret

/-- `ls ""`, in an environment of one string. -/
def ProcArgs.ls : ProcArgs where
  path := [47, 108, 115]
  padding := 2
  argv := [[108, 115], []]
  envp := [[65, 61]]
  path_ne := List.cons_ne_nil _ _
  path_text := by decide
  first_ne := ⟨[108, 115], [[]], rfl, List.cons_ne_nil _ _⟩
  argv_text := by decide
  envp_ne := by decide
  envp_text := by decide
  argc_lt := by decide

theorem pidArgv_reads_ls : (Go.pidArgv (some ProcArgs.ls.bytes)).Returns ([[108, 115], []], [[65, 61]])
    ∧ ((C.pidArgvEnv (some ProcArgs.ls.bytes) true).Returns (some ([[108, 115], []], some [[65, 61]]))
      ↔ 2 < 2 ^ 31 - 4 ∧ 1 ≤ 2 ^ 30)
    ∧ (∃ argv envp, (Go.pidArgv (some [9, 0, 0, 0])).Returns (argv, envp)
      ∧ argv.length ≤ argcOf [9, 0, 0, 0])
    ∧ ((∃ argv envp, (C.pidArgvEnv (some [9, 0, 0, 0]) true).Returns (some (argv, some envp))
      ∧ argv.length ≤ argcOf [9, 0, 0, 0]) ↔ Stored [9, 0, 0, 0]) :=
  pidArgv_reads ProcArgs.ls (le_refl 4)

/-- A buffer that claims `2^31` arguments, and has the path `a` and one string `b`. -/
theorem two_strings_not_read : ¬∃ argv envp,
    (C.pidArgvEnv (some [0, 0, 0, 0x80, 97, 0, 98, 0]) true).Returns (some (argv, some envp))
      ∧ argv.length ≤ argcOf [0, 0, 0, 0x80, 97, 0, 98, 0] := by
  rintro ⟨argv, envp, hret, -⟩
  have hrest : afterPath [0, 0, 0, 0x80, 97, 0, 98, 0] = [98, 0] := rfl
  have hcap : capacity (argcOf [0, 0, 0, 0x80, 97, 0, 98, 0]) = 0 := by decide
  have hpos : 0 < argcOf [0, 0, 0, 0x80, 97, 0, 98, 0] := by decide
  have hfull : ¬Stored [0, 0, 0, 0x80, 97, 0, 98, 0] := by
    rw [Stored, hrest, hcap, frames_of_ne (List.cons_ne_nil _ _), List.length_cons]
    omega
  rw [(C.pidArgvEnv_same (by decide)).returns, if_neg hfull] at hret
  exact not_returns_fault hret

end Tracep.Exectrace.Darwin
