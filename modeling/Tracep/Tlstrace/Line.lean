import Tracep.Lib.Decimal

/-!
# Lines of the TLS tracer

A line names the time, the process, the direction, the function and the host
that the process talks to. The Go code puts it together from strings, the C
port from buffers that are large enough for it (`line_eq`).
-/

namespace Tracep.Tlstrace

/-- `dir`. -/
inductive Dir where
  | sni
  | read
  | write
  | other
deriving Repr, DecidableEq

/-- `tlsEvent`, within the buffers of `tls_event`. The time is given as its text. -/
structure TlsEvent where
  comm : Bytes
  pid : Nat
  time : Bytes
  probeName : Bytes
  dir : Dir
  sni : Bytes
  comm_lt : comm.length < 256
  pid_lt : pid < 2 ^ 31
  time_lt : time.length < 16
  probeName_lt : probeName.length < 64
  sni_lt : sni.length < 256

/-- A text between the escape sequences of a colour. -/
def colored (code s : Bytes) : Bytes := 27 :: 91 :: code ++ 109 :: s ++ [27, 91, 48, 109]

/-- `tls_read_`, `tls_write_` and `_ret`. -/
def tlsRead : Bytes := [116, 108, 115, 95, 114, 101, 97, 100, 95]
def tlsWrite : Bytes := [116, 108, 115, 95, 119, 114, 105, 116, 101, 95]
def ret : Bytes := [95, 114, 101, 116]

/-- `strings.TrimPrefix`, `str_trim_prefix`. -/
def trimPrefix (s p : Bytes) : Bytes := if p.isPrefixOf s then s.drop p.length else s

/-- `strings.TrimSuffix`. -/
def trimSuffix (s p : Bytes) : Bytes := if p.isSuffixOf s then s.take (s.length - p.length) else s

/-- `TX` or `RX`, and its colour. -/
def direction : Dir → Bytes × Bytes
  | .write => ([84, 88], [51, 51])
  | _ => ([82, 88], [51, 54])

variable (colorMode : Bool) (ev : TlsEvent) (host : Bytes)

namespace Go

def clr (code s : Bytes) : Bytes := if !colorMode ∨ s = [] then s else colored code s

def sym (probeName : Bytes) : Bytes :=
  trimSuffix (trimPrefix (trimPrefix probeName tlsRead) tlsWrite)
    ret

def line : Bytes :=
  let (dirStr, dirClr) := direction ev.dir
  let hostStr := if host = [] then [] else 32 :: 32 :: clr colorMode [51, 53] host
  clr colorMode [50] ev.time ++ 32 :: clr colorMode [51, 51] (digits 10 ev.pid)
    ++ 32 :: clr colorMode [57, 54] ev.comm ++ 32 :: clr colorMode dirClr dirStr
    ++ 32 :: clr colorMode [50] (sym ev.probeName) ++ hostStr ++ [10]

end Go

namespace C

def clr (code s : Bytes) : Bytes :=
  if !colorMode ∨ s = [] then s else (colored code s).take 1023

def sym (probeName : Bytes) : Bytes :=
  let sym := (trimPrefix (trimPrefix probeName tlsRead) tlsWrite).take 63
  if 4 ≤ sym.length ∧ sym.drop (sym.length - 4) = ret then sym.take (sym.length - 4) else sym

def line : Bytes :=
  let (dirStr, dirClr) := direction ev.dir
  let hostStr := if host = [] then [] else (32 :: 32 :: clr colorMode [51, 53] host).take 511
  clr colorMode [50] ev.time ++ 32 :: clr colorMode [51, 51] ((digits 10 ev.pid).take 15)
    ++ 32 :: clr colorMode [57, 54] ev.comm ++ 32 :: clr colorMode dirClr dirStr
    ++ 32 :: clr colorMode [50] (sym ev.probeName) ++ hostStr ++ [10]

end C

variable {colorMode ev host} {code s : Bytes}

theorem length_colored : (colored code s).length = code.length + s.length + 7 := by
  simp [colored]
  omega

theorem clr_eq (h : code.length + s.length ≤ 1016) :
    C.clr colorMode code s = Go.clr colorMode code s := by
  rw [C.clr, Go.clr, List.take_of_length_le]
  rw [length_colored]
  omega

theorem length_ret : ret.length = 4 := rfl

theorem length_trimPrefix {p : Bytes} : (trimPrefix s p).length ≤ s.length := by
  unfold trimPrefix
  split
  · rw [List.length_drop]
    omega
  · exact Nat.le_refl _

theorem sym_eq (h : s.length < 64) : C.sym s = Go.sym s := by
  rw [C.sym, Go.sym]
  generalize hsym : trimPrefix (trimPrefix s tlsRead) tlsWrite = sym
  have hle : sym.length ≤ s.length := hsym ▸ length_trimPrefix.trans length_trimPrefix
  have hend : ret.isSuffixOf sym = true ↔
      4 ≤ sym.length ∧ sym.drop (sym.length - 4) = ret := by
    rw [List.isSuffixOf_iff_suffix, List.suffix_iff_eq_drop, length_ret]
    constructor
    · intro heq
      have hlen := congrArg List.length heq
      rw [length_ret, List.length_drop] at hlen
      exact ⟨by omega, heq.symm⟩
    · exact fun heq => heq.2.symm
  rw [List.take_of_length_le (by omega), trimSuffix, length_ret]
  simp only [hend]

theorem length_clr : (Go.clr colorMode code s).length ≤ code.length + s.length + 7 := by
  unfold Go.clr
  split
  · omega
  · exact length_colored.le

theorem length_sym : (Go.sym s).length ≤ s.length := by
  have htrim : ∀ {t p : Bytes}, (trimSuffix t p).length ≤ t.length := by
    intro t p
    unfold trimSuffix
    split
    · exact List.length_take_le' ..
    · exact Nat.le_refl _
  exact htrim.trans (length_trimPrefix.trans length_trimPrefix)

theorem length_direction (dir : Dir) :
    (direction dir).2.length = 2 ∧ (direction dir).1.length = 2 := by
  cases dir with
  | sni => exact ⟨rfl, rfl⟩
  | read => exact ⟨rfl, rfl⟩
  | write => exact ⟨rfl, rfl⟩
  | other => exact ⟨rfl, rfl⟩

/-- The buffers hold the line. -/
theorem line_eq (hhost : host.length < 300) :
    C.line colorMode ev host = Go.line colorMode ev host := by
  have hpid : (digits 10 ev.pid).length ≤ 10 :=
    Strconv.length_digits_le (by decide) (ev.pid_lt.trans (by decide))
  have hclr : ∀ {code s : Bytes}, code.length ≤ 2 → s.length < 300 →
      C.clr colorMode code s = Go.clr colorMode code s := fun hcode hs => clr_eq (by omega)
  have htime : ev.time.length < 300 := ev.time_lt.trans (by decide)
  have hcomm : ev.comm.length < 300 := ev.comm_lt.trans (by decide)
  have hsym : (Go.sym ev.probeName).length < 300 :=
    length_sym.trans_lt (ev.probeName_lt.trans (by decide))
  have hhostStr : (32 :: 32 :: Go.clr colorMode [51, 53] host).length ≤ 511 := by
    have hlen : (Go.clr colorMode [51, 53] host).length ≤ 2 + host.length + 7 := length_clr
    rw [List.length_cons, List.length_cons]
    omega
  obtain ⟨hdirClr, hdirStr⟩ := length_direction ev.dir
  simp only [C.line, Go.line]
  rw [sym_eq ev.probeName_lt, List.take_of_length_le (hpid.trans (by decide)),
    hclr (by decide) htime, hclr (by decide) hcomm, hclr (by decide) hsym,
    hclr (by decide) hhost, hclr hdirClr.le (by omega), hclr (by decide) (by omega),
    List.take_of_length_le hhostStr]

/-- Lines about one event differ if the hosts do. -/
theorem line_injective : Function.Injective (Go.line colorMode ev) := by
  intro h h' heq
  have hclr : ∀ {s s'}, Go.clr colorMode [51, 53] s = Go.clr colorMode [51, 53] s' →
      s ≠ [] → s' ≠ [] → s = s' := by
    intro s s' hclr hs hs'
    unfold Go.clr at hclr
    cases colorMode with
    | false => simpa using hclr
    | true => simpa [hs, hs', colored] using hclr
  simp only [Go.line, List.append_cancel_right_eq, List.append_cancel_left_eq] at heq
  by_cases hh : h = []
  · by_cases hh' : h' = []
    · rw [hh, hh']
    · simp [hh, hh'] at heq
  · by_cases hh' : h' = []
    · simp [hh, hh'] at heq
    · rw [if_neg hh, if_neg hh'] at heq
      exact hclr (List.cons.inj (List.cons.inj heq).2).2 hh hh'

end Tracep.Tlstrace
