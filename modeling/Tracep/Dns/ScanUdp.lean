import Tracep.Lib.CBuffer
import Tracep.Lib.Fields
import Tracep.Nettrace.Lsof
import Mathlib.Data.List.AList
import Mathlib.Data.List.DropRight

/-!
# The UDP sockets on macOS

On macOS the process of a port is looked up in what `lsof -iUDP -F pcn` has
printed: a `p` line with the PID and a `c` line with the name of each process,
then `f` and `n` lines for its files. Both ports read the lines one after the
other and note the process so far under the local port of every `n` line.

The lines of a process are given by a record (`ProcRecord`). What is noted for
a port is the process of the last line that has it as its local port
(`scanUDPSockets_owner`).
-/

namespace Tracep.Dns.Darwin

open Nettrace.Lsof (Endpoint nameText)

/-- `macPidName`, and `mac_pn` of the C port. -/
structure MacPidName where
  pid : Int
  name : Bytes
deriving Repr, DecidableEq

/-! ## The Go port -/

namespace Go

/-- The port of an `n` line: `-` is 45, `>` is 62, `:` is 58 and `*` is 42. -/
def localPort (body : Bytes) : Option UInt16 :=
  let body := ((cut [45, 62] body).map Prod.fst).getD body
  match cutLast 58 body with
  | none => none
  | some (_, pstr) =>
      if pstr = [42] then none
      else
        let (p, ok) := Strconv.atoi pstr
        if !ok ∨ p ≤ 0 ∨ p > 65535 then none else some (UInt16.ofNat p.toNat)

/-- The variables of the loop. -/
structure Scan where
  pid : Int
  name : Bytes
  m : AList fun _ : UInt16 => MacPidName

/-- The `switch`; the field letters are `p` 112, `c` 99 and `n` 110. -/
def readField (s : Scan) (field : UInt8) (body : Bytes) : Scan :=
  if field = 112 then
    let (v, ok) := Strconv.atoi body
    if ok then { s with pid := v } else s
  else if field = 99 then { s with name := body }
  else if field = 110 then
    match localPort body with
    | some port => { s with m := s.m.insert port ⟨s.pid, s.name⟩ }
    | none => s
  else s

/-- The body of the loop. A line without a value is passed over. -/
def readLine (s : Scan) (line : Bytes) : Scan :=
  match line with
  | field :: b :: rest => readField s field (b :: rest)
  | _ => s

/-- `scanUDPSocketsDarwin`, given what `lsof` has printed if it could be run. -/
def scanUDPSocketsDarwin (out : Option Bytes) : AList fun _ : UInt16 => MacPidName :=
  match out with
  | none => ∅
  | some out => ((out.splitOn 10).foldl readLine ⟨0, [], ∅⟩).m

end Go

/-! ## The C port -/

namespace C

open Libc

/-- The port of an `n` line, which is copied to `body[256]`. -/
def localPort (value : Bytes) : Option UInt16 :=
  let body := fitted 256 value
  let body := ((cut [45, 62] body).map Prod.fst).getD body
  match cutLast 58 body with
  | none => none
  | some (_, pstr) =>
      if pstr.head? = some 42 then none
      else
        let port := strtol pstr
        if port ≤ 0 ∨ port > 65535 then none else some (UInt16.ofNat port.toNat)

/-- The variables of the loop: `cur_pid`, `cur_name[64]` and `mac_udp[65536]`. -/
structure Scan where
  curPid : Int
  curName : Bytes
  macUdp : UInt16 → MacPidName

/-- Newlines and carriage returns are taken off the end of a line. -/
def chomp (line : Bytes) : Bytes := line.rdropWhile fun b => b = 10 ∨ b = 13

/-- The `switch`. -/
def readField (s : Scan) (field : UInt8) (value : Bytes) : Scan :=
  if field = 112 then
    if numberEnd value ≠ value ∧ numberEnd value = [] then
      { s with curPid := int32 (strtol value) }
    else s
  else if field = 99 then { s with curName := fitted 64 value }
  else if field = 110 then
    match localPort value with
    | some port =>
        { s with macUdp := Function.update s.macUdp port ⟨s.curPid, fitted 64 s.curName⟩ }
    | none => s
  else s

/-- The body of the loop. -/
def readLine (s : Scan) (line : Bytes) : Scan :=
  match chomp (cstr line) with
  | field :: b :: rest => readField s field (b :: rest)
  | _ => s

/-- `mac_scan_udp`: `fgets` reads into `line[1024]`, and the name is `?` at first. -/
def macScanUdp (out : Option Bytes) : UInt16 → MacPidName :=
  let macUdp := fun _ => ⟨0, []⟩
  match out with
  | none => macUdp
  | some out => ((Fields.fgetsLines 1024 out).foldl readLine ⟨0, [63], macUdp⟩).macUdp

/-- What is noted for a port, as `pid_for_udp_port` tells. -/
def entry (macUdp : UInt16 → MacPidName) (port : UInt16) : Option MacPidName :=
  if 0 < (macUdp port).pid then some (macUdp port) else none

end C

/-! ## Transcripts -/

/-- A text that a line may have as its value. -/
structure Value where
  text : Bytes
  ne : text ≠ []
  noNul : 0 ∉ text
  oneLine : 10 ∉ text
  noReturn : text.getLast? ≠ some 13

/-- A line of an open file: its descriptor, or what it is connected to. -/
inductive FileLine where
  | fd (value : Value) (fits : value.text.length ≤ 1021)
  | name (src : Endpoint) (dst : Option Endpoint) (noNul : 0 ∉ nameText src dst)
      (oneLine : 10 ∉ nameText src dst) (fits : (nameText src dst).length ≤ 255)

/-- A process and its open files. -/
structure ProcRecord where
  pid : Nat
  pid_pos : 0 < pid
  pid_lt : pid < 2 ^ 31
  comm : Value
  comm_fits : comm.text.length ≤ 63
  files : List FileLine

def FileLine.line : FileLine → Bytes
  | .fd value _ => 102 :: value.text
  | .name src dst _ _ _ => 110 :: nameText src dst

def ProcRecord.lines (p : ProcRecord) : List Bytes :=
  (112 :: digits 10 p.pid) :: (99 :: p.comm.text) :: p.files.map FileLine.line

def transcript (ps : List ProcRecord) : Bytes := Fields.unlines (ps.flatMap ProcRecord.lines)

/-- The local port of an `n` line. -/
def FileLine.localPort? : FileLine → Option UInt16
  | .fd _ _ => none
  | .name src _ _ _ _ => src.port

/-- The local ports of a process in the order of its lines, each with the process. -/
def ProcRecord.ports (p : ProcRecord) : List (UInt16 × MacPidName) :=
  (p.files.filterMap FileLine.localPort?).map fun port => (port, ⟨p.pid, p.comm.text⟩)

/-- The process of the last `n` line that has the port as its local port. Zero is no port. -/
def owner (ps : List ProcRecord) (port : UInt16) : Option MacPidName :=
  if port = 0 then none
  else ((ps.flatMap ProcRecord.ports).findRev? fun x => x.1 = port).map Prod.snd

/-! ## Scans of transcripts -/

/-- What the lines so far have said, and what is noted for the ports. -/
structure Noted where
  pid : Int
  name : Bytes
  found : UInt16 → Option MacPidName

/-- A port with its process is noted over what was noted before. -/
def note (found : UInt16 → Option MacPidName) (x : UInt16 × MacPidName) :
    UInt16 → Option MacPidName :=
  if x.1 = 0 then found else Function.update found x.1 (some x.2)

variable {σ : Type} {found : UInt16 → Option MacPidName} {port : UInt16} {s : σ}

theorem note_apply (x : UInt16 × MacPidName) :
    note found x port = if x.1 = port ∧ port ≠ 0 then some x.2 else found port := by
  by_cases hport : x.1 = port
  · subst hport
    by_cases hzero : x.1 = 0
    · rw [note, if_pos hzero, if_neg fun h => h.2 hzero]
    · rw [note, if_neg hzero, if_pos ⟨rfl, hzero⟩, Function.update_self]
  · rw [if_neg fun h => hport h.1, note]
    split
    · rfl
    · exact Function.update_of_ne (Ne.symm hport) _ _

/-- What is noted last counts. -/
theorem foldl_note (xs : List (UInt16 × MacPidName)) : xs.foldl note found port =
    (if port = 0 then none else (xs.findRev? fun x => x.1 = port).map Prod.snd).or
      (found port) := by
  induction xs generalizing found with
  | nil =>
      rw [List.findRev?, Option.map_none, ite_self]
      rfl
  | cons x xs ih =>
      rw [List.foldl_cons, ih, List.findRev?, note_apply]
      by_cases hport : port = 0
      · rw [if_pos hport, if_pos hport, if_neg fun h => h.2 hport]
      · rw [if_neg hport, if_neg hport]
        cases xs.findRev? fun x => x.1 = port with
        | some y => rfl
        | none =>
            by_cases hx : x.1 = port
            · rw [if_pos ⟨hx, hport⟩, if_pos (decide_eq_true hx)]
              rfl
            · rw [if_neg fun h => hx h.1, if_neg (Bool.not_eq_true _ ▸ decide_eq_false hx)]

/-- A reader of lines does with each line of a process what it should. -/
structure Reads (readLine : σ → Bytes → σ) (view : σ → Noted) : Prop where
  pid : ∀ s (p : ProcRecord), view (readLine s (112 :: digits 10 p.pid)) =
    { view s with pid := p.pid }
  comm : ∀ s (p : ProcRecord), view (readLine s (99 :: p.comm.text)) =
    { view s with name := p.comm.text }
  file : ∀ s (f : FileLine), 0 < (view s).pid → view (readLine s f.line) =
    { view s with found := (f.localPort?.toList.map fun port =>
      (port, ⟨(view s).pid, (view s).name⟩)).foldl note (view s).found }

section Reads

variable {readLine : σ → Bytes → σ} {view : σ → Noted}

theorem Reads.files (h : Reads readLine view) (fs : List FileLine) (hpid : 0 < (view s).pid) :
    view ((fs.map FileLine.line).foldl readLine s) =
      { view s with found := ((fs.filterMap FileLine.localPort?).map fun port =>
        (port, ⟨(view s).pid, (view s).name⟩)).foldl note (view s).found } := by
  induction fs generalizing s with
  | nil => rfl
  | cons f fs ih =>
      have hfile := h.file s f hpid
      rw [List.map_cons, List.foldl_cons, ih (by rw [hfile]; exact hpid), hfile]
      cases hport : f.localPort? with
      | none => rw [List.filterMap_cons_none hport]; rfl
      | some port => rw [List.filterMap_cons_some hport]; rfl

theorem Reads.record (h : Reads readLine view) (p : ProcRecord) :
    view (p.lines.foldl readLine s) =
      ⟨p.pid, p.comm.text, p.ports.foldl note (view s).found⟩ := by
  have hhead : view (readLine (readLine s (112 :: digits 10 p.pid)) (99 :: p.comm.text)) =
      ⟨p.pid, p.comm.text, (view s).found⟩ := by rw [h.comm, h.pid]
  have hpid : (0 : Int) < p.pid := Int.natCast_pos.mpr p.pid_pos
  rw [ProcRecord.lines, List.foldl_cons, List.foldl_cons, h.files p.files (by rwa [hhead]), hhead]
  rfl

/-- A reader that starts with no port finds the owner of every port. -/
theorem Reads.owner (h : Reads readLine view) (ps : List ProcRecord) (port : UInt16)
    (hs : (view s).found = fun _ => none) :
    (view ((ps.flatMap ProcRecord.lines).foldl readLine s)).found port = owner ps port := by
  have hfound : ∀ s, (view ((ps.flatMap ProcRecord.lines).foldl readLine s)).found =
      (ps.flatMap ProcRecord.ports).foldl note (view s).found := by
    intro s
    induction ps generalizing s with
    | nil => rfl
    | cons p ps ih =>
        rw [List.flatMap_cons, List.foldl_append, ih, h.record, List.flatMap_cons,
          List.foldl_append]
  rw [hfound, hs, foldl_note, Option.or_none]
  rfl

end Reads

/-! ## Local ports -/

variable {src : Endpoint} {dst : Option Endpoint}

/-- What stands before the arrow is the end here. -/
theorem before_arrow (src : Endpoint) (dst : Option Endpoint) :
    ((cut [45, 62] (nameText src dst)).map Prod.fst).getD (nameText src dst) = src.text := by
  cases dst with
  | none =>
      rw [nameText, cut_none src.not_mem_text]
      rfl
  | some dst =>
      rw [nameText, cut_pair (Or.inr src.not_mem_text) (by decide)]
      rfl

theorem text_eq_host (e : Endpoint) : ∃ host, e.text = host ++ 58 :: e.portText := by
  unfold Endpoint.text
  split
  · exact ⟨[42], rfl⟩
  · next ip _ => exact ⟨ip.text, rfl⟩
  · next ip _ => exact ⟨91 :: ip.text ++ [93], by simp⟩

/-- What stands after its last colon is the port, also where the host has colons. -/
theorem last_colon (e : Endpoint) : ∃ host, cutLast 58 e.text = some (host, e.portText) := by
  have hport : 58 ∉ e.portText := e.not_mem_portText (by decide) (by decide)
  obtain ⟨host, htext⟩ := text_eq_host e
  exact ⟨host, htext ▸ cutLast_append hport⟩

theorem in_range (port : UInt16) :
    (if (port.toNat : Int) ≤ 0 ∨ (port.toNat : Int) > 65535 then none
      else some (UInt16.ofNat (port.toNat : Int).toNat)) = (some port).filter (· ≠ 0) := by
  have hlt := port.toNat_lt
  by_cases hzero : port = 0
  · rw [hzero]
    rfl
  · have hpos : port.toNat ≠ 0 := fun h => hzero (UInt16.toNat_inj.mp h)
    rw [if_neg (by omega), Int.toNat_natCast, UInt16.ofNat_toNat]
    exact (Option.filter_some_pos (by simpa using hzero)).symm

theorem Go.localPort_nameText (src : Endpoint) (dst : Option Endpoint) :
    Go.localPort (nameText src dst) = src.port.filter (· ≠ 0) := by
  obtain ⟨host, hcolon⟩ := last_colon src
  simp only [Go.localPort, before_arrow, hcolon, Endpoint.portText]
  cases src.port with
  | none => rfl
  | some port =>
      have hstar : digits 10 port.toNat ≠ [42] := fun heq =>
        Strconv.not_mem_digits (by decide) port.toNat (heq ▸ List.mem_singleton_self 42)
      have hlt := port.toNat_lt
      simp only [if_neg hstar, Strconv.atoi_digits (show port.toNat < 2 ^ 63 by omega),
        Bool.not_true, Bool.false_eq_true, false_or]
      exact in_range port

theorem C.localPort_nameText (hfits : (nameText src dst).length ≤ 255) :
    C.localPort (nameText src dst) = src.port.filter (· ≠ 0) := by
  have hbody : fitted 256 (nameText src dst) = nameText src dst := List.take_of_length_le hfits
  obtain ⟨host, hcolon⟩ := last_colon src
  simp only [C.localPort, hbody, before_arrow, hcolon, Endpoint.portText]
  cases src.port with
  | none => rfl
  | some port =>
      have hstar : (digits 10 port.toNat).head? ≠ some 42 := fun heq =>
        Strconv.not_mem_digits (by decide) port.toNat (List.mem_of_head? heq)
      have hlt := port.toNat_lt
      simp only [if_neg hstar, Libc.strtol_digits (show port.toNat < 2 ^ 63 by omega)]
      exact in_range port

/-! ## Lines -/

/-- A text that has nothing but visible characters. -/
def Value.ofVisible (text : Bytes) (ne : text ≠ []) (h : Fields.Visible text) : Value where
  text := text
  ne := ne
  noNul hmem := absurd (h 0 hmem).1 (by decide)
  oneLine hmem := absurd (h 10 hmem).1 (by decide)
  noReturn hlast := absurd (h 13 (List.mem_of_getLast? hlast)).1 (by decide)

/-- The name of a socket ends with a port. -/
theorem ends_with_port (src : Endpoint) (dst : Option Endpoint) :
    ∃ (s : Bytes) (e : Endpoint), nameText src dst = s ++ 58 :: e.portText := by
  cases dst with
  | none =>
      obtain ⟨s, hs⟩ := text_eq_host src
      exact ⟨s, src, hs⟩
  | some dst =>
      obtain ⟨s, hs⟩ := text_eq_host dst
      exact ⟨src.text ++ 45 :: 62 :: s, dst, by rw [nameText, hs, List.append_assoc]; rfl⟩

def Value.ofName (src : Endpoint) (dst : Option Endpoint) (noNul : 0 ∉ nameText src dst)
    (oneLine : 10 ∉ nameText src dst) : Value where
  text := nameText src dst
  ne := by
    obtain ⟨s, e, htext⟩ := ends_with_port src dst
    rw [htext]
    exact List.append_ne_nil_of_right_ne_nil s (List.cons_ne_nil _ _)
  noNul := noNul
  oneLine := oneLine
  noReturn := by
    obtain ⟨s, e, htext⟩ := ends_with_port src dst
    have hport : 13 ∉ 58 :: e.portText := List.not_mem_cons_of_ne_of_not_mem (by decide)
      (e.not_mem_portText (by decide) (by decide))
    rw [htext, List.getLast?_append_of_ne_nil s (List.cons_ne_nil _ _)]
    exact fun hlast => hport (List.mem_of_getLast? hlast)

/-- What is noted for the local port of a name. -/
theorem note_filter (port : Option UInt16) (v : MacPidName) :
    (port.toList.map fun port => (port, v)).foldl note found =
      (port.filter (· ≠ 0)).elim found fun port => Function.update found port (some v) := by
  cases port with
  | none => rfl
  | some port =>
      change note found (port, v) = _
      unfold note
      split
      · next hzero => rw [Option.filter_some_neg (by simpa using hzero)]; rfl
      · next hzero => rw [Option.filter_some_pos (by simpa using hzero)]; rfl

/-! ## Both ports -/

def ProcRecord.pidValue (p : ProcRecord) : Value :=
  .ofVisible (digits 10 p.pid) (Strconv.digits_ne_nil p.pid) (Fields.visible_digits p.pid)

theorem Value.line_fits (v : Value) {field : UInt8} {n : Nat} (hfield : field ≠ 10)
    (hlen : v.text.length ≤ n) (hn : n ≤ 1021) :
    10 ∉ field :: v.text ∧ (field :: v.text).length + 1 < 1024 := by
  refine ⟨List.not_mem_cons_of_ne_of_not_mem hfield.symm v.oneLine, ?_⟩
  rw [List.length_cons]
  omega

/-- The lines have no newline in them, and `fgets` reads each at once. -/
theorem lines_fit {ps : List ProcRecord} {line : Bytes} (h : line ∈ ps.flatMap ProcRecord.lines) :
    10 ∉ line ∧ line.length + 1 < 1024 := by
  obtain ⟨p, -, hline⟩ := List.mem_flatMap.mp h
  rcases List.mem_cons.mp hline with rfl | hline
  · have hlt := p.pid_lt
    exact p.pidValue.line_fits (n := 10) (by decide)
      (Strconv.length_digits_le (by decide) (by omega)) (by decide)
  · rcases List.mem_cons.mp hline with rfl | hline
    · exact p.comm.line_fits (by decide) p.comm_fits (by decide)
    · obtain ⟨f, -, rfl⟩ := List.mem_map.mp hline
      cases f with
      | fd value fits => exact value.line_fits (by decide) fits (le_refl _)
      | name src dst noNul oneLine fits =>
          exact (Value.ofName src dst noNul oneLine).line_fits (by decide) fits (by decide)

namespace Go

def view (s : Scan) : Noted := ⟨s.pid, s.name, fun port => s.m.lookup port⟩

theorem readLine_value (s : Scan) (field : UInt8) (v : Value) :
    readLine s (field :: v.text) = readField s field v.text := by
  obtain ⟨b, rest, hv⟩ := List.exists_cons_of_ne_nil v.ne
  rw [hv, readLine]

theorem readField_name (s : Scan) (body : Bytes) : readField s 110 body =
    (localPort body).elim s fun port => { s with m := s.m.insert port ⟨s.pid, s.name⟩ } := by
  rw [readField, if_neg (by decide), if_neg (by decide), if_pos rfl]
  cases localPort body with
  | none => rfl
  | some port => rfl

theorem view_insert (s : Scan) (port : UInt16) :
    view { s with m := s.m.insert port ⟨s.pid, s.name⟩ } =
      { view s with found := Function.update (view s).found port (some ⟨s.pid, s.name⟩) } := by
  refine congrArg (Noted.mk s.pid s.name) (funext fun port' => ?_)
  rw [Function.update_apply]
  by_cases hport : port' = port
  · rw [hport, if_pos rfl, AList.lookup_insert]
  · rw [if_neg hport, AList.lookup_insert_ne hport]
    rfl

theorem reads : Reads readLine view where
  pid s p := by
    have hlt := p.pid_lt
    have hatoi := Strconv.atoi_digits (show p.pid < 2 ^ 63 by omega)
    refine (congrArg view (readLine_value s 112 p.pidValue)).trans ?_
    rw [readField, if_pos rfl, ProcRecord.pidValue, Value.ofVisible]
    simp only [hatoi, if_true]
    rfl
  comm s p := congrArg view (readLine_value s 99 p.comm)
  file s f hpid := by
    cases f with
    | fd value fits => exact congrArg view (readLine_value s 102 value)
    | name src dst noNul oneLine fits =>
        refine (congrArg view (readLine_value s 110 (.ofName src dst noNul oneLine))).trans ?_
        rw [Value.ofName, readField_name, localPort_nameText, FileLine.localPort?, note_filter]
        cases src.port.filter (· ≠ 0) with
        | none => rfl
        | some port => exact view_insert s port

theorem scan_owner (ps : List ProcRecord) (port : UInt16) :
    (scanUDPSocketsDarwin (some (transcript ps))).lookup port = owner ps port := by
  have hscan := reads.owner (s := ⟨0, [], ∅⟩) ps port rfl
  rw [scanUDPSocketsDarwin, transcript,
    Fields.splitOn_unlines fun line hline => (lines_fit hline).1, List.foldl_append]
  exact hscan

end Go

namespace C

open Libc

/-- The name is copied to 64 bytes once more when it is noted. -/
def view (s : Scan) : Noted := ⟨s.curPid, fitted 64 s.curName, entry s.macUdp⟩

theorem chomp_value {field : UInt8} (v : Value) (hnul : field ≠ 0) :
    chomp (cstr (field :: v.text ++ [10])) = field :: v.text := by
  have hnoNul : 0 ∉ field :: v.text ++ [10] := by
    simp [hnul.symm, v.noNul]
  rw [cstr_of_noNul hnoNul, chomp, List.rdropWhile_concat_pos _ _ _ (by decide),
    List.rdropWhile_eq_self_iff]
  intro hne
  rw [List.getLast_cons v.ne, decide_eq_true_eq]
  intro hend
  rcases hend with hnl | hcr
  · exact v.oneLine (hnl ▸ List.getLast_mem v.ne)
  · exact v.noReturn (hcr ▸ List.getLast?_eq_getLast_of_ne_nil v.ne)

theorem readLine_value (s : Scan) {field : UInt8} (v : Value) (hnul : field ≠ 0) :
    readLine s (field :: v.text ++ [10]) = readField s field v.text := by
  obtain ⟨b, rest, hv⟩ := List.exists_cons_of_ne_nil v.ne
  rw [readLine, chomp_value v hnul, hv]

theorem readField_name (s : Scan) (value : Bytes) :
    readField s 110 value = (localPort value).elim s fun port =>
      { s with macUdp := Function.update s.macUdp port ⟨s.curPid, fitted 64 s.curName⟩ } := by
  rw [readField, if_neg (by decide), if_neg (by decide), if_pos rfl]
  cases localPort value with
  | none => rfl
  | some port => rfl

theorem entry_update (macUdp : UInt16 → MacPidName) (port : UInt16) {v : MacPidName}
    (hpid : 0 < v.pid) :
    entry (Function.update macUdp port v) = Function.update (entry macUdp) port (some v) := by
  funext port'
  rw [entry, Function.update_apply, Function.update_apply]
  by_cases hport : port' = port
  · rw [if_pos hport, if_pos hpid, if_pos hport]
  · rw [if_neg hport, if_neg hport]
    rfl

theorem reads : Reads (fun s line => readLine s (line ++ [10])) view where
  pid s p := by
    have hlt := p.pid_lt
    refine (congrArg view (readLine_value s p.pidValue (by decide : (112 : UInt8) ≠ 0))).trans ?_
    have hend := numberEnd_digits p.pid
    have hne : numberEnd (digits 10 p.pid) ≠ digits 10 p.pid := by
      rw [hend]
      exact (Strconv.digits_ne_nil p.pid).symm
    rw [readField, if_pos rfl, ProcRecord.pidValue, Value.ofVisible, if_pos ⟨hne, hend⟩,
      strtol_digits (by omega), int32_eq (by omega) (by omega)]
    rfl
  comm s p := by
    have hfits : fitted 64 p.comm.text = p.comm.text := List.take_of_length_le p.comm_fits
    refine (congrArg view (readLine_value s p.comm (by decide : (99 : UInt8) ≠ 0))).trans ?_
    change (⟨s.curPid, fitted 64 (fitted 64 p.comm.text), entry s.macUdp⟩ : Noted) = _
    rw [hfits, hfits]
    rfl
  file s f hpid := by
    cases f with
    | fd value fits => exact congrArg view (readLine_value s value (by decide : (102 : UInt8) ≠ 0))
    | name src dst noNul oneLine fits =>
        refine (congrArg view (readLine_value s (.ofName src dst noNul oneLine)
          (by decide : (110 : UInt8) ≠ 0))).trans ?_
        rw [Value.ofName, readField_name, localPort_nameText fits, FileLine.localPort?, note_filter]
        cases src.port.filter (· ≠ 0) with
        | none => rfl
        | some port => exact congrArg (Noted.mk _ _) (entry_update s.macUdp port hpid)

theorem scan_owner (ps : List ProcRecord) (port : UInt16) :
    entry (macScanUdp (some (transcript ps))) port = owner ps port := by
  have hscan := reads.owner (s := ⟨0, [63], fun _ => ⟨0, []⟩⟩) ps port rfl
  rw [macScanUdp, transcript, Fields.fgetsLines_unlines fun line hline => lines_fit hline]
  rw [List.foldl_map]
  exact hscan

end C

/-- Both ports note every port for the process of the last line that has it as its local port,
and note nothing else. -/
theorem scanUDPSockets_owner (ps : List ProcRecord) (port : UInt16) :
    (Go.scanUDPSocketsDarwin (some (transcript ps))).lookup port = owner ps port
      ∧ C.entry (C.macScanUdp (some (transcript ps))) port = owner ps port :=
  ⟨Go.scan_owner ps port, C.scan_owner ps port⟩

end Tracep.Dns.Darwin
