import Tracep.Lib.Scanf
import Tracep.Procfs.SocketTable

/-!
# The inode of a port

The process that asks is found through the socket of its port. In Go
`inodeForPort` takes the columns of a line apart and gives the inode of the
first socket of the port. The format in C reads the number of the line and
leaves the colon after it, which it then takes for the local address, and so
it finds no port in any line (`C.inodeForPort_text`): the ports agree on the
tables that have no socket of the port (`inodeForPort_iff`).
-/

namespace Tracep.Dns

open Fields Procfs Strconv Libc

/-- `strings.ToUpper`, of letters of ASCII. -/
def toUpper (s : Bytes) : Bytes := s.map fun b => if 97 ≤ b ∧ b ≤ 122 then b - 32 else b

/-- Whether `strcasecmp` gives zero. -/
def strcaseeq (s t : Bytes) : Bool :=
  let lower (s : Bytes) := s.map fun b => if 65 ≤ b ∧ b ≤ 90 then b + 32 else b
  lower s = lower t

/-! ## The Go code -/

namespace Go

/-- The inode in a line, if the line is of the port. -/
def inodeInLine (portHex line : Bytes) : Option UInt64 :=
  let fields := goFields line
  if fields.length < 10 then none
  else
    match cutLast 58 (fields.getD 1 []) with
    | none => none
    | some (_, port) =>
        if toUpper port ≠ portHex then none
        else
          match parseUint (2 ^ 64 - 1) (fields.getD 9 []) with
          | .ok inode => some (UInt64.ofNat inode)
          | _ => none

/-- `inodeForPort`, of the contents of the file if it can be read. -/
def inodeForPort (port : UInt16) (data : Option Bytes) : Option UInt64 :=
  match data with
  | none => none
  | some data => ((scanLines data).drop 1).findSome? (inodeInLine (hexPad 4 port.toNat))

end Go

/-! ## The C code -/

namespace C

open Scanf

/-- `" %*d %127s %*s %*s %*s %*s %*s %*s %*d %*d %ld"`. -/
def inodeFormat : List Directive :=
  [.blank, .int false, .blank, .word (some 127) true, .blank, .word none false, .blank,
    .word none false, .blank, .word none false, .blank, .word none false, .blank, .word none false,
    .blank, .word none false, .blank, .int false, .blank, .int false, .blank, .int true]

/-- The inode in a line, if the line is of the port. -/
def inodeInLine (want line : Bytes) : Option Int :=
  match sscanf inodeFormat (cstr line) with
  | [.word addr, .int ino] =>
      match cutLast 58 addr with
      | some (_, port) => if strcaseeq port want then some ino else none
      | none => none
  | _ => none

/-- `inode_for_port`. -/
def inodeForPort (port : UInt16) (data : Option Bytes) : Int :=
  match data with
  | none => -1
  | some data =>
      match fgetsLines 512 data with
      | [] => -1
      | _ :: lines => (lines.findSome? (inodeInLine (hexPad 4 port.toNat))).getD (-1)

end C

/-! ## What they find -/

/-- The inode of the first socket of the port. -/
def firstInode (rows : List SocketRow) (port : UInt16) : Option UInt64 :=
  (rows.find? fun r => r.localPort = port).map SocketRow.inode

section Lines

variable {r : SocketRow} {port : UInt16}

theorem hexPad_port (port : UInt16) : hexPad 4 port.toNat = hexDigits 4 port.toNat :=
  hexPad_eq (by decide) port.toNat_lt

theorem toUpper_hexDigits (k n : Nat) : toUpper (hexDigits k n) = hexDigits k n := by
  have hdigit : ∀ d : Fin 16, (if 97 ≤ hexDigit d ∧ hexDigit d ≤ 122 then hexDigit d - 32
      else hexDigit d) = hexDigit d := by decide
  refine (List.map_congr_left fun b hb => ?_).trans (List.map_id _)
  obtain ⟨d, hd, rfl⟩ := exists_of_mem_hexDigits hb
  exact hdigit ⟨d, hd⟩

/-- The port is what follows the last colon. -/
theorem cutLast_endpointText (ip : Bytes) (port : UInt16) :
    cutLast 58 (endpointText ip port) = some (addrText ip, hexDigits 4 port.toNat) := by
  refine cutLast_append fun hmem => ?_
  have hcolon := isHex_of_mem_hexDigits hmem
  cases hcolon

theorem Go.inodeInLine_line (r : SocketRow) (port : UInt16) :
    Go.inodeInLine (hexPad 4 port.toNat) r.line
      = if r.localPort = port then some r.inode else none := by
  have hlen := r.not_length_words_lt (goFields r.rest)
  have haddr : (r.words ++ goFields r.rest).getD 1 [] = endpointText r.localIP r.localPort := rfl
  have hinode : (r.words ++ goFields r.rest).getD 9 [] = digits 10 r.inode.toNat := rfl
  simp only [Go.inodeInLine, r.goFields_line, if_neg hlen, haddr, cutLast_endpointText,
    toUpper_hexDigits, hexPad_port, hinode, r.parseUint_inode, UInt64.ofNat_toNat]
  by_cases hport : r.localPort = port
  · rw [if_neg (not_not_intro (by rw [hport])), if_pos hport]
  · have hdigits : hexDigits 4 r.localPort.toNat ≠ hexDigits 4 port.toNat := fun h =>
      hport (UInt16.toNat_inj.mp (hexDigits_injective r.localPort.toNat_lt port.toNat_lt h))
    rw [if_pos hdigits, if_neg hport]

/-- The colon after the number of the line is what the format takes for the local address. -/
theorem C.sscanf_line (r : SocketRow) :
    ∃ ino, Scanf.sscanf C.inodeFormat (r.line ++ [10]) = [.word [58], .int ino] := by
  have hend : Ends (oneOf isSpace) (r.rest ++ [10]) :=
    r.ends_rest ascii_isSpace ascii_isSpace.newline
  have hcolon : Visible [58] := List.forall_mem_singleton.mpr (by decide)
  have hwidth : ∀ w ∈ some 127, ([58] : Bytes).length ≤ w := by
    rintro w ⟨⟩
    decide
  have hformat : C.inodeFormat = .blank :: .int false :: .blank :: .word (some 127) true
      :: (Scanf.skips 6 ++ [.blank, .int false, .blank, .int false, .blank, .int true]) := rfl
  have hline : r.line ++ [10] = columnsText 32 r.columns ++ (r.rest ++ [10]) :=
    List.append_assoc _ _ _
  have hwords := r.words_columns
  rw [hline, hformat]
  unfold SocketRow.columns at hwords ⊢
  simp only [← intText_natCast] at hwords ⊢
  have hrest := Scanf.ends_columns hwords hend
  have hnumbers := hwords.tail.of_append
  -- the number of the line leaves the colon, which is a word of its own
  rw [Scanf.sscanf_blank_int, columnsText_cons, ← List.append_assoc _ (intText r.sl) [58],
    List.append_assoc _ [58] _, Scanf.sscanf_int _ _ (by rintro b ⟨⟩; rfl), Scanf.sscanf_blank_word,
    Scanf.sscanf_word_now hcolon (List.cons_ne_nil _ _) hwidth hrest]
  have hskips := Scanf.sscanf_skips [.blank, .int false, .blank, .int false, .blank, .int true]
    hwords.tail hend
  change Scanf.sscanf (Scanf.skips 6 ++ _) _ = _ at hskips
  rw [hskips, Scanf.sscanf_blank_int, Scanf.sscanf_column_int hnumbers hend,
    Scanf.sscanf_blank_int, Scanf.sscanf_column_int hnumbers.tail hend,
    Scanf.sscanf_blank_int, Scanf.sscanf_column_int hnumbers.tail.tail hend]
  exact ⟨_, rfl⟩

/-- No line is of any port. -/
theorem C.inodeInLine_line (r : SocketRow) (port : UInt16) :
    C.inodeInLine (hexPad 4 port.toNat) (r.line ++ [10]) = none := by
  obtain ⟨ino, hscan⟩ := C.sscanf_line r
  have hport : ¬strcaseeq [] (hexPad 4 port.toNat) = true := by
    intro h
    have hlen := congrArg List.length (of_decide_eq_true h)
    simp only [List.length_map, hexPad_port, length_hexDigits] at hlen
    cases hlen
  simp only [C.inodeInLine, r.cstr_line, hscan]
  exact if_neg hport

end Lines

theorem Go.inodeForPort_text (t : SocketTable) (port : UInt16) :
    Go.inodeForPort port (some t.text) = firstInode t.rows port := by
  simp only [Go.inodeForPort, t.scanLines_text, SocketTable.lines, List.drop_one, List.tail_cons,
    firstInode, List.findSome?_map]
  induction t.rows with
  | nil => rfl
  | cons r rows ih =>
      rw [List.findSome?_cons, List.find?_cons, Function.comp_apply, Go.inodeInLine_line]
      by_cases hport : r.localPort = port
      · rw [if_pos hport, decide_eq_true hport]
        rfl
      · rw [if_neg hport, decide_eq_false hport]
        exact ih

/-- No socket is found. -/
theorem C.inodeForPort_text (t : SocketTable) (port : UInt16) :
    C.inodeForPort port (some t.text) = -1 := by
  have hnone : (t.rows.map fun r => r.line ++ [10]).findSome?
      (C.inodeInLine (hexPad 4 port.toNat)) = none := by
    refine List.findSome?_eq_none_iff.mpr fun line hline => ?_
    obtain ⟨r, -, rfl⟩ := List.mem_map.mp hline
    exact C.inodeInLine_line r port
  simp only [C.inodeForPort, t.fgetsLines_text (Nat.le_refl 512), SocketTable.lines, List.map_cons,
    List.map_map]
  rw [show (fun x => x ++ [10]) ∘ SocketRow.line = fun r => r.line ++ [10] from rfl, hnone]
  rfl

/-- A table with a socket of the port 40000. -/
def oneSocket : SocketTable :=
  .ofRows [.idle [127, 0, 0, 1] 40000 [0, 0, 0, 0] 0 7 4242 (by decide)] (by decide +kernel)

/-- It is found in Go only. -/
theorem inodeForPort_missed :
    ¬(Go.inodeForPort 40000 (some oneSocket.text) = firstInode oneSocket.rows 40000
      ∧ C.inodeForPort 40000 (some oneSocket.text)
        = ((firstInode oneSocket.rows 40000).map fun ino => (ino.toNat : Int)).getD (-1)) := by
  rintro ⟨-, h⟩
  rw [C.inodeForPort_text] at h
  exact absurd h (by decide)

/-- Both ports give the inode of the first socket of the port, or say that there is none, exactly
when there is none. -/
theorem inodeForPort_iff (t : SocketTable) (port : UInt16) :
    (Go.inodeForPort port (some t.text) = firstInode t.rows port
        ∧ C.inodeForPort port (some t.text)
          = ((firstInode t.rows port).map fun ino => (ino.toNat : Int)).getD (-1))
      ↔ ∀ r ∈ t.rows, r.localPort ≠ port := by
  rw [Go.inodeForPort_text, C.inodeForPort_text, eq_self, true_and]
  have hnone : firstInode t.rows port = none ↔ ∀ r ∈ t.rows, r.localPort ≠ port := by
    rw [firstInode, Option.map_eq_none_iff, List.find?_eq_none]
    simp only [decide_eq_true_eq, ne_eq]
  rw [← hnone]
  cases firstInode t.rows port with
  | none => exact iff_of_true rfl rfl
  | some ino =>
      refine iff_of_false (fun h => ?_) nofun
      have hpos : (-1 : Int) = (ino.toNat : Int) := h
      omega

end Tracep.Dns
