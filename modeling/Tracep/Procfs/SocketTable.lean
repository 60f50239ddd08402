import Tracep.Lib.Cut
import Tracep.Lib.Fields
import Tracep.Lib.Hex

/-!
# The socket tables of the kernel

`/proc/net/tcp` and its like have a header line and a line for each socket.
The kernel prints an address as 32-bit numbers, so on a little-endian host
the bytes of each word come in reverse (`addrText`), and the ports and most
of the rest in hexadecimal. The ten columns up to the inode are words with
spaces between them (`SocketRow.words_columns`), and so every reader that
splits a line at blanks finds the same ten (`SocketRow.split_line`).
-/

namespace Tracep.Procfs

open Fields

/-- An address, one 32-bit word of memory after another. -/
def addrText : Bytes → Bytes
  | b0 :: b1 :: b2 :: b3 :: ip => hexDigits 8 (le32 b0 b1 b2 b3).toNat ++ addrText ip
  | _ => []

/-- An address and a port. -/
def endpointText (ip : Bytes) (port : UInt16) : Bytes := addrText ip ++ 58 :: hexDigits 4 port.toNat

/-- A socket. Its number is padded to a width that depends on the table, and what follows the
inode does, too. -/
structure SocketRow where
  width : Nat
  sl : Nat
  localIP : Bytes
  localPort : UInt16
  remoteIP : Bytes
  remotePort : UInt16
  state : UInt8
  txQueue : UInt32
  rxQueue : UInt32
  timer : UInt8
  expires : UInt64
  retrnsmt : UInt32
  uid : UInt32
  timeout : Int
  inode : UInt64
  rest : Bytes
  family : (localIP.length = 4 ∨ localIP.length = 16) ∧ remoteIP.length = localIP.length
  rest_start : rest.head? ∈ [none, some 32]
  rest_visible : ∀ b ∈ rest, b = 32 ∨ 32 < b ∧ b < 127

namespace SocketRow

/-- The columns that are hexadecimal. -/
def hexColumns (r : SocketRow) : List (Nat × Bytes) :=
  [(1, endpointText r.localIP r.localPort),
    (1, endpointText r.remoteIP r.remotePort),
    (1, hexDigits 2 r.state.toNat),
    (1, hexDigits 8 r.txQueue.toNat ++ 58 :: hexDigits 8 r.rxQueue.toNat),
    (1, hexDigits 2 r.timer.toNat ++ 58 :: hexPad 8 r.expires.toNat),
    (1, hexDigits 8 r.retrnsmt.toNat)]

/-- The columns up to the inode, each with the spaces before it. -/
def columns (r : SocketRow) : List (Nat × Bytes) :=
  (r.width - (digits 10 r.sl).length, digits 10 r.sl ++ [58]) :: (r.hexColumns
    ++ [(1 + (5 - (digits 10 r.uid.toNat).length), digits 10 r.uid.toNat),
      (1 + (8 - (intText r.timeout).length), intText r.timeout),
      (1, digits 10 r.inode.toNat)])

def line (r : SocketRow) : Bytes := columnsText 32 r.columns ++ r.rest

/-- The columns without their spaces. -/
def words (r : SocketRow) : List Bytes := r.columns.map Prod.snd

/-- A socket with nothing in its queues. -/
def idle (localIP : Bytes) (localPort : UInt16) (remoteIP : Bytes) (remotePort : UInt16)
    (state : UInt8) (inode : UInt64)
    (family : (localIP.length = 4 ∨ localIP.length = 16) ∧ remoteIP.length = localIP.length) :
    SocketRow where
  width := 4
  sl := 0
  localIP := localIP
  localPort := localPort
  remoteIP := remoteIP
  remotePort := remotePort
  state := state
  txQueue := 0
  rxQueue := 0
  timer := 0
  expires := 0
  retrnsmt := 0
  uid := 0
  timeout := 0
  inode := inode
  rest := []
  family := family
  rest_start := List.mem_cons_self
  rest_visible := nofun

end SocketRow

/-- A table whose lines are as short as those of the kernel. -/
structure SocketTable where
  header : Bytes
  rows : List SocketRow
  header_visible : ∀ b ∈ header, b = 32 ∨ 32 < b ∧ b < 127
  short : ∀ line ∈ header :: rows.map SocketRow.line, line.length < 511

namespace SocketTable

def lines (t : SocketTable) : List Bytes := t.header :: t.rows.map SocketRow.line

def text (t : SocketTable) : Bytes := unlines t.lines

/-- A table of these rows. -/
def ofRows (rows : List SocketRow) (short : ∀ line ∈ rows.map SocketRow.line, line.length < 511) :
    SocketTable where
  header := [115, 108]
  rows := rows
  header_visible := List.forall_mem_cons.mpr ⟨by decide, List.forall_mem_singleton.mpr (by decide)⟩
  short := List.forall_mem_cons.mpr ⟨by decide, short⟩

end SocketTable

/-! ## Columns -/

section Text

variable {ip : Bytes} {b : UInt8}

theorem isHex_of_mem_addrText (h : b ∈ addrText ip) : isHex b = true := by
  induction ip using addrText.induct with
  | case1 b0 b1 b2 b3 ip ih =>
      rcases List.mem_append.mp h with h | h
      · exact isHex_of_mem_hexDigits h
      · exact ih h
  | case2 ip hshort =>
      rw [addrText] at h
      · exact absurd h List.not_mem_nil
      · exact hshort

/-- The first word of an address, and the rest. -/
theorem exists_word {k : Nat} (h : ip.length = 4 * (k + 1)) :
    ∃ b0 b1 b2 b3 rest, ip = b0 :: b1 :: b2 :: b3 :: rest ∧ rest.length = 4 * k := by
  match ip, h with
  | [], h | [_], h | [_, _], h | [_, _, _], h =>
      simp only [List.length_cons, List.length_nil] at h
      omega
  | b0 :: b1 :: b2 :: b3 :: rest, h =>
      simp only [List.length_cons] at h
      exact ⟨b0, b1, b2, b3, rest, rfl, by omega⟩

/-- By induction on the words of an address. -/
theorem words_induction {P : Nat → Bytes → Prop} (nil : P 0 [])
    (word : ∀ {k} b0 b1 b2 b3 rest, P k rest → P (k + 1) (b0 :: b1 :: b2 :: b3 :: rest)) {k : Nat}
    (h : ip.length = 4 * k) : P k ip := by
  induction k generalizing ip with
  | zero =>
      rw [List.eq_nil_of_length_eq_zero h]
      exact nil
  | succ k ih =>
      obtain ⟨b0, b1, b2, b3, rest, rfl, hrest⟩ := exists_word h
      exact word b0 b1 b2 b3 rest (ih hrest)

end Text

section Visible

variable {s t : Bytes}

theorem visible_hexDigits (k n : Nat) : Visible (hexDigits k n) :=
  fun _ hb => visible_of_isHex (isHex_of_mem_hexDigits hb)

theorem visible_addrText (ip : Bytes) : Visible (addrText ip) :=
  fun _ hb => visible_of_isHex (isHex_of_mem_addrText hb)

theorem colon_ne_nil : s ++ 58 :: t ≠ [] := List.append_ne_nil_of_right_ne_nil s (List.cons_ne_nil _ t)

end Visible

namespace SocketRow

variable (r : SocketRow)

theorem words_columns : Words r.columns := by
  constructor
  · simp only [columns, hexColumns, List.cons_append, List.nil_append, List.forall_mem_cons,
      endpointText]
    refine ⟨⟨colon_ne_nil, visible_colon (visible_digits _) nofun⟩,
      ⟨colon_ne_nil, visible_colon (visible_addrText _) (visible_hexDigits _ _)⟩,
      ⟨colon_ne_nil, visible_colon (visible_addrText _) (visible_hexDigits _ _)⟩,
      ⟨hexDigits_ne_nil (by decide), visible_hexDigits _ _⟩,
      ⟨colon_ne_nil, visible_colon (visible_hexDigits _ _) (visible_hexDigits _ _)⟩,
      ⟨colon_ne_nil, visible_colon (visible_hexDigits _ _) (visible_hexDigits _ _)⟩,
      ⟨hexDigits_ne_nil (by decide), visible_hexDigits _ _⟩,
      ⟨Strconv.digits_ne_nil _, visible_digits _⟩, ⟨intText_ne_nil _, visible_intText _⟩,
      ⟨Strconv.digits_ne_nil _, visible_digits _⟩, nofun⟩
  · simp only [columns, hexColumns, List.cons_append, List.nil_append, List.tail_cons,
      List.forall_mem_cons]
    exact ⟨Nat.one_pos, Nat.one_pos, Nat.one_pos, Nat.one_pos, Nat.one_pos, Nat.one_pos,
      by omega, by omega, Nat.one_pos, nofun⟩

theorem ends_rest {blank : Bytes → Nat} (h : Ascii blank) {tail : Bytes} (htail : Ends blank tail) :
    Ends blank (r.rest ++ tail) := by
  have hstart := r.rest_start
  cases hrest : r.rest with
  | nil => exact htail
  | cons b rest =>
      rw [hrest] at hstart
      obtain rfl : b = 32 := by simpa using hstart
      exact h.space

/-- The words of a line begin with the ten columns, whatever else is a blank. -/
theorem split_line {blank : Bytes → Nat} (h : Ascii blank) {tail : Bytes}
    (htail : Ends blank tail) :
    split blank (r.line ++ tail) = r.words ++ split blank (r.rest ++ tail) := by
  rw [line, List.append_assoc, h.split r.words_columns (r.ends_rest h htail)]
  rfl

/-- What `strings.Fields` makes of a line. -/
theorem goFields_line : goFields r.line = r.words ++ goFields r.rest := by
  have h : goFields (r.line ++ []) = r.words ++ goFields (r.rest ++ []) :=
    r.split_line ascii_whiteSpace trivial
  rwa [List.append_nil, List.append_nil] at h

theorem not_length_words_lt (rest : List Bytes) : ¬(r.words ++ rest).length < 10 := by
  rw [List.length_append]
  exact Nat.not_lt.mpr (Nat.le_add_right 10 _)

theorem parseUint_inode :
    Strconv.parseUint (2 ^ 64 - 1) (digits 10 r.inode.toNat) = .ok r.inode.toNat :=
  Strconv.parseUint_digits (Nat.le_sub_one_of_lt r.inode.toNat_lt)

/-- Every byte of a line is a space or visible. -/
theorem visible_line : ∀ b ∈ r.line, b = 32 ∨ 32 < b ∧ b < 127 := by
  intro b hb
  rcases List.mem_append.mp hb with hb | hb
  · obtain ⟨column, hc, hb⟩ := List.mem_flatMap.mp hb
    rcases List.mem_append.mp hb with hb | hb
    · exact Or.inl (List.eq_of_mem_replicate hb)
    · exact Or.inr ((r.words_columns.word column hc).2 b hb)
  · exact r.rest_visible b hb

/-- A line is a C string, with its newline. -/
theorem cstr_line : cstr (r.line ++ [10]) = r.line ++ [10] := by
  refine cstr_of_noNul fun hmem => ?_
  rcases List.mem_append.mp hmem with hmem | hmem
  · rcases r.visible_line 0 hmem with h | ⟨h, -⟩ <;> exact absurd h (by decide)
  · exact absurd (List.mem_singleton.mp hmem) (by decide)

end SocketRow

/-! ## Lines -/

namespace SocketTable

variable (t : SocketTable)

theorem visible_lines : ∀ line ∈ t.lines, ∀ b ∈ line, b = 32 ∨ 32 < b ∧ b < 127 := by
  intro line hline
  rcases List.mem_cons.mp hline with rfl | hline
  · exact t.header_visible
  · obtain ⟨r, -, rfl⟩ := List.mem_map.mp hline
    exact r.visible_line

theorem not_mem_line {b : UInt8} (hb : b < 32) : ∀ line ∈ t.lines, b ∉ line := by
  intro line hline hmem
  rcases t.visible_lines line hline b hmem with rfl | ⟨hlo, -⟩
  · exact UInt8.lt_irrefl 32 hb
  · exact UInt8.lt_irrefl 32 (UInt8.lt_trans hlo hb)

theorem scanLines_text : scanLines t.text = t.lines := by
  refine scanLines_unlines fun line hline => ?_
  refine ⟨t.not_mem_line (by decide) line hline, t.not_mem_line (by decide) line hline, ?_⟩
  exact (t.short line hline).trans (by decide)

theorem fgetsLines_text {cap : Nat} (hcap : 512 ≤ cap) :
    fgetsLines cap t.text = t.lines.map (· ++ [10]) := by
  refine fgetsLines_unlines fun line hline => ?_
  have hshort := t.short line hline
  exact ⟨t.not_mem_line (by decide) line hline, by omega⟩

end SocketTable

end Tracep.Procfs
