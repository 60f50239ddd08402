import Tracep.Nettrace.Sockets
import Tracep.Procfs.SocketTable

/-!
# Reading the socket tables

`readProcNetFile` takes the columns of the lines of a table apart and the
addresses in them, which is where the bytes of each word come back in
order. Both ports make of a table that the kernel has written the entries of
its rows (`Go.readProcNetFile_text`, `C.readProcNetFile_text`).
-/

namespace Tracep.Nettrace

open Fields Procfs Strconv Libc

/-- The words of an address, as many as are given, each of eight digits. -/
def readWords (readWord : Bytes → Option Bytes) : Nat → Bytes → Option Bytes
  | 0, _ => some []
  | k + 1, s => do
      let word ← readWord (s.take 8)
      let ip ← readWords readWord k (s.drop 8)
      return word ++ ip

/-! ## The Go code -/

namespace Go

/-- `parseHexIPv4`. -/
def parseHexIPv4 (s : Bytes) : Option Bytes :=
  match parseHex (2 ^ 32 - 1) s with
  | .ok v => some (le32Bytes (UInt32.ofNat v))
  | _ => none

/-- `parseHexIPv6`. -/
def parseHexIPv6 (s : Bytes) : Option Bytes :=
  if s.length ≠ 32 then none else readWords parseHexIPv4 4 s

/-- `parseHexPort`. -/
def parseHexPort (s : Bytes) : UInt16 :=
  UInt16.ofNat ((parseHex (2 ^ 16 - 1) s).value (2 ^ 16 - 1))

/-- The addresses in two columns, by the length of the first. -/
def parseHexIPs (la ra : Bytes) : Option Bytes × Option Bytes :=
  if la.length = 8 then (parseHexIPv4 la, parseHexIPv4 ra)
  else if la.length = 32 then (parseHexIPv6 la, parseHexIPv6 ra)
  else (none, none)

/-- The entry that a line gives. -/
def readProcNetLine (line : Bytes) : Option ProcEntry :=
  let fields := goFields line
  if fields.length < 10 then none
  else
    match cut [58] (fields.getD 1 []), cut [58] (fields.getD 2 []) with
    | some (la, lport), some (ra, rport) =>
        match parseHexIPs la ra with
        | (some localIP, some remoteIP) =>
            let inode := (parseUint (2 ^ 64 - 1) (fields.getD 9 [])).value (2 ^ 64 - 1)
            some ⟨localIP, parseHexPort lport, remoteIP, parseHexPort rport, UInt64.ofNat inode⟩
        | _ => none
    | _, _ => none

/-- `readProcNetFile`, of the contents of the file if it can be read. -/
def readProcNetFile (data : Option Bytes) : List ProcEntry :=
  match data with
  | none => []
  | some data => ((scanLines data).drop 1).filterMap readProcNetLine

end Go

/-! ## The C code -/

namespace C

/-- Eight digits as the bytes of a word. -/
def readWord (word : Bytes) : Option Bytes :=
  if hexEnd word ≠ [] then none else some (le32Bytes (strtoulHex word).toUInt32)

/-- `parse_hex_ipv4`. -/
def parseHexIpv4 (s : Bytes) : Option Bytes := if s.length ≠ 8 then none else readWord s

/-- `parse_hex_ipv6`. -/
def parseHexIpv6 (s : Bytes) : Option Bytes :=
  if s.length ≠ 32 then none else readWords readWord 4 s

/-- `parse_hex_port`. -/
def parseHexPort (s : Bytes) : UInt16 := (strtoulHex s &&& 0xFFFF).toUInt16

/-- The addresses in two columns, by the length of the first. -/
def parseHexIps (la ra : Bytes) : Option Bytes × Option Bytes :=
  if la.length = 8 then (parseHexIpv4 la, parseHexIpv4 ra)
  else if la.length = 32 then (parseHexIpv6 la, parseHexIpv6 ra)
  else (none, none)

/-- The entry that a line gives. -/
def readProcNetLine (line : Bytes) : Option ProcEntry :=
  let fields := (strtok [32, 9, 10] (cstr line)).take 16
  if fields.length < 10 then none
  else
    match cut [58] (fields.getD 1 []), cut [58] (fields.getD 2 []) with
    | some (la, lp), some (ra, rp) =>
        match parseHexIps la ra with
        | (some localIp, some remoteIp) =>
            some ⟨localIp, parseHexPort lp, remoteIp, parseHexPort rp, strtoul (fields.getD 9 [])⟩
        | _ => none
    | _, _ => none

/-- `read_proc_net_file`, with room for so many entries. -/
def readProcNetFile (cap : Nat) (data : Option Bytes) : List ProcEntry :=
  match data with
  | none => []
  | some data => (((fgetsLines 1024 data).drop 1).filterMap readProcNetLine).take cap

end C

/-! ## The entries of a table -/

/-- The entry of a row. -/
def entryOf (r : SocketRow) : ProcEntry :=
  ⟨r.localIP, r.localPort, r.remoteIP, r.remotePort, r.inode⟩

section Words

variable {readWord : Bytes → Option Bytes} {ip : Bytes} {k : Nat}

theorem length_addrText (h : ip.length = 4 * k) : (addrText ip).length = 8 * k := by
  refine words_induction (P := fun k ip => (addrText ip).length = 8 * k) rfl ?_ h
  intro k b0 b1 b2 b3 rest ih
  rw [addrText, List.length_append, length_hexDigits, ih]
  omega

/-- An address is read that is printed word by word. -/
theorem readWords_addrText
    (hword : ∀ b0 b1 b2 b3, readWord (hexDigits 8 (le32 b0 b1 b2 b3).toNat) = some [b0, b1, b2, b3])
    (h : ip.length = 4 * k) : readWords readWord k (addrText ip) = some ip := by
  refine words_induction (P := fun k ip => readWords readWord k (addrText ip) = some ip) rfl ?_ h
  intro k b0 b1 b2 b3 rest ih
  have hlen := length_hexDigits 8 (le32 b0 b1 b2 b3).toNat
  rw [addrText, readWords, List.take_left' hlen, List.drop_left' hlen, hword, ih]
  rfl

theorem cut_endpointText (ip : Bytes) (port : UInt16) :
    cut [58] (endpointText ip port) = some (addrText ip, hexDigits 4 port.toNat) := by
  refine cut_byte fun hmem => ?_
  have hcolon := isHex_of_mem_addrText hmem
  cases hcolon

/-- The two addresses of a row are of one family. -/
theorem family_cases (r : SocketRow) :
    (r.localIP.length = 4 * 1 ∧ r.remoteIP.length = 4 * 1)
      ∨ (r.localIP.length = 4 * 4 ∧ r.remoteIP.length = 4 * 4) := by
  obtain ⟨h4 | h16, heq⟩ := r.family
  · exact Or.inl ⟨h4, heq.trans h4⟩
  · exact Or.inr ⟨h16, heq.trans h16⟩

end Words

namespace Go

theorem parseHexIPv4_word (b0 b1 b2 b3 : UInt8) :
    parseHexIPv4 (hexDigits 8 (le32 b0 b1 b2 b3).toNat) = some [b0, b1, b2, b3] := by
  have hlt := (le32 b0 b1 b2 b3).toNat_lt
  have hparse : parseHex (2 ^ 32 - 1) (hexDigits 8 (le32 b0 b1 b2 b3).toNat)
      = .ok (le32 b0 b1 b2 b3).toNat :=
    parseHex_hexDigits (by decide) hlt (Nat.le_sub_one_of_lt hlt)
  rw [parseHexIPv4, hparse]
  simp only [UInt32.ofNat_toNat, le32Bytes_le32]

theorem parseHexIPv4_addrText {ip : Bytes} (h : ip.length = 4 * 1) :
    parseHexIPv4 (addrText ip) = some ip := by
  obtain ⟨b0, b1, b2, b3, rest, rfl, hrest⟩ := exists_word h
  have hnil : addrText [] = [] := rfl
  rw [List.eq_nil_of_length_eq_zero hrest, addrText, hnil, List.append_nil, parseHexIPv4_word]

theorem parseHexIPv6_addrText {ip : Bytes} (h : ip.length = 4 * 4) :
    parseHexIPv6 (addrText ip) = some ip := by
  rw [parseHexIPv6, if_neg (not_not_intro (length_addrText h)),
    readWords_addrText parseHexIPv4_word h]

theorem parseHexIPs_row (r : SocketRow) :
    parseHexIPs (addrText r.localIP) (addrText r.remoteIP) = (some r.localIP, some r.remoteIP) := by
  rcases family_cases r with ⟨hl, hr⟩ | ⟨hl, hr⟩
  · rw [parseHexIPs, if_pos (length_addrText hl), parseHexIPv4_addrText hl,
      parseHexIPv4_addrText hr]
  · have hlen := length_addrText hl
    rw [parseHexIPs, if_neg (by rw [hlen]; decide), if_pos hlen, parseHexIPv6_addrText hl,
      parseHexIPv6_addrText hr]

theorem parseHexPort_hexDigits (port : UInt16) : parseHexPort (hexDigits 4 port.toNat) = port := by
  have hparse : parseHex (2 ^ 16 - 1) (hexDigits 4 port.toNat) = .ok port.toNat :=
    parseHex_hexDigits (by decide) port.toNat_lt (Nat.le_sub_one_of_lt port.toNat_lt)
  rw [parseHexPort, hparse]
  exact UInt16.ofNat_toNat

/-- A line gives the entry of its row. -/
theorem readProcNetLine_line (r : SocketRow) : readProcNetLine r.line = some (entryOf r) := by
  have hlen := r.not_length_words_lt (goFields r.rest)
  have hlocal : (r.words ++ goFields r.rest).getD 1 [] = endpointText r.localIP r.localPort := rfl
  have hremote : (r.words ++ goFields r.rest).getD 2 [] = endpointText r.remoteIP r.remotePort := rfl
  have hinode : (r.words ++ goFields r.rest).getD 9 [] = digits 10 r.inode.toNat := rfl
  simp only [readProcNetLine, r.goFields_line, if_neg hlen, hlocal, hremote, cut_endpointText,
    parseHexIPs_row, parseHexPort_hexDigits, hinode, r.parseUint_inode, Number.value,
    UInt64.ofNat_toNat, entryOf]

/-- A table gives the entries of its rows. -/
theorem readProcNetFile_text (t : SocketTable) :
    readProcNetFile (some t.text) = t.rows.map entryOf := by
  simp only [readProcNetFile, t.scanLines_text, SocketTable.lines, List.drop_one, List.tail_cons,
    List.filterMap_map]
  rw [show readProcNetLine ∘ SocketRow.line = fun r => some (entryOf r) from
    funext readProcNetLine_line, List.filterMap_eq_map']

end Go

namespace C

theorem readWord_word (b0 b1 b2 b3 : UInt8) :
    readWord (hexDigits 8 (le32 b0 b1 b2 b3).toNat) = some [b0, b1, b2, b3] := by
  have hlt := (le32 b0 b1 b2 b3).toNat_lt
  have hend : hexEnd (hexDigits 8 (le32 b0 b1 b2 b3).toNat) = [] := hexEnd_hexDigits (by decide)
  have hvalue : strtoulHex (hexDigits 8 (le32 b0 b1 b2 b3).toNat)
      = UInt64.ofNat (le32 b0 b1 b2 b3).toNat :=
    strtoulHex_hexDigits hlt (hlt.trans (by decide))
  have hword : (UInt64.ofNat (le32 b0 b1 b2 b3).toNat).toUInt32 = le32 b0 b1 b2 b3 := by
    rw [← UInt32.toNat_inj, UInt64.toNat_toUInt32, UInt64.toNat_ofNat']
    omega
  rw [readWord, if_neg (not_not_intro hend), hvalue, hword, le32Bytes_le32]

theorem parseHexIpv4_addrText {ip : Bytes} (h : ip.length = 4 * 1) :
    parseHexIpv4 (addrText ip) = some ip := by
  obtain ⟨b0, b1, b2, b3, rest, rfl, hrest⟩ := exists_word h
  rw [parseHexIpv4, if_neg (not_not_intro (length_addrText h)), List.eq_nil_of_length_eq_zero hrest,
    addrText, show addrText [] = [] from rfl, List.append_nil, readWord_word]

theorem parseHexIpv6_addrText {ip : Bytes} (h : ip.length = 4 * 4) :
    parseHexIpv6 (addrText ip) = some ip := by
  rw [parseHexIpv6, if_neg (not_not_intro (length_addrText h)), readWords_addrText readWord_word h]

theorem parseHexIps_row (r : SocketRow) :
    parseHexIps (addrText r.localIP) (addrText r.remoteIP) = (some r.localIP, some r.remoteIP) := by
  rcases family_cases r with ⟨hl, hr⟩ | ⟨hl, hr⟩
  · rw [parseHexIps, if_pos (length_addrText hl), parseHexIpv4_addrText hl,
      parseHexIpv4_addrText hr]
  · have hlen := length_addrText hl
    rw [parseHexIps, if_neg (by rw [hlen]; decide), if_pos hlen, parseHexIpv6_addrText hl,
      parseHexIpv6_addrText hr]

theorem parseHexPort_hexDigits (port : UInt16) : parseHexPort (hexDigits 4 port.toNat) = port := by
  have hlt := port.toNat_lt
  have hvalue : strtoulHex (hexDigits 4 port.toNat) = UInt64.ofNat port.toNat :=
    strtoulHex_hexDigits hlt (hlt.trans (by decide))
  have hmask : port.toNat &&& 65535 = port.toNat := by
    rw [Nat.and_two_pow_sub_one_eq_mod port.toNat 16]
    omega
  rw [parseHexPort, hvalue, ← UInt16.toNat_inj, UInt64.toNat_toUInt16, UInt64.toNat_and,
    UInt64.toNat_ofNat', Nat.mod_eq_of_lt (hlt.trans (by decide))]
  change (port.toNat &&& 65535) % 2 ^ 16 = port.toNat
  omega

/-- A line gives the entry of its row. -/
theorem readProcNetLine_line (r : SocketRow) : readProcNetLine (r.line ++ [10]) = some (entryOf r) := by
  let rest := strtok [32, 9, 10] (r.rest ++ [10])
  have hfields : (strtok [32, 9, 10] (r.line ++ [10])).take 16 = r.words ++ rest.take 6 := by
    have h : strtok [32, 9, 10] (r.line ++ [10]) = r.words ++ rest :=
      r.split_line ascii_strtok ascii_strtok.newline
    rw [h]
    rfl
  have hlen := r.not_length_words_lt (rest.take 6)
  have hlocal : (r.words ++ rest.take 6).getD 1 [] = endpointText r.localIP r.localPort := rfl
  have hremote : (r.words ++ rest.take 6).getD 2 [] = endpointText r.remoteIP r.remotePort := rfl
  have hinode : (r.words ++ rest.take 6).getD 9 [] = digits 10 r.inode.toNat := rfl
  have hstrtoul := strtoul_of_parseUint r.parseUint_inode r.inode.toNat_lt
  simp only [readProcNetLine, r.cstr_line, hfields, if_neg hlen, hlocal, hremote, cut_endpointText,
    parseHexIps_row, parseHexPort_hexDigits, hinode, hstrtoul, UInt64.ofNat_toNat, entryOf]

/-- A table gives the entries of its rows, as many as there is room for. -/
theorem readProcNetFile_text (cap : Nat) (t : SocketTable) :
    readProcNetFile cap (some t.text) = (t.rows.map entryOf).take cap := by
  have hlines : readProcNetLine ∘ (· ++ [10]) ∘ SocketRow.line = fun r => some (entryOf r) := by
    funext r
    rw [Function.comp_apply, Function.comp_apply, readProcNetLine_line]
  simp only [readProcNetFile, t.fgetsLines_text (show 512 ≤ 1024 by decide), SocketTable.lines,
    List.map_cons, List.drop_one, List.tail_cons, List.map_map, List.filterMap_map, hlines]
  rw [List.filterMap_eq_map']

end C

end Tracep.Nettrace
