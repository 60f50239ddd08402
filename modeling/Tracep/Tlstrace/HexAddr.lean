import Mathlib.Tactic.IntervalCases
import Tracep.Lib.AddressText
import Tracep.Lib.CBuffer
import Tracep.Nettrace.ProcNet
import Tracep.Nettrace.TupleKey
import Tracep.Tlstrace.Line

/-!
# Endpoints of the socket tables as text

`parseHexAddr` makes a host and a port of a column of `/proc/net/tcp`, on
its own and not with the functions of the net tracer. What the kernel prints
are the bytes of each word from the last one on, and so `hex.DecodeString`
gives them the wrong way round. For IPv6 the words are then reversed; for
IPv4 they are read as little-endian and taken apart again in the same order,
which leaves them as they are.
-/

namespace Tracep.Tlstrace

open Procfs

/-- `"%s:%d"`. -/
def hostPort (host : Bytes) (port : Nat) : Bytes := host ++ 58 :: digits 10 port

/-- Each group of four bytes reversed. -/
def reverseWords : Bytes → Bytes
  | b0 :: b1 :: b2 :: b3 :: s => b3 :: b2 :: b1 :: b0 :: reverseWords s
  | s => s

/-- The name of a host, if there is one to be asked for, or its address. -/
def resolved (noReverseDNS : Bool) (lookup : Bytes → Option Bytes) (ip : Bytes) : Bytes :=
  match if noReverseDNS then none else lookup ip with
  | some name => trimSuffix name [46]
  | none => ip

/-- `fe80::/10`. -/
def isLinkLocal (ip : Bytes) : Bool := ip.getD 0 0 = 0xfe ∧ ip.getD 1 0 &&& 0xc0 = 0x80

/-- `::1`. -/
def ipv6Loopback : Bytes := List.replicate 15 0 ++ [1]

/-- `::`. -/
def ipv6Unspecified : Bytes := List.replicate 16 0

/-- `::ffff:0:0/96`. -/
def mappedStart : Bytes := List.replicate 10 0 ++ [0xff, 0xff]

/-! ## The Go code -/

namespace Go

open Nettrace.Go (to4)
open Strconv

/-- `net.IP.IsLoopback`. -/
def isLoopback (ip : Bytes) : Bool :=
  match to4 (some ip) with
  | some v4 => v4.getD 0 0 = 127
  | none => ip = ipv6Loopback

/-- `net.IP.IsLinkLocalUnicast`. -/
def isLinkLocalUnicast (ip : Bytes) : Bool :=
  match to4 (some ip) with
  | some v4 => v4.take 2 = [169, 254]
  | none => ip.length = 16 ∧ isLinkLocal ip

/-- `net.IP.IsUnspecified`. -/
def isUnspecified (ip : Bytes) : Bool := to4 (some ip) = some [0, 0, 0, 0] ∨ ip = ipv6Unspecified

/-- The address of a column. An IPv4 address is the one that `net.IPv4` makes. -/
def hexIP (addrHex : Bytes) (isV6 : Bool) : Option Bytes :=
  match decodeHex addrHex with
  | none => none
  | some b =>
      if !isV6 then
        if b.length ≠ 4 then none else some (mappedStart ++ le32Bytes (leWord32 b 0))
      else if b.length ≠ 16 then none
      else
        let ip := reverseWords b
        if isLoopback ip || isLinkLocalUnicast ip then none else some ip

/-- `parseHexAddr`. -/
def parseHexAddr (noReverseDNS : Bool) (lookupAddr : Bytes → Option Bytes) (hexAddr : Bytes)
    (isV6 : Bool) : Bytes :=
  match cut [58] hexAddr with
  | none => []
  | some (addrHex, portHex) =>
      match parseHex (2 ^ 16 - 1) portHex with
      | .ok port =>
          if port = 0 then []
          else
            match hexIP addrHex isV6 with
            | none => []
            | some ip =>
                if isLoopback ip || isUnspecified ip then []
                else hostPort (resolved noReverseDNS lookupAddr (ipText ip)) port
      | _ => []

end Go

/-! ## The C code -/

namespace C

open Libc

/-- The bytes in memory of what `htonl` makes of the word. -/
def htonl (v : UInt32) : Bytes :=
  [(v >>> 24).toUInt8, (v >>> 16).toUInt8, (v >>> 8).toUInt8, v.toUInt8]

/-- What `s_addr` is set to before `htonl`. -/
def swapped (addr32 : UInt32) : UInt32 :=
  (addr32 &&& (0xFF : UInt32)) <<< 24 ||| (addr32 &&& (0xFF00 : UInt32)) <<< 8
    ||| (addr32 >>> 8 &&& (0xFF00 : UInt32)) ||| (addr32 >>> 24 &&& (0xFF : UInt32))

/-- Pairs of digits as bytes. -/
def readPairs : Bytes → Option Bytes
  | c0 :: c1 :: s =>
      if hexEnd [c0, c1] ≠ [] then none
      else (readPairs s).map ((strtoulHex [c0, c1]).toUInt8 :: ·)
  | _ => some []

/-- `inet_ntop`, of an address. -/
def inetNtop (ip : Bytes) : Bytes := Nettrace.C.ipStr ip ip.length

/-- The text of the address of a column. -/
def hexIp (addrHex : Bytes) (isV6 : Bool) : Option Bytes :=
  if 64 ≤ addrHex.length then none
  else if addrHex.length % 2 ≠ 0 then none
  else if 16 < addrHex.length / 2 then none
  else
    match readPairs addrHex with
    | none => none
    | some b =>
        if !isV6 then
          if b.length ≠ 4 then none
          else
            let addr32 := leWord32 b 0
            let o := le32Bytes addr32
            if o.getD 0 0 = 127 then none
            else if o = [0, 0, 0, 0] then none
            else some (inetNtop (htonl (swapped addr32)))
        else if b.length ≠ 16 then none
        else
          let in6 := reverseWords b
          if in6 = ipv6Loopback ∨ isLinkLocal in6 then none
          else if in6 = ipv6Loopback ∨ in6 = ipv6Unspecified then none
          else some (inetNtop in6)

/-- `parse_hex_addr`, into a buffer of `cap` bytes. -/
def parseHexAddr (noReverseDns : Bool) (lookup : Bytes → Option Bytes) (cap : Nat)
    (hexAddr : Bytes) (isV6 : Bool) : Option Bytes :=
  match cut [58] hexAddr with
  | none => none
  | some (addrHex, portHex) =>
      if hexEnd portHex = portHex ∨ 0xFFFF < strtoulHex portHex then none
      else if strtoulHex portHex = 0 then none
      else
        match hexIp addrHex isV6 with
        | none => none
        | some ipstr =>
            let host := resolved noReverseDns lookup ipstr
            some (fitted cap (hostPort host (strtoulHex portHex).toNat))

end C

/-! ## Words -/

section Words

variable {ip : Bytes} {k : Nat}

theorem length_reverseWords (h : ip.length = 4 * k) : (reverseWords ip).length = 4 * k := by
  refine words_induction (P := fun k ip => (reverseWords ip).length = 4 * k) rfl ?_ h
  intro k b0 b1 b2 b3 rest ih
  rw [reverseWords]
  simp only [List.length_cons, ih]
  omega

theorem reverseWords_reverseWords (h : ip.length = 4 * k) : reverseWords (reverseWords ip) = ip := by
  refine words_induction (P := fun _ ip => reverseWords (reverseWords ip) = ip) rfl ?_ h
  intro k b0 b1 b2 b3 rest ih
  rw [reverseWords, reverseWords, ih]

theorem reverseWords_four (h : ip.length = 4) : reverseWords ip = ip.reverse := by
  obtain ⟨b0, b1, b2, b3, rest, rfl, hrest⟩ := exists_word (k := 0) h
  rw [List.eq_nil_of_length_eq_zero hrest]
  rfl

/-- What the kernel prints are the bytes of the words from the last one on. -/
theorem addrText_eq (h : ip.length = 4 * k) : addrText ip = hexBytes (reverseWords ip) := by
  refine words_induction (P := fun _ ip => addrText ip = hexBytes (reverseWords ip)) rfl ?_ h
  intro k b0 b1 b2 b3 rest ih
  rw [addrText, hexDigits_le32, ih]
  rfl

theorem le32Bytes_leWord32 (h : ip.length = 4) : le32Bytes (leWord32 ip 0) = ip := by
  obtain ⟨b0, b1, b2, b3, rest, rfl, hrest⟩ := exists_word (k := 0) h
  rw [List.eq_nil_of_length_eq_zero hrest]
  exact le32Bytes_le32 b0 b1 b2 b3

end Words

namespace C

open Libc

theorem readPairs_hexBytes (bs : Bytes) : readPairs (hexBytes bs) = some bs := by
  induction bs with
  | nil => rfl
  | cons b bs ih =>
      obtain ⟨hi, -, lo, -, htwo, -⟩ := exists_hexDigits_two b
      have hend : hexEnd (hexDigits 2 b.toNat) = [] := hexEnd_hexDigits (by decide)
      have hvalue : strtoulHex (hexDigits 2 b.toNat) = UInt64.ofNat b.toNat :=
        strtoulHex_hexDigits b.toNat_lt (b.toNat_lt.trans (by decide))
      rw [htwo] at hend hvalue
      rw [hexBytes] at ih
      rw [hexBytes, List.flatMap_cons, htwo, List.cons_append, List.cons_append, List.nil_append,
        readPairs, if_neg (not_not_intro hend), hvalue, ih]
      simp

/-- The word is swapped twice, so the bytes are in memory as they were. -/
theorem htonl_swapped (a : UInt32) : htonl (swapped a) = le32Bytes a := by
  simp only [htonl, le32Bytes, List.cons.injEq, and_true]
  refine ⟨?_, ?_, ?_, ?_⟩
  -- each byte is compared bit by bit
  all_goals
    refine UInt8.toBitVec_inj.mp ?_
    ext i hi
    simp only [swapped]
    interval_cases i <;> simp

end C

/-! ## What the columns are read as -/

/-- An address that is not left out. -/
inductive Routable : Bytes → Prop where
  | v4 {ip : Bytes} : ip.length = 4 → ip.getD 0 0 ≠ 127 → ip ≠ [0, 0, 0, 0] → Routable ip
  | v6 {ip : Bytes} : ip.length = 16 → ip ≠ ipv6Loopback → isLinkLocal ip = false →
      ip ≠ ipv6Unspecified → ip.take 12 ≠ mappedStart → Routable ip

section Columns

variable {ip : Bytes}

/-- The address that `net.IPv4` makes. -/
theorem mapped_parts (h : ip.length = 4) :
    (mappedStart ++ ip).length = 16 ∧ (mappedStart ++ ip).take 12 = mappedStart
      ∧ (mappedStart ++ ip).drop 12 = ip := by
  refine ⟨?_, List.take_left' rfl, List.drop_left' rfl⟩
  rw [List.length_append, h]
  rfl

theorem Go.to4_mapped (h : ip.length = 4) :
    Nettrace.Go.to4 (some (mappedStart ++ ip)) = some ip := by
  obtain ⟨hlen, htake, hdrop⟩ := mapped_parts h
  rw [Nettrace.Go.to4, Option.bind_some, if_neg (by rw [hlen]; decide), if_pos ⟨hlen, htake⟩, hdrop]

theorem Go.to4_v6 (h : ip.length = 16) (hmapped : ip.take 12 ≠ mappedStart) :
    Nettrace.Go.to4 (some ip) = none := by
  rw [Nettrace.Go.to4, Option.bind_some, if_neg (by rw [h]; decide), if_neg fun hm => hmapped hm.2]

theorem ipText_mapped (h : ip.length = 4) : ipText (mappedStart ++ ip) = dottedQuad ip := by
  obtain ⟨hlen, htake, hdrop⟩ := mapped_parts h
  rw [ipText, if_neg (by rw [hlen]; decide)]
  exact (if_pos htake).trans (congrArg dottedQuad hdrop)

theorem Go.hexIP_v4 (h : ip.length = 4) :
    Go.hexIP (addrText ip) false = some (mappedStart ++ ip.reverse) := by
  have hlen : ip.reverse.length = 4 := by rw [List.length_reverse, h]
  have htext : addrText ip = hexBytes ip.reverse := by
    rw [addrText_eq (k := 1) h, reverseWords_four h]
  simp only [Go.hexIP, htext, decodeHex_hexBytes, Bool.not_false, if_true, ne_eq, hlen,
    not_true_eq_false, if_false, le32Bytes_leWord32 hlen]

theorem Go.hexIP_v6 (h : ip.length = 16) :
    Go.hexIP (addrText ip) true
      = if Go.isLoopback ip || Go.isLinkLocalUnicast ip then none else some ip := by
  have hlen : (reverseWords ip).length = 16 := length_reverseWords (k := 4) h
  simp only [Go.hexIP, addrText_eq (k := 4) h, decodeHex_hexBytes, Bool.not_true,
    Bool.false_eq_true, if_false, ne_eq, hlen, not_true_eq_false, reverseWords_reverseWords (k := 4) h]

theorem C.hexIp_v4 (h : ip.length = 4) :
    C.hexIp (addrText ip) false
      = if ip.reverse.getD 0 0 = 127 then none
        else if ip.reverse = [0, 0, 0, 0] then none
        else some (dottedQuad ip.reverse) := by
  have hlen : ip.reverse.length = 4 := by rw [List.length_reverse, h]
  have htext : addrText ip = hexBytes ip.reverse := by
    rw [addrText_eq (k := 1) h, reverseWords_four h]
  have hbytes : (hexBytes ip.reverse).length = 8 := by rw [length_hexBytes, hlen]
  have hntop : C.inetNtop ip.reverse = dottedQuad ip.reverse := by
    rw [C.inetNtop, hlen]
    exact congrArg dottedQuad (List.take_of_length_le (Nat.le_of_eq hlen))
  simp only [C.hexIp, htext, hbytes, C.readPairs_hexBytes, Bool.not_false, if_true, ne_eq, hlen,
    C.htonl_swapped, le32Bytes_leWord32 hlen, hntop]
  rfl

theorem C.hexIp_v6 (h : ip.length = 16) :
    C.hexIp (addrText ip) true
      = if ip = ipv6Loopback ∨ isLinkLocal ip then none
        else if ip = ipv6Loopback ∨ ip = ipv6Unspecified then none
        else some (C.inetNtop ip) := by
  have hlen : (reverseWords ip).length = 16 := length_reverseWords (k := 4) h
  have hbytes : (hexBytes (reverseWords ip)).length = 32 := by rw [length_hexBytes, hlen]
  simp only [C.hexIp, addrText_eq (k := 4) h, hbytes, C.readPairs_hexBytes, hlen,
    reverseWords_reverseWords (k := 4) h]
  rfl

end Columns

/-! ## What is printed -/

section Printed

variable {ip : Bytes} {port : UInt16} {lookup : Bytes → Option Bytes} {isV6 : Bool}

/-- Without reverse DNS it is the text of the address that is read. -/
theorem Go.parseHexAddr_endpoint (hport : port ≠ 0) :
    Go.parseHexAddr true lookup (endpointText ip port) isV6
      = match Go.hexIP (addrText ip) isV6 with
        | none => []
        | some ip =>
            if Go.isLoopback ip || Go.isUnspecified ip then []
            else hostPort (ipText ip) port.toNat := by
  have hparse : Strconv.parseHex (2 ^ 16 - 1) (hexDigits 4 port.toNat) = .ok port.toNat :=
    Strconv.parseHex_hexDigits (by decide) port.toNat_lt (Nat.le_sub_one_of_lt port.toNat_lt)
  have hpos : port.toNat ≠ 0 := fun h => hport (UInt16.toNat_inj.mp h)
  simp only [Go.parseHexAddr, Nettrace.cut_endpointText, hparse, if_neg hpos]
  rfl

theorem C.parseHexAddr_endpoint {cap : Nat} (hport : port ≠ 0) :
    C.parseHexAddr true lookup cap (endpointText ip port) isV6
      = (C.hexIp (addrText ip) isV6).map fun ipstr => fitted cap (hostPort ipstr port.toNat) := by
  have hlt := port.toNat_lt
  have hvalue : Libc.strtoulHex (hexDigits 4 port.toNat) = UInt64.ofNat port.toNat :=
    Libc.strtoulHex_hexDigits hlt (hlt.trans (by decide))
  have hend : Libc.hexEnd (hexDigits 4 port.toNat) = [] := Libc.hexEnd_hexDigits (by decide)
  have htoNat : (UInt64.ofNat port.toNat).toNat = port.toNat := by
    rw [UInt64.toNat_ofNat', Nat.mod_eq_of_lt (hlt.trans (by decide))]
  have hin : ¬([] = hexDigits 4 port.toNat ∨ (0xFFFF : UInt64) < UInt64.ofNat port.toNat) := by
    rintro (h | h)
    · exact hexDigits_ne_nil (by decide) h.symm
    · rw [UInt64.lt_iff_toNat_lt, htoNat] at h
      exact absurd h (Nat.not_lt.mpr (Nat.le_of_lt_succ hlt))
  have hpos : UInt64.ofNat port.toNat ≠ 0 := by
    intro h
    rw [← UInt64.toNat_inj, htoNat] at h
    exact hport (UInt16.toNat_inj.mp h)
  simp only [C.parseHexAddr, Nettrace.cut_endpointText, hend, hvalue, if_neg hin, if_neg hpos, htoNat]
  cases C.hexIp (addrText ip) isV6 <;> rfl

theorem Go.printed_v4 (h : ip.length = 4) (hport : port ≠ 0) :
    Go.parseHexAddr true lookup (endpointText ip port) false
      = if ip.reverse.getD 0 0 = 127 ∨ ip.reverse = [0, 0, 0, 0] then []
        else hostPort (dottedQuad ip.reverse) port.toNat := by
  have hlen : ip.reverse.length = 4 := by rw [List.length_reverse, h]
  have hsixteen : mappedStart ++ ip.reverse ≠ ipv6Unspecified := by
    intro hzero
    have htake := congrArg (List.take 12) hzero
    rw [(mapped_parts hlen).2.1] at htake
    cases htake
  rw [Go.parseHexAddr_endpoint hport, Go.hexIP_v4 h]
  simp only [Go.isLoopback, Go.isUnspecified, Go.to4_mapped hlen, ipText_mapped hlen, hsixteen,
    or_false, Option.some.injEq, Bool.or_eq_true, decide_eq_true_eq]

theorem C.printed_v4 {cap : Nat} (h : ip.length = 4) (hport : port ≠ 0) :
    C.parseHexAddr true lookup cap (endpointText ip port) false
      = if ip.reverse.getD 0 0 = 127 ∨ ip.reverse = [0, 0, 0, 0] then none
        else some (fitted cap (hostPort (dottedQuad ip.reverse) port.toNat)) := by
  rw [C.parseHexAddr_endpoint hport, C.hexIp_v4 h]
  by_cases hloop : ip.reverse.getD 0 0 = 127
  · rw [if_pos hloop, if_pos (Or.inl hloop)]
    rfl
  by_cases hzero : ip.reverse = [0, 0, 0, 0]
  · rw [if_neg hloop, if_pos hzero, if_pos (Or.inr hzero)]
    rfl
  · rw [if_neg hloop, if_neg hzero, if_neg (not_or.mpr ⟨hloop, hzero⟩)]
    rfl

theorem Go.printed_v6 (h : ip.length = 16) (hip : Routable ip) (hport : port ≠ 0) :
    Go.parseHexAddr true lookup (endpointText ip port) true = hostPort (ipText ip) port.toNat := by
  cases hip with
  | v4 h4 => omega
  | v6 _ hloop hlink hzero hmapped =>
      have hto4 := Go.to4_v6 h hmapped
      have hisLoop : Go.isLoopback ip = false := by
        simp only [Go.isLoopback, hto4]
        exact decide_eq_false hloop
      have hisLink : Go.isLinkLocalUnicast ip = false := by
        simp only [Go.isLinkLocalUnicast, hto4, hlink]
        exact decide_eq_false fun h => Bool.false_ne_true h.2
      have hisZero : Go.isUnspecified ip = false := by
        simp only [Go.isUnspecified, hto4]
        exact decide_eq_false (not_or.mpr ⟨nofun, hzero⟩)
      rw [Go.parseHexAddr_endpoint hport, Go.hexIP_v6 h, hisLoop, hisLink]
      simp only [Bool.or_self, Bool.false_eq_true, if_false, hisLoop, hisZero]

theorem C.printed_v6 {cap : Nat} (h : ip.length = 16) (hip : Routable ip) (hport : port ≠ 0) :
    C.parseHexAddr true lookup cap (endpointText ip port) true
      = some (fitted cap (hostPort (C.inetNtop ip) port.toNat)) := by
  cases hip with
  | v4 h4 => omega
  | v6 _ hloop hlink hzero _ =>
      have hfirst : ¬(ip = ipv6Loopback ∨ isLinkLocal ip = true) := by
        rw [hlink]
        exact not_or.mpr ⟨hloop, Bool.false_ne_true⟩
      rw [C.parseHexAddr_endpoint hport, C.hexIp_v6 h, if_neg hfirst,
        if_neg (not_or.mpr ⟨hloop, hzero⟩)]
      rfl

theorem C.length_inetNtop_le (ip : Bytes) : (C.inetNtop ip).length ≤ 42 :=
  Nettrace.C.length_ipStr_le ip ip.length

/-- The buffer `host` is large enough. -/
theorem fitted_hostPort {host : Bytes} (h : host.length ≤ 42) (port : UInt16) :
    fitted 300 (hostPort host port.toNat) = hostPort host port.toNat := by
  have hdigits : (digits 10 port.toNat).length ≤ 5 :=
    Strconv.length_digits_le (by decide) (port.toNat_lt.trans (by decide))
  refine List.take_of_length_le ?_
  rw [hostPort, List.length_append, List.length_cons]
  omega

theorem hostPort_inj {host host' : Bytes} {port : Nat}
    (h : hostPort host port = hostPort host' port) : host = host' :=
  List.append_cancel_right h

/-- Only an address that is the same from both ends is printed as it is. -/
theorem Go.printed_v4_iff (hip : Routable ip) (h : ip.length = 4) (hport : port ≠ 0) :
    Go.parseHexAddr true lookup (endpointText ip port) false = hostPort (ipText ip) port.toNat
      ↔ ip.reverse = ip := by
  have htext : ipText ip = dottedQuad ip := if_pos h
  rw [Go.printed_v4 h hport, htext]
  constructor
  · intro hprinted
    by_cases hleft : ip.reverse.getD 0 0 = 127 ∨ ip.reverse = [0, 0, 0, 0]
    · rw [if_pos hleft] at hprinted
      exact absurd hprinted.symm (List.append_ne_nil_of_right_ne_nil _ (List.cons_ne_nil _ _))
    · rw [if_neg hleft] at hprinted
      exact dottedQuad_injective (List.length_reverse) (hostPort_inj hprinted)
  · intro hsame
    cases hip with
    | v6 h6 => omega
    | v4 _ hloop hzero => rw [hsame, if_neg (not_or.mpr ⟨hloop, hzero⟩)]

theorem C.printed_v4_of_reverse (hip : Routable ip) (h : ip.length = 4) (hport : port ≠ 0)
    (hsame : ip.reverse = ip) :
    C.parseHexAddr true lookup 300 (endpointText ip port) false
      = some (hostPort (C.inetNtop ip) port.toNat) := by
  have hntop : C.inetNtop ip = dottedQuad ip := by
    rw [C.inetNtop, h]
    exact congrArg dottedQuad (List.take_of_length_le (Nat.le_of_eq h))
  have hlen := C.length_inetNtop_le ip
  cases hip with
  | v6 h6 => omega
  | v4 _ hloop hzero =>
      rw [C.printed_v4 h hport, hsame, if_neg (not_or.mpr ⟨hloop, hzero⟩), ← hntop,
        fitted_hostPort hlen]

end Printed

/-! ## Both tracers -/

/-- The net tracer reads the address from the column, and the TLS tracer prints it, both in either
port. -/
structure ReadsBack (lookupAddr lookup : Bytes → Option Bytes) (ip : Bytes) (port : UInt16) :
    Prop where
  netGo : (if ip.length = 4 then Nettrace.Go.parseHexIPv4 (addrText ip)
    else Nettrace.Go.parseHexIPv6 (addrText ip)) = some ip
  netC : (if ip.length = 4 then Nettrace.C.parseHexIpv4 (addrText ip)
    else Nettrace.C.parseHexIpv6 (addrText ip)) = some ip
  go : Go.parseHexAddr true lookupAddr (endpointText ip port) (ip.length = 16)
    = hostPort (ipText ip) port.toNat
  c : C.parseHexAddr true lookup 300 (endpointText ip port) (ip.length = 16)
    = some (hostPort (C.inetNtop ip) port.toNat)

/-- 10.0.0.1 is printed as 1.0.0.10. -/
theorem parseHexAddr_reversed :
    ¬ReadsBack (fun _ => none) (fun _ => none) [10, 0, 0, 1] 443 := by
  intro h
  have hip : Routable [10, 0, 0, 1] := .v4 rfl (by decide) (by decide)
  exact absurd ((Go.printed_v4_iff hip rfl (by decide)).mp h.go) (by decide)

/-- The text is that of the address exactly when there are words to be reversed, or nothing that
reversing would change. -/
theorem parseHexAddr_iff (lookupAddr lookup : Bytes → Option Bytes) (ip : Bytes) (port : UInt16)
    (hip : Routable ip) (hport : port ≠ 0) :
    ReadsBack lookupAddr lookup ip port ↔ ip.length = 16 ∨ ip.reverse = ip := by
  have hfamily : ip.length = 4 ∨ ip.length = 16 := by
    cases hip with
    | v4 h => exact Or.inl h
    | v6 h => exact Or.inr h
  rcases hfamily with h | h
  · have hsix : decide (ip.length = 16) = false := by
      rw [h]
      rfl
    have hnet := @Nettrace.Go.parseHexIPv4_addrText ip h
    have hnetC := @Nettrace.C.parseHexIpv4_addrText ip h
    constructor
    · intro hread
      have hgo := hread.go
      rw [hsix, Go.printed_v4_iff hip h hport] at hgo
      exact Or.inr hgo
    · intro hcond
      have hsame : ip.reverse = ip := hcond.resolve_left (by omega)
      refine ⟨by rw [if_pos h, hnet], by rw [if_pos h, hnetC], ?_, ?_⟩
      · rw [hsix, Go.printed_v4_iff hip h hport, hsame]
      · rw [hsix, C.printed_v4_of_reverse hip h hport hsame]
  · have hsix : decide (ip.length = 16) = true := decide_eq_true h
    have hnet := @Nettrace.Go.parseHexIPv6_addrText ip h
    have hnetC := @Nettrace.C.parseHexIpv6_addrText ip h
    have hfour : ¬ip.length = 4 := by omega
    refine iff_of_true ⟨by rw [if_neg hfour, hnet], by rw [if_neg hfour, hnetC], ?_, ?_⟩ (Or.inl h)
    · rw [hsix, Go.printed_v6 h hip hport]
    · rw [hsix, C.printed_v6 h hip hport, fitted_hostPort (C.length_inetNtop_le ip)]

/-- An address that is the same from both ends. -/
def sampleV4 : Bytes := [8, 1, 1, 8]

def sampleV6 : Bytes := [32, 1, 13, 184, 0, 0, 0, 0, 0, 0, 0, 0, 0, 0, 0, 1]

theorem parseHexAddr_iff_samples :
    (ReadsBack (fun _ => none) (fun _ => none) sampleV4 53
        ↔ sampleV4.length = 16 ∨ sampleV4.reverse = sampleV4)
      ∧ (ReadsBack (fun _ => none) (fun _ => none) sampleV6 443
        ↔ sampleV6.length = 16 ∨ sampleV6.reverse = sampleV6) :=
  ⟨parseHexAddr_iff _ _ sampleV4 53 (.v4 rfl (by decide) (by decide)) (by decide),
    parseHexAddr_iff _ _ sampleV6 443 (.v6 rfl (by decide) (by decide) (by decide) (by decide))
      (by decide)⟩

end Tracep.Tlstrace
