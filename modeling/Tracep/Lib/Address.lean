import Tracep.Lib.Bytes

/-!
# The text of IP addresses

Dotted decimal for four bytes and, for sixteen, eight groups of lower-case
hexadecimal with the first longest run of two or more zero groups elided;
IPv4-mapped addresses are shown dotted. This is the text `net.IP.String`
documents.
-/

namespace Tracep

/-- The digits of `n` in base `b`, as text. -/
def digits (b n : Nat) : Bytes := (Nat.toDigits b n).map fun c => UInt8.ofNat c.toNat

def dottedQuad (ip : Bytes) : Bytes := join [46] (ip.map fun b => digits 10 b.toNat)

/-- The 16-bit groups of an IPv6 address. -/
def groups : Bytes → List UInt16
  | hi :: lo :: rest => be16 hi lo :: groups rest
  | _ => []

/-- The number of zero groups from group `i` on. -/
def zeroRun (g : List UInt16) (i : Nat) : Nat := ((g.drop i).takeWhile (· = 0)).length

/-- Start and length of the first longest run of at least two zero groups. -/
def longestZeroRun (g : List UInt16) : Nat × Nat :=
  (List.range g.length).foldl
    (fun best i => if 2 ≤ zeroRun g i ∧ best.2 < zeroRun g i then (i, zeroRun g i) else best)
    (g.length, 0)

def hexGroups (g : List UInt16) : Bytes := join [58] (g.map fun v => digits 16 v.toNat)

def ipv6Text (g : List UInt16) : Bytes :=
  match longestZeroRun g with
  | (_, 0) => hexGroups g
  | (start, len) => hexGroups (g.take start) ++ [58, 58] ++ hexGroups (g.drop (start + len))

/-- The text of a 4- or 16-byte address. -/
def ipText (ip : Bytes) : Bytes :=
  if ip.length = 4 then dottedQuad ip
  else if ip.take 12 = [0, 0, 0, 0, 0, 0, 0, 0, 0, 0, 255, 255] then dottedQuad (ip.drop 12)
  else ipv6Text (groups ip)

end Tracep
