import Tracep.Dns.Parse

/-!
# Frames

What a captured Ethernet frame carries, independently of either port: the
UDP header of an IPv4 packet with any options or of an IPv6 packet
(`udpAt`), its ports and its payload (`datagram`). Both packet parsers are
this followed by their message parser (`Go.parseDNSFromPacket_eq`,
`C.parsePacket_eq`); in particular neither reads outside the frame before
it hands the payload on.
-/

namespace Tracep.Dns

open Exec

/-- The header length an IPv4 packet inside a frame declares. -/
def ipv4HeaderLength (pkt : Bytes) : Nat := (pkt.getD 14 0 &&& 0x0F).toNat * 4

/-- The offset of the UDP header of a frame that has one, complete. -/
def udpAt (pkt : Bytes) : Option Nat :=
  if pkt.length < 14 then none
  else if word pkt 12 = 0x0800 then
    if pkt.length < 34 then none
    else if pkt.getD 14 0 >>> 4 ≠ 4 then none
    else if pkt.getD 23 0 ≠ 17 then none
    else if ipv4HeaderLength pkt < 20 ∨ pkt.length < 14 + ipv4HeaderLength pkt + 8 then none
    else some (14 + ipv4HeaderLength pkt)
  else if word pkt 12 = 0x86DD then
    if pkt.length < 54 then none
    else if pkt.getD 14 0 >>> 4 ≠ 6 then none
    else if pkt.getD 20 0 ≠ 17 then none
    else if pkt.length < 62 then none
    else some 54
  else none

structure Datagram where
  src : UInt16
  dst : UInt16
  payload : Bytes
deriving Repr, DecidableEq

/-- The datagram of a frame, if one of its ports is the DNS port. -/
def datagram (pkt : Bytes) : Option Datagram :=
  match udpAt pkt with
  | none => none
  | some o =>
      if word pkt o ≠ 53 ∧ word pkt (o + 2) ≠ 53 then none
      else some ⟨word pkt o, word pkt (o + 2), pkt.drop (o + 8)⟩

theorem udpAt_le {pkt : Bytes} {o : Nat} (h : udpAt pkt = some o) : o + 8 ≤ pkt.length := by
  unfold udpAt at h
  split at h
  · cases h
  · split at h
    · split at h
      · cases h
      · split at h
        · cases h
        · split at h
          · cases h
          · split at h
            · cases h
            · obtain rfl := Option.some.inj h
              omega
    · split at h
      · split at h
        · cases h
        · split at h
          · cases h
          · split at h
            · cases h
            · split at h
              · cases h
              · obtain rfl := Option.some.inj h
                omega
      · cases h

namespace Go

/-- A UDP header at offset `o` and its payload. -/
theorem parseUDP_eq {pkt : Bytes} {o : Nat} (h : o + 8 ≤ pkt.length) :
    parseUDP (pkt.drop o)
      = if word pkt o ≠ 53 ∧ word pkt (o + 2) ≠ 53 then pure none
        else parseDNS (pkt.drop (o + 8)) >>= fun r =>
          pure (r.map fun m => (m, word pkt o, word pkt (o + 2))) := by
  have hlen : (pkt.drop o).length = pkt.length - o := List.length_drop
  have hpayload := slice_drop (d := pkt.drop o) (n := 8) (by omega)
  simp only [Nat.cast_ofNat, List.drop_drop] at hpayload
  rw [parseUDP, if_neg (by omega), uint16_slice (i := 0) (j := 2) 0 rfl rfl (by omega),
    uint16_slice (i := 2) (j := 4) 2 rfl rfl (by omega), hpayload, word_drop, word_drop]
  simp only [Nat.add_zero, pure_bind]
  split
  · rfl
  · congr 1
    funext r
    cases r <;> rfl

theorem parseUDP_short {pkt : Bytes} {o : Nat} (h : ¬o + 8 ≤ pkt.length) :
    parseUDP (pkt.drop o) = pure none := by
  rw [parseUDP, if_pos (by rw [List.length_drop]; omega)]

/-- The packet parser is the datagram of the frame handed to the message parser. -/
theorem parseDNSFromPacket_eq (pkt : Bytes) :
    parseDNSFromPacket pkt
      = match datagram pkt with
        | none => pure none
        | some g => parseDNS g.payload >>= fun r => pure (r.map fun m => (m, g.src, g.dst)) := by
  unfold datagram udpAt
  rw [parseDNSFromPacket]
  by_cases h14 : pkt.length < 14
  · rw [if_pos h14, if_pos h14]
  have hip := slice_drop (d := pkt) (n := 14) (by omega)
  have hlen : (pkt.drop 14).length = pkt.length - 14 := List.length_drop
  simp only [Nat.cast_ofNat] at hip
  rw [if_neg h14, if_neg h14, uint16_slice (i := 12) (j := 14) 12 rfl rfl (by omega), hip]
  simp only [pure_bind]
  by_cases h4 : word pkt 12 = 0x0800
  · rw [if_pos h4, if_pos h4, parseDNSv4]
    by_cases h34 : pkt.length < 34
    · rw [if_pos (by omega), if_pos h34]
    have hb0 := index_getD (d := pkt.drop 14) (n := 0) (by omega)
    have hb9 := index_getD (d := pkt.drop 14) (n := 9) (by omega)
    simp only [Nat.cast_zero, Nat.cast_ofNat, getD_drop, Nat.add_zero] at hb0 hb9
    rw [if_neg (by omega), if_neg h34, hb0, pure_bind]
    by_cases hv : pkt.getD 14 0 >>> 4 ≠ 4
    · rw [if_pos hv, if_pos hv]
    rw [if_neg hv, if_neg hv, hb9, pure_bind]
    by_cases hp : pkt.getD 23 0 ≠ 17
    · rw [if_pos hp, if_pos hp]
    rw [if_neg hp, if_neg hp]
    have hihl : (pkt.getD 14 0 &&& 0x0F).toNat * 4 = ipv4HeaderLength pkt := rfl
    simp only [hihl]
    by_cases hi : ipv4HeaderLength pkt < 20 ∨ pkt.length < 14 + ipv4HeaderLength pkt + 8
    · rw [if_pos (by omega), if_pos hi]
    have hudp := slice_drop (d := pkt.drop 14) (n := ipv4HeaderLength pkt) (by omega)
    rw [if_neg (by omega), if_neg hi, hudp, pure_bind, List.drop_drop,
      parseUDP_eq (by omega)]
    simp only
    split <;> rfl
  · rw [if_neg h4, if_neg h4]
    by_cases h6 : word pkt 12 = 0x86DD
    · rw [if_pos h6, if_pos h6, parseDNSv6]
      by_cases h54 : pkt.length < 54
      · rw [if_pos (by omega), if_pos h54]
      have hb0 := index_getD (d := pkt.drop 14) (n := 0) (by omega)
      have hb6 := index_getD (d := pkt.drop 14) (n := 6) (by omega)
      have hudp := slice_drop (d := pkt.drop 14) (n := 40) (by omega)
      simp only [Nat.cast_zero, Nat.cast_ofNat, getD_drop, Nat.add_zero, List.drop_drop]
        at hb0 hb6 hudp
      rw [if_neg (by omega), if_neg h54, hb0, pure_bind]
      by_cases hv : pkt.getD 14 0 >>> 4 ≠ 6
      · rw [if_pos hv, if_pos hv]
      rw [if_neg hv, if_neg hv, hb6, pure_bind]
      by_cases hp : pkt.getD 20 0 ≠ 17
      · rw [if_pos hp, if_pos hp]
      rw [if_neg hp, if_neg hp, hudp, pure_bind]
      by_cases h62 : pkt.length < 62
      · rw [if_pos h62, parseUDP_short (by omega)]
      rw [if_neg h62, parseUDP_eq (by omega)]
      simp only
      split <;> rfl
    · rw [if_neg h6, if_neg h6]

end Go

namespace C

variable (ntop : InetNtop) (stack : Stack)

/-- The IP layers find the UDP header, or less than the eight bytes of one. -/
theorem ipPayload_eq (pkt : Bytes) :
    ∃ r, ipPayload pkt = pure r ∧
      match udpAt pkt with
      | some o => r = some ((o : Int), (pkt.length : Int) - o)
      | none => ∀ ip iplen, r = some (ip, iplen) → iplen < 8 := by
  unfold udpAt
  rw [ipPayload]
  by_cases h14 : pkt.length < 14
  · rw [if_pos h14, if_pos h14]
    exact ⟨none, rfl, by simp⟩
  have heth := be16At_eq (d := pkt) (p := 12) (by omega)
  simp only [Nat.cast_ofNat] at heth
  rw [if_neg h14, if_neg h14, heth]
  simp only [pure_bind]
  by_cases h4 : word pkt 12 = 0x0800
  · rw [if_pos h4, if_pos h4]
    by_cases h34 : pkt.length < 34
    · rw [if_pos (by omega), if_pos h34]
      exact ⟨none, rfl, by simp⟩
    have hb0 := index_getD (d := pkt) (n := 14) (by omega)
    have hb9 := index_getD (d := pkt) (n := 23) (by omega)
    simp only [Nat.cast_ofNat] at hb0 hb9
    rw [if_neg (by omega), if_neg h34, hb0, pure_bind]
    by_cases hv : pkt.getD 14 0 >>> 4 ≠ 4
    · rw [if_pos hv, if_pos hv]
      exact ⟨none, rfl, by simp⟩
    rw [if_neg hv, if_neg hv, show (14 : Int) + 9 = 23 by rfl, hb9, pure_bind]
    by_cases hp : pkt.getD 23 0 ≠ 17
    · rw [if_pos hp, if_pos hp]
      exact ⟨none, rfl, by simp⟩
    rw [if_neg hp, if_neg hp, pure_bind]
    have hihl : ((pkt.getD 14 0 &&& 0x0F).toNat : Int) * 4 = ipv4HeaderLength pkt := by
      rw [ipv4HeaderLength, Nat.cast_mul]
      rfl
    rw [hihl]
    by_cases hi : ipv4HeaderLength pkt < 20 ∨ pkt.length < 14 + ipv4HeaderLength pkt + 8
    · rw [if_pos (by omega), if_pos hi]
      exact ⟨none, rfl, by simp⟩
    rw [if_neg (by omega), if_neg hi]
    exact ⟨_, rfl, by simp only [Option.some.injEq, Prod.mk.injEq]; omega⟩
  · rw [if_neg h4, if_neg h4]
    by_cases h6 : word pkt 12 = 0x86DD
    · rw [if_pos h6, if_pos h6]
      by_cases h54 : pkt.length < 54
      · rw [if_pos (by omega), if_pos h54]
        exact ⟨none, rfl, by simp⟩
      have hb0 := index_getD (d := pkt) (n := 14) (by omega)
      have hb6 := index_getD (d := pkt) (n := 20) (by omega)
      simp only [Nat.cast_ofNat] at hb0 hb6
      rw [if_neg (by omega), if_neg h54, hb0, pure_bind]
      by_cases hv : pkt.getD 14 0 >>> 4 ≠ 6
      · rw [if_pos hv, if_pos hv]
        exact ⟨none, rfl, by simp⟩
      rw [if_neg hv, if_neg hv, show (14 : Int) + 6 = 20 by rfl, hb6, pure_bind]
      by_cases hp : pkt.getD 20 0 ≠ 17
      · rw [if_pos hp, if_pos hp]
        exact ⟨none, rfl, by simp⟩
      rw [if_neg hp, if_neg hp]
      refine ⟨_, rfl, ?_⟩
      by_cases h62 : pkt.length < 62
      · rw [if_pos h62]
        simp only [Option.some.injEq, Prod.mk.injEq, and_imp]
        omega
      · rw [if_neg h62]
        simp only [Option.some.injEq, Prod.mk.injEq]
        omega
    · rw [if_neg h6, if_neg h6]
      exact ⟨none, rfl, by simp⟩

/-- The packet parser is the datagram of the frame handed to the message parser. -/
theorem parsePacket_eq (pkt : Bytes) :
    parsePacket ntop stack pkt
      = match datagram pkt with
        | none => pure none
        | some g => parseDns ntop stack g.payload >>= fun r =>
            pure (r.map fun m => (m, g.src, g.dst)) := by
  obtain ⟨r, hr, hudp⟩ := ipPayload_eq pkt
  rw [parsePacket, hr, pure_bind, datagram]
  cases ho : udpAt pkt with
  | none =>
      rw [ho] at hudp
      cases r with
      | none => rfl
      | some x =>
          simp only
          rw [if_pos (hudp _ _ rfl)]
  | some o =>
      have hle := udpAt_le ho
      rw [ho] at hudp
      obtain rfl := hudp
      have hdst := be16At_eq (d := pkt) (p := o + 2) (by omega)
      push_cast at hdst
      have hslice := slice_eq (d := pkt) (i := (o : Int) + 8)
        (j := (o : Int) + 8 + ((pkt.length : Int) - o - 8)) (o + 8) (pkt.length - o - 8)
        (by push_cast; rfl) (by omega) (by omega)
      rw [List.take_of_length_le (by rw [List.length_drop]; omega)] at hslice
      simp only
      rw [if_neg (by omega), be16At_eq (by omega), pure_bind, hdst, pure_bind, hslice,
        pure_bind]
      split
      · rfl
      · simp only
        congr 1
        funext r
        cases r <;> rfl

end C

end Tracep.Dns
