import Tracep.Dns.Safety

/-!
# Messages inside frames

A frame as a link delivers it: Ethernet, IPv4 with any options or IPv6, a
UDP header with the DNS port on one side, the message, and whatever bytes
follow. `parse_packet` finds the ports and the message with these bytes
still behind it (`datagram_frame`); since a whole message stays whole, with
the same values, it returns what `parse_dns` returns on the message alone
(`parsePacket_frame`).
-/

namespace Tracep.Dns

open Exec

/-- An IPv4 header of `words` 32-bit words, a UDP packet's. -/
structure Ipv4Header where
  words : Fin 16
  front : {b : Bytes // b.length = 8}
  back : {b : Bytes // b.length = 10}
  options : Bytes
  words_ge : 5 ≤ words.1
  options_length : options.length = words.1 * 4 - 20

/-- An IPv6 header, a UDP packet's; `tc` starts the traffic class. -/
structure Ipv6Header where
  tc : Fin 16
  front : {b : Bytes // b.length = 5}
  back : {b : Bytes // b.length = 33}

inductive IpHeader where
  | v4 (h : Ipv4Header)
  | v6 (h : Ipv6Header)

namespace IpHeader

def ethertype : IpHeader → UInt16
  | .v4 _ => 0x0800
  | .v6 _ => 0x86DD

def encode : IpHeader → Bytes
  | .v4 h => [UInt8.ofNat (64 + h.words.1)] ++ h.front.1 ++ [17] ++ (h.back.1 ++ h.options)
  | .v6 h => [UInt8.ofNat (96 + h.tc.1)] ++ h.front.1 ++ [17] ++ h.back.1

theorem encode_length_v4 (h : Ipv4Header) : (encode (.v4 h)).length = h.words.1 * 4 := by
  have h1 := h.front.2
  have h2 := h.back.2
  have h3 := h.options_length
  have h4 := h.words_ge
  simp only [encode, List.length_append, List.length_singleton]
  omega

theorem encode_length_v6 (h : Ipv6Header) : (encode (.v6 h)).length = 40 := by
  have h1 := h.front.2
  have h2 := h.back.2
  simp only [encode, List.length_append, List.length_singleton]
  omega

end IpHeader

/-- What carries a DNS message: everything of a frame before the message. -/
structure Carrier where
  macs : {b : Bytes // b.length = 12}
  ip : IpHeader
  src : UInt16
  dst : UInt16
  lengthAndChecksum : {b : Bytes // b.length = 4}
  dns : src = 53 ∨ dst = 53

namespace Carrier

def udp (c : Carrier) : Bytes :=
  be16Bytes c.src ++ be16Bytes c.dst ++ c.lengthAndChecksum.1

/-- The frame that carries `payload`. -/
def frame (c : Carrier) (payload : Bytes) : Bytes :=
  c.macs.1 ++ (be16Bytes c.ip.ethertype ++ (c.ip.encode ++ (c.udp ++ payload)))

theorem udp_length (c : Carrier) : c.udp.length = 8 := by
  simp only [udp, List.length_append, be16Bytes_length, c.lengthAndChecksum.2]

/-- Where the layers of a frame lie. -/
theorem at_layers (c : Carrier) (payload : Bytes) :
    At (c.frame payload) 12 (be16Bytes c.ip.ethertype)
      ∧ At (c.frame payload) 14 c.ip.encode
      ∧ At (c.frame payload) (14 + c.ip.encode.length) c.udp
      ∧ (c.frame payload).drop (14 + c.ip.encode.length + 8) = payload := by
  have h : At (c.frame payload) 0 (c.frame payload) := ⟨by simp, by simp⟩
  obtain ⟨-, hrest⟩ := At.append_iff.mp h
  obtain ⟨htype, hrest⟩ := At.append_iff.mp hrest
  obtain ⟨hip, hrest⟩ := At.append_iff.mp hrest
  obtain ⟨hudp, hpayload⟩ := At.append_iff.mp hrest
  rw [c.macs.2, Nat.zero_add] at htype hip hudp hpayload
  rw [be16Bytes_length] at hip hudp hpayload
  rw [c.udp_length] at hpayload
  refine ⟨htype, hip, hudp, hpayload.drop_eq ?_⟩
  simp only [frame, List.length_append, c.macs.2, be16Bytes_length, c.udp_length]
  omega

theorem first_byte_v4 : ∀ w : Fin 16,
    UInt8.ofNat (64 + w.1) >>> 4 = 4 ∧ (UInt8.ofNat (64 + w.1) &&& 0x0F).toNat = w.1 := by
  decide

theorem first_byte_v6 : ∀ w : Fin 16, UInt8.ofNat (96 + w.1) >>> 4 = 6 := by
  decide

/-- The UDP header is found after the IP header. -/
theorem udpAt_frame (c : Carrier) (payload : Bytes) :
    udpAt (c.frame payload) = some (14 + c.ip.encode.length) := by
  obtain ⟨htype, hip, hudp, -⟩ := c.at_layers payload
  have htype := htype.word
  have hle := hudp.le
  rw [c.udp_length] at hle
  generalize c.frame payload = pkt at *
  cases hc : c.ip with
  | v4 h =>
      rw [hc] at htype hip hle
      have hw := h.words_ge
      have hlen := IpHeader.encode_length_v4 h
      obtain ⟨hfront, -⟩ := At.append_iff.mp hip
      obtain ⟨hfirst, hproto⟩ := At.append_iff.mp hfront
      have h14 := (At.append_iff.mp hfirst).1.getD (i := 0) (by simp)
      have h23 := hproto.getD (i := 0) (by simp)
      rw [List.length_append, List.length_singleton, h.front.2] at h23
      simp only [List.getD_cons_zero, Nat.add_zero] at h14 h23
      obtain ⟨hversion, hihl⟩ := first_byte_v4 h.words
      have hlength : ipv4HeaderLength pkt = h.words.1 * 4 := by
        rw [ipv4HeaderLength, h14, hihl]
      rw [udpAt, htype, h14, h23, hlength, hlen]
      rw [hlen] at hle
      simp only [IpHeader.ethertype, hversion, ne_eq, not_true_eq_false, ↓reduceIte]
      rw [if_neg (by omega), if_neg (by omega), if_neg (by omega)]
  | v6 h =>
      rw [hc] at htype hip hle
      have hlen := IpHeader.encode_length_v6 h
      obtain ⟨hfront, -⟩ := At.append_iff.mp hip
      obtain ⟨hfirst, hproto⟩ := At.append_iff.mp hfront
      have h14 := (At.append_iff.mp hfirst).1.getD (i := 0) (by simp)
      have h20 := hproto.getD (i := 0) (by simp)
      rw [List.length_append, List.length_singleton, h.front.2] at h20
      simp only [List.getD_cons_zero, Nat.add_zero] at h14 h20
      have hversion := first_byte_v6 h.tc
      have hne : (0x86DD : UInt16) ≠ 0x0800 := by decide
      rw [udpAt, htype, h14, h20, hlen]
      rw [hlen] at hle
      simp only [IpHeader.ethertype, hversion, hne, ne_eq, not_true_eq_false, ↓reduceIte]
      rw [if_neg (by omega), if_neg (by omega), if_neg (by omega)]

theorem datagram_frame (c : Carrier) (payload : Bytes) :
    datagram (c.frame payload) = some ⟨c.src, c.dst, payload⟩ := by
  obtain ⟨-, -, hudp, hpayload⟩ := c.at_layers payload
  obtain ⟨hports, -⟩ := At.append_iff.mp hudp
  obtain ⟨hsrc, hdst⟩ := At.append_iff.mp hports
  have hsrc := hsrc.word
  have hdst := hdst.word
  rw [be16Bytes_length] at hdst
  have hdns : ¬(c.src ≠ 53 ∧ c.dst ≠ 53) := by
    have := c.dns
    tauto
  rw [datagram, c.udpAt_frame payload]
  simp only [hsrc, hdst, hpayload]
  rw [if_neg hdns]

end Carrier

namespace C

theorem readsAs_of_hasValues {R : Rendering} {d : Bytes} {r : Record} {vs : List Bytes}
    (h : HasValues R d r vs) : ReadsAs R d (nameAt r) r vs := by
  cases hp : r.nameOff with
  | none =>
      rw [nameAt, hp]
      exact (hasValues_plain hp).mp h
  | some p =>
      rw [nameAt, hp]
      exact ⟨p, rfl, .inl ((hasValues_name hp).mp h)⟩

/-- What `parse_dns` returns on a whole message with the values `vs`. -/
theorem parseDns_whole (ntop : InetNtop) (stack : Stack) {d : Bytes}
    {qs : List (List Bytes × UInt16)} {rs : List Record} {vs : List Bytes} (h : Whole d qs rs)
    (hvs : AllValues (rendering ntop) d rs vs) :
    (parseDns ntop stack d).Returns
      (some (((questionLoop stack.name d).asked (DnsMsg.start d) qs).addAll vs)) :=
  (messageParser ntop stack d).returns_of_whole h
    (Yields.imp (fun _ _ _ => readsAs_of_hasValues) hvs)

/-- The message read does not depend on what the stack holds, nor on bytes behind it. -/
theorem asked_append (stack stack' : Stack) {d : Bytes} (hlen : 12 ≤ d.length) (x : Bytes)
    (qs : List (List Bytes × UInt16)) :
    (questionLoop stack.name (d ++ x)).asked (DnsMsg.start (d ++ x)) qs
      = (questionLoop stack'.name d).asked (DnsMsg.start d) qs := by
  have hstart : DnsMsg.start (d ++ x) = DnsMsg.start d := by
    rw [DnsMsg.start, DnsMsg.start, DnsMsg.mk.injEq, word_append (by omega),
      word_append (by omega)]
    exact ⟨rfl, rfl, rfl, rfl, rfl⟩
  rw [hstart]
  cases qs <;> rfl

/-- A frame that carries a whole message, and anything after it, is accepted with its
ports and exactly what `parse_dns` returns on the message alone. -/
theorem parsePacket_frame (ntop : InetNtop) (stack stack' : Stack) (c : Carrier) {d : Bytes}
    {qs : List (List Bytes × UInt16)} {rs : List Record} (h : Whole d qs rs) (pad : Bytes) :
    ∃ m, (parseDns ntop stack d).Returns (some m)
      ∧ (parsePacket ntop stack' (c.frame (d ++ pad))).Returns (some (m, c.src, c.dst)) := by
  obtain ⟨mid, stop, -, hrs⟩ := h.layout
  obtain ⟨vs, hvs⟩ := AllValues.exists (rendering ntop) h.names
  refine ⟨_, parseDns_whole ntop stack h hvs, ?_⟩
  have hpadded := parseDns_whole ntop stack' (h.append pad) (hvs.append hrs.stop_le pad)
  rw [asked_append stack' stack h.header] at hpadded
  rw [parsePacket_eq, c.datagram_frame, hpadded.bind_iff]
  exact returns_pure.mpr rfl

/-- A query for the address of `a`. -/
def queryMessage : Bytes := [0, 7, 1, 0, 0, 1, 0, 0, 0, 0, 0, 0, 1, 97, 0, 0, 1, 0, 1]

theorem whole_queryMessage : Whole queryMessage [([[97]], 1)] [] where
  header := by decide
  qdcount := by decide
  ancount := by decide
  layout := by
    have hlabel : itemAt queryMessage 12 = .label [97] := by decide
    have hroot : itemAt queryMessage 14 = .root := by decide
    have hquestion : QuestionAt queryMessage 12 ([[97]], 1) 19 :=
      ⟨15, .label hlabel (.root hroot), .label hlabel (.root hroot), by decide, rfl, by decide⟩
    exact ⟨19, 19, .cons hquestion .nil, .nil⟩
  names := by simp

/-- An IPv4 carrier with one word of options. -/
def queryCarrier : Carrier where
  macs := ⟨List.replicate 12 0, rfl⟩
  ip := .v4 {
    words := 6, front := ⟨List.replicate 8 0, rfl⟩, back := ⟨List.replicate 10 0, rfl⟩,
    options := [7, 4, 0, 0], words_ge := by decide, options_length := rfl }
  src := 40000
  dst := 53
  lengthAndChecksum := ⟨[0, 27, 0, 0], rfl⟩
  dns := .inr rfl

theorem parsePacket_frame_query :
    Whole queryMessage [([[97]], 1)] []
      ∧ ∃ m, (parseDns .standard .zeroed queryMessage).Returns (some m)
        ∧ (parsePacket .standard .zeroed (queryCarrier.frame (queryMessage ++ [0, 0, 0]))).Returns
          (some (m, 40000, 53)) :=
  ⟨whole_queryMessage,
    parsePacket_frame .standard .zeroed .zeroed queryCarrier whole_queryMessage [0, 0, 0]⟩

end C

end Tracep.Dns
