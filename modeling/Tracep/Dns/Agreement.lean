import Tracep.Dns.Safety

/-!
# The two ports agree

Both ports find the same questions, so where both return, they accept the
same frames and show the same ports, id, flags and first question, up to
the size of the C question buffer. About answers they may differ, and they
do: the ports look for names inside RDATA at different offsets.
-/

namespace Tracep.Dns

open Exec

/-- A C and a Go message with the same header and first question. -/
structure SameQuery (m : C.DnsMsg) (msg : Go.DnsMsg) : Prop where
  id : m.id = msg.id
  flags : m.flags = msg.flags
  qtype : m.qtype = msg.qtype
  question : m.question = cstr (msg.question.take 255)

/-- Both results refuse, or both accept with the same ports and query. -/
def Agree : Option (C.DnsMsg × UInt16 × UInt16) → Option (Go.DnsMsg × UInt16 × UInt16) → Prop
  | none, none => True
  | some (m, src, dst), some (msg, srcPort, dstPort) =>
      src = srcPort ∧ dst = dstPort ∧ SameQuery m msg
  | _, _ => False

theorem sameQuery_asked (ntop : C.InetNtop) (stack : C.Stack) (d : Bytes)
    (qs : List (List Bytes × UInt16)) (vs ws : List Bytes) :
    SameQuery
      ((C.messageParser ntop stack d).answers.addAll
        ((C.messageParser ntop stack d).questions.asked (C.DnsMsg.start d) qs) vs)
      ((Go.messageParser d).answers.addAll
        ((Go.messageParser d).questions.asked ⟨word d 0, word d 2, [], 0, []⟩ qs) ws) := by
  obtain ⟨hid, hflags, hqtype, hquestion⟩ := C.addAll_header vs
    ((C.messageParser ntop stack d).questions.asked (C.DnsMsg.start d) qs)
  cases qs with
  | nil => exact ⟨hid, hflags, hqtype, hquestion⟩
  | cons q qs => exact ⟨hid, hflags, hqtype, hquestion⟩

theorem messages_agree {ntop : C.InetNtop} {stack : C.Stack} {d : Bytes}
    {rc : Option C.DnsMsg} {rg : Option Go.DnsMsg}
    (hc : (C.parseDns ntop stack d).Returns rc) (hg : (Go.parseDNS d).Returns rg) :
    (rc = none ∧ rg = none) ∨ ∃ m msg, rc = some m ∧ rg = some msg ∧ SameQuery m msg := by
  let P := C.messageParser ntop stack d
  let Q := Go.messageParser d
  cases rc with
  | none =>
      cases rg with
      | none => exact Or.inl ⟨rfl, rfl⟩
      | some msg =>
          obtain ⟨qs, mid, vs, hlen, hq, hn, -⟩ := Q.asked_of_returns hg
          exact absurd hc (P.returns_none hlen hq hn)
  | some m =>
      obtain ⟨qs, mid, vs, hlen, hq, hn, hm⟩ := P.asked_of_returns hc
      cases rg with
      | none => exact absurd hg (Q.returns_none hlen hq hn)
      | some msg =>
          obtain ⟨qs', mid', ws, -, hq', hn', hmsg⟩ := Q.asked_of_returns hg
          obtain ⟨rfl, rfl⟩ := hq.unique hq' (hn.trans hn'.symm)
          refine Or.inr ⟨m, msg, rfl, rfl, ?_⟩
          rw [hm, hmsg]
          exact sameQuery_asked ntop stack d qs vs ws

/-- Where both packet parsers return, they agree. -/
theorem packets_agree {ntop : C.InetNtop} {stack : C.Stack} {pkt : Bytes}
    {rc : Option (C.DnsMsg × UInt16 × UInt16)} {rg : Option (Go.DnsMsg × UInt16 × UInt16)}
    (hc : (C.parsePacket ntop stack pkt).Returns rc)
    (hg : (Go.parseDNSFromPacket pkt).Returns rg) : Agree rc rg := by
  rw [C.parsePacket_eq] at hc
  rw [Go.parseDNSFromPacket_eq] at hg
  cases hd : datagram pkt with
  | none =>
      rw [hd] at hc hg
      rw [returns_pure.mp hc, returns_pure.mp hg]
      trivial
  | some g =>
      rw [hd] at hc hg
      obtain ⟨mc, hmc, hrc⟩ := returns_bind.mp hc
      obtain ⟨mg, hmg, hrg⟩ := returns_bind.mp hg
      rw [returns_pure.mp hrc, returns_pure.mp hrg]
      rcases messages_agree hmc hmg with ⟨rfl, rfl⟩ | ⟨m, msg, rfl, rfl, hsame⟩
      · trivial
      · exact ⟨rfl, rfl, hsame⟩

/-- An IPv4 frame with a query for the address of `a`, from port 40000. -/
def queryFrame : Bytes :=
  List.replicate 12 0 ++ [8, 0]
    ++ [0x45, 0, 0, 0, 0, 0, 0, 0, 64, 17, 0, 0, 10, 0, 0, 1, 10, 0, 0, 2]
    ++ [156, 64, 0, 53, 0, 27, 0, 0]
    ++ [0, 7, 1, 0, 0, 1, 0, 0, 0, 0, 0, 0, 1, 97, 0, 0, 1, 0, 1]

theorem packets_agree_on_queryFrame :
    (C.parsePacket .standard .zeroed queryFrame).Returns
        (some (⟨7, 0x100, 1, [97], [], by decide⟩, 40000, 53))
      ∧ (Go.parseDNSFromPacket queryFrame).Returns
        (some (⟨7, 0x100, [97], 1, []⟩, 40000, 53))
      ∧ Agree (some (⟨7, 0x100, 1, [97], [], by decide⟩, 40000, 53))
        (some (⟨7, 0x100, [97], 1, []⟩, 40000, 53)) :=
  have hc : (C.parsePacket .standard .zeroed queryFrame).Returns
      (some (⟨7, 0x100, 1, [97], [], by decide⟩, 40000, 53)) := ⟨4, by decide +kernel⟩
  have hg : (Go.parseDNSFromPacket queryFrame).Returns
      (some (⟨7, 0x100, [97], 1, []⟩, 40000, 53)) := ⟨4, by decide +kernel⟩
  ⟨hc, hg, packets_agree hc hg⟩

end Tracep.Dns
