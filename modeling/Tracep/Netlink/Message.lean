import Tracep.Lib.Framing
import Tracep.Lib.Bytes

/-!
# Netlink messages

A netlink socket delivers messages back to back, each a 16-byte `nlmsghdr`
whose first word is the length of the whole message, padded to a multiple of
four. The receivers differ in what they make of a buffer that is not laid
out so, and the definitions here are what they are compared in: the header
fields, `Present` (there is a header and it claims no more than is there),
the `messages` of a buffer as a `Framing`, and the `Walk` over them.

`parseNetlinkMessage` is the receiver of the Go ports. It takes a buffer
only as a whole: it yields the messages when the buffer `Splits` into them,
with every alignment inside (`parseNetlinkMessage_of_splits`), and otherwise
fails (`parseNetlinkMessage_of_not_splits`).

What a sender writes (`Packet`) is read back message by message, padding
and all (`Packet.next_bytes`).
-/

namespace Tracep.Netlink

open Relation

/-! ## Headers -/

/-- `NLMSG_ALIGN`. -/
def nlmsgAlign (len : UInt32) : UInt32 := (len + 3) &&& ~~~3

theorem nlmsgAlign_toNat {len : UInt32} (h : len.toNat + 3 < 2 ^ 32) :
    (nlmsgAlign len).toNat = align4 len.toNat := by
  rw [nlmsgAlign, and_not_three, UInt32.toNat_add, show UInt32.toNat 3 = 3 from rfl,
    Nat.mod_eq_of_lt h]
  rfl

/-- `nlmsg_len`. -/
def lenOf (b : Bytes) : Nat := (leWord32 b 0).toNat

/-- A message as a receiver sees it. -/
structure Message where
  type : UInt16
  flags : UInt16
  data : Bytes
deriving Repr, DecidableEq

/-- The message at the front of the buffer. -/
def messageAt (b : Bytes) : Message :=
  ⟨leWord16 b 4, leWord16 b 6, (b.drop 16).take (lenOf b - 16)⟩

/-- There is a header, and the message it tells of lies inside the buffer. -/
def Present (b : Bytes) : Prop := 16 ≤ lenOf b ∧ lenOf b ≤ b.length

instance (b : Bytes) : Decidable (Present b) := inferInstanceAs (Decidable (_ ∧ _))

/-- What follows the first message and its padding. -/
def afterMessage (b : Bytes) : Bytes := b.drop (align4 (lenOf b))

theorem afterMessage_shrink (b : Bytes) (h : Present b) :
    (afterMessage b).length < b.length := by
  obtain ⟨hmin, hfits⟩ := h
  have := le_align4 (lenOf b)
  rw [afterMessage, List.length_drop]
  omega

/-- The messages of a buffer, as many as are present one after another. -/
def messages : Framing UInt8 Message :=
  .headed Present messageAt afterMessage afterMessage_shrink

/-- The walk over the messages of a buffer. -/
def Walk : Bytes → Bytes → Prop := ReflTransGen fun b r => Present b ∧ r = afterMessage b

theorem Walk.length_le {b r : Bytes} (h : Walk b r) : r.length ≤ b.length := by
  induction h with
  | refl => exact Nat.le_refl _
  | tail _ hstep ih =>
      obtain ⟨hp, rfl⟩ := hstep
      exact (Nat.le_of_lt (afterMessage_shrink _ hp)).trans ih

/-- From a message that fills its buffer the walk only goes to the end. -/
theorem walk_single {b r : Bytes} (h : afterMessage b = []) (hwalk : Walk b r) :
    r = b ∨ r = [] := by
  induction hwalk with
  | refl => exact Or.inl rfl
  | tail _ hstep ih =>
      obtain ⟨hp, rfl⟩ := hstep
      rcases ih with rfl | rfl
      · exact Or.inr h
      · exact absurd hp (by decide)

/-! ## `syscall.ParseNetlinkMessage` -/

/-- While a header remains, take the message off, aligned; a length that is below the header's
or leaves the buffer makes the whole call fail. -/
def parseNetlinkMessage (b : Bytes) : Option (List Message) :=
  if b.length < 16 then some []
  else if lenOf b < 16 ∨ b.length < align4 (lenOf b) then none
  else (parseNetlinkMessage (b.drop (align4 (lenOf b)))).map (messageAt b :: ·)
termination_by b.length
decreasing_by
  have := le_align4 (lenOf b)
  rw [List.length_drop]
  omega

/-- The walk over the messages only stops short of a header. -/
def Splits (b : Bytes) : Prop :=
  ∀ r, Walk b r → 16 ≤ r.length → 16 ≤ lenOf r ∧ align4 (lenOf r) ≤ r.length

theorem Splits.after {b : Bytes} (h : Splits b) (hp : Present b) : Splits (afterMessage b) :=
  fun r hr => h r (.head ⟨hp, rfl⟩ hr)

theorem parseNetlinkMessage_of_splits {b : Bytes} (h : Splits b) :
    parseNetlinkMessage b = some (messages.frames b) := by
  generalize hn : b.length = n
  induction n using Nat.strongRecOn generalizing b with
  | _ n ih =>
      rw [parseNetlinkMessage]
      by_cases h16 : b.length < 16
      · have hnot : ¬Present b := fun ⟨hmin, hfits⟩ => by omega
        rw [if_pos h16, messages, Framing.headed_frames_none hnot]
      · obtain ⟨hmin, halign⟩ := h b .refl (Nat.le_of_not_lt h16)
        have hp : Present b := ⟨hmin, (le_align4 _).trans halign⟩
        have hrest := ih _ (hn ▸ afterMessage_shrink b hp) (h.after hp) rfl
        rw [if_neg h16, if_neg (by omega), ← afterMessage, hrest, messages,
          Framing.headed_frames_of hp]
        rfl

theorem parseNetlinkMessage_of_not_splits {b : Bytes} (h : ¬Splits b) :
    parseNetlinkMessage b = none := by
  generalize hn : b.length = n
  induction n using Nat.strongRecOn generalizing b with
  | _ n ih =>
      rw [parseNetlinkMessage]
      have hwalk : ∀ r, Walk b r → r = b ∨ Present b ∧ Walk (afterMessage b) r := by
        intro r hr
        rcases ReflTransGen.cases_head hr with rfl | ⟨r', ⟨hp, rfl⟩, hr'⟩
        · exact Or.inl rfl
        · exact Or.inr ⟨hp, hr'⟩
      by_cases h16 : b.length < 16
      · refine absurd (fun r hr hlen => ?_) h
        rcases hwalk r hr with rfl | ⟨⟨hmin, hfits⟩, -⟩ <;> omega
      rw [if_neg h16]
      by_cases hbad : lenOf b < 16 ∨ b.length < align4 (lenOf b)
      · rw [if_pos hbad]
      · have := le_align4 (lenOf b)
        have hp : Present b := ⟨by omega, by omega⟩
        have hrest : ¬Splits (afterMessage b) := by
          refine fun hs => h fun r hr hlen => ?_
          rcases hwalk r hr with rfl | ⟨-, hr'⟩
          · omega
          · exact hs r hr' hlen
        rw [if_neg hbad, ← afterMessage, ih _ (hn ▸ afterMessage_shrink b hp) hrest rfl]
        rfl

/-! ## What a sender writes -/

/-- A message with its padding. -/
structure Packet where
  type : UInt16
  flags : UInt16
  seq : UInt32
  pid : UInt32
  data : Bytes
  pad : Bytes
  aligned : 16 + data.length + pad.length = align4 (16 + data.length)
  fits : 16 + data.length < 2 ^ 32

namespace Packet

def header (p : Packet) : Bytes :=
  le32Bytes (.ofNat (16 + p.data.length)) ++ (le16Bytes p.type ++ (le16Bytes p.flags
    ++ (le32Bytes p.seq ++ le32Bytes p.pid)))

def bytes (p : Packet) : Bytes := p.header ++ p.data ++ p.pad

def message (p : Packet) : Message := ⟨p.type, p.flags, p.data⟩

@[simp] theorem header_length (p : Packet) : p.header.length = 16 := rfl

theorem bytes_length (p : Packet) : p.bytes.length = align4 (16 + p.data.length) := by
  rw [← p.aligned, bytes, List.length_append, List.length_append, header_length]

/-- The header is read back whatever follows the message. -/
theorem header_fields (p : Packet) (x : Bytes) :
    lenOf (p.bytes ++ x) = 16 + p.data.length ∧ messageAt (p.bytes ++ x) = p.message := by
  have h : At (p.bytes ++ x) 0 (p.bytes ++ x) := ⟨by simp, by simp⟩
  obtain ⟨hbytes, -⟩ := At.append_iff.mp h
  obtain ⟨hmessage, -⟩ := At.append_iff.mp hbytes
  obtain ⟨hheader, hdata⟩ := At.append_iff.mp hmessage
  obtain ⟨hlen, hrest⟩ := At.append_iff.mp hheader
  obtain ⟨htype, hrest⟩ := At.append_iff.mp hrest
  obtain ⟨hflags, -⟩ := At.append_iff.mp hrest
  have hlenOf : lenOf (p.bytes ++ x) = 16 + p.data.length := by
    rw [lenOf, hlen.leWord32]
    exact Nat.mod_eq_of_lt p.fits
  refine ⟨hlenOf, ?_⟩
  have heq := hdata.eq
  rw [header_length, Nat.zero_add] at heq
  rw [messageAt, hlenOf, Nat.add_sub_cancel_left, heq]
  exact congrArg₂ (fun t f => Message.mk t f p.data) htype.leWord16 hflags.leWord16

/-- The packet is present with its padding, and what follows it follows. -/
theorem present_bytes (p : Packet) (x : Bytes) :
    Present (p.bytes ++ x) ∧ align4 (lenOf (p.bytes ++ x)) ≤ (p.bytes ++ x).length
      ∧ afterMessage (p.bytes ++ x) = x := by
  obtain ⟨hlen, -⟩ := p.header_fields x
  have hle := le_align4 (16 + p.data.length)
  unfold Present afterMessage
  rw [hlen, List.length_append, bytes_length]
  refine ⟨by omega, by omega, ?_⟩
  rw [← bytes_length, List.drop_left]

theorem next_bytes (p : Packet) (x : Bytes) :
    messages.next (p.bytes ++ x) = some (p.message, x) := by
  obtain ⟨hp, -, hafter⟩ := p.present_bytes x
  rw [messages, Framing.headed_next_of hp, (p.header_fields x).2, hafter]

/-- Packets one after another are the messages of their concatenation. -/
theorem frames_bytes (ps : List Packet) :
    messages.frames (ps.map bytes).flatten = ps.map message := by
  have hnil : messages.frames [] = [] := Framing.headed_frames_none (by decide)
  have h := messages.frames_encode next_bytes [] ps
  rwa [List.append_nil, hnil, List.append_nil] at h

/-- The walk over packets comes to what is left after some of them. -/
theorem walk_bytes {ps : List Packet} {r : Bytes} (h : Walk (ps.map bytes).flatten r) :
    ∃ qs : List Packet, r = (qs.map bytes).flatten := by
  induction h with
  | refl => exact ⟨ps, rfl⟩
  | tail _ hstep ih =>
      obtain ⟨hp, rfl⟩ := hstep
      obtain ⟨qs, rfl⟩ := ih
      cases qs with
      | nil => exact absurd hp (by decide)
      | cons q qs => exact ⟨qs, (q.present_bytes _).2.2⟩

theorem splits_bytes (ps : List Packet) : Splits (ps.map bytes).flatten := by
  intro r hr h16
  obtain ⟨qs, rfl⟩ := walk_bytes hr
  cases qs with
  | nil => exact absurd h16 (by decide)
  | cons q qs =>
      obtain ⟨⟨hmin, -⟩, halign, -⟩ := q.present_bytes (qs.map bytes).flatten
      exact ⟨hmin, halign⟩

end Packet

end Tracep.Netlink
