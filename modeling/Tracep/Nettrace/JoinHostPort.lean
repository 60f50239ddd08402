import Tracep.Lib.AddressText
import Tracep.Lib.CBuffer
import Tracep.Nettrace.DarwinSeen

/-!
# Ends of sockets taken apart and put together

`joinHostPort` prints what `splitHostPort` has read. A host is any, which
`lsof` writes as a star and the tracer keeps as the empty text, or an IPv4
address, or anything with a colon in brackets (`HostPort`). The text of each
comes back from its address and port (`joinHostPort_splitHostPort`), and two
of them from the arrow between. The C port does the same in its buffers as
long as the texts fit.
-/

namespace Tracep.Nettrace.Lsof

open Strconv

/-! ## The code -/

/-- `joinHostPort`. -/
def Go.joinHostPort (ip : Bytes) (port : Int) : Bytes :=
  if ip = [] then 42 :: 58 :: intText port
  else if 58 ∈ ip then 91 :: ip ++ 93 :: 58 :: intText port
  else ip ++ 58 :: intText port

/-- `join_host_port`, into a buffer of `cap` bytes. -/
def C.joinHostPort (cap : Nat) (ip : Bytes) (port : Int) : Bytes :=
  let isV6 := 58 ∈ ip
  if ip = [] then fitted cap (42 :: 58 :: intText port)
  else if isV6 then fitted cap (91 :: ip ++ 93 :: 58 :: intText port)
  else fitted cap (ip ++ 58 :: intText port)

/-! ## Endpoints -/

/-- A host as `lsof` writes it. The text in brackets has a colon, but no closing bracket and no
arrow. -/
inductive HostText where
  | any
  | v4 (a b c d : UInt8)
  | v6 (ip : Bytes) (colon : 58 ∈ ip) (bracket : 93 ∉ ip) (arrow : ¬[45, 62] <:+: ip)

/-- A host and a port. -/
structure HostPort where
  host : HostText
  port : { n : Nat // 1 ≤ n ∧ n ≤ 65535 }

namespace HostPort

variable (e : HostPort)

/-- The text of the port. -/
def portText : Bytes := digits 10 e.port

def text : Bytes :=
  match e.host with
  | .any => 42 :: 58 :: e.portText
  | .v4 a b c d => dottedQuad [a, b, c, d] ++ 58 :: e.portText
  | .v6 ip _ _ _ => 91 :: ip ++ 93 :: 58 :: e.portText

/-- The address that the tracer keeps. -/
def ip : Bytes :=
  match e.host with
  | .any => []
  | .v4 a b c d => dottedQuad [a, b, c, d]
  | .v6 ip _ _ _ => ip

theorem not_mem_portText {b : UInt8} (hb : isDigit b = false) : b ∉ e.portText :=
  not_mem_digits hb _

theorem atoi_port : atoi e.portText = ((e.port.val : Int), true) :=
  atoi_digits (Nat.lt_of_le_of_lt e.port.property.2 (by decide))

theorem portText_ne : e.portText ≠ [42] := fun heq =>
  e.not_mem_portText (by decide) (heq ▸ List.mem_singleton_self 42)

theorem quad_ne_nil {a b c d : UInt8} : dottedQuad [a, b, c, d] ≠ [] :=
  List.append_ne_nil_of_left_ne_nil (List.append_ne_nil_of_right_ne_nil _ (List.cons_ne_nil _ _)) _

/-- A host and a colon before the port, or one in brackets. -/
theorem text_shapes :
    (∃ host, e.text = host ++ 58 :: e.portText ∧ 62 ∉ host ∧ e.text.head? ≠ some 91
        ∧ (host = [42] ∨ host = e.ip) ∧ e.ip = if host = [42] then [] else host)
      ∨ e.text = (91 :: e.ip) ++ 93 :: 58 :: e.portText ∧ 93 ∉ 91 :: e.ip
        ∧ ¬[45, 62] <:+: 91 :: e.ip := by
  obtain ⟨host, port⟩ := e
  cases host with
  | any =>
      exact Or.inl ⟨[42], rfl, by decide, fun h => absurd (Option.some.inj h) (by decide),
        Or.inl rfl, rfl⟩
  | v4 a b c d =>
      refine Or.inl ⟨dottedQuad [a, b, c, d], rfl, not_mem_dottedQuad (by decide) rfl, fun hhead => ?_,
        Or.inr rfl, (if_neg fun heq => ?_).symm⟩
      · have hmem : 91 ∈ dottedQuad [a, b, c, d] := by
          refine List.mem_of_mem_head? ?_
          rwa [text, List.head?_append_of_ne_nil _ quad_ne_nil] at hhead
        exact not_mem_dottedQuad (by decide) rfl hmem
      · exact not_mem_dottedQuad (by decide) rfl (heq ▸ List.mem_singleton_self (42 : UInt8))
  | v6 ip colon bracket arrow =>
      refine Or.inr ⟨rfl, ?_, fun hin => ?_⟩
      · rw [HostPort.ip, List.mem_cons, not_or]
        exact ⟨by decide, bracket⟩
      · rcases List.infix_cons_iff.mp hin with hstart | hin
        · exact absurd (List.cons_prefix_cons.mp hstart).1 (by decide)
        · exact arrow hin

theorem text_ne_nil : e.text ≠ [] := by
  rcases e.text_shapes with ⟨host, htext, -⟩ | ⟨htext, -⟩
  all_goals
    rw [htext]
    exact List.append_ne_nil_of_right_ne_nil _ (List.cons_ne_nil _ _)

/-- The text ends with the port, and so not with a star. -/
theorem text_ne_any : e.text ≠ [42, 58, 42] := by
  obtain ⟨s, hs⟩ : ∃ s, e.text = s ++ e.portText := by
    rcases e.text_shapes with ⟨host, htext, -⟩ | ⟨htext, -⟩
    · exact ⟨host ++ [58], by rw [htext, List.append_assoc]; rfl⟩
    · exact ⟨91 :: e.ip ++ [93, 58], by rw [htext, List.append_assoc]; rfl⟩
  intro heq
  have hlast : e.portText.getLast? = some 42 := by
    have hne : e.portText ≠ [] := digits_ne_nil _
    rw [← List.getLast?_append_of_ne_nil s hne, ← hs, heq]
    rfl
  exact e.not_mem_portText (by decide) (List.mem_of_getLast? hlast)

/-- There is no arrow in the text of an end. -/
theorem not_arrow_text : ¬[45, 62] <:+: e.text := by
  have hport : ∀ s : Bytes, 62 ∉ s → 62 ∉ s ++ e.portText := fun s hs hmem =>
    (List.mem_append.mp hmem).elim hs (e.not_mem_portText (by decide))
  rcases e.text_shapes with ⟨host, htext, hhost, -⟩ | ⟨htext, -, harrow⟩
  · rw [htext]
    refine not_infix_append (fun hin => ?_) (hport [58] (by decide))
    exact hhost (hin.subset (List.mem_cons_of_mem _ List.mem_cons_self))
  · rw [htext]
    exact not_infix_append harrow (hport [93, 58] (by decide))

end HostPort

/-! ## Apart and together -/

namespace Go

variable (e : HostPort)

theorem splitHostPort_hostPort : splitHostPort e.text = (e.ip, (e.port.val : Int)) := by
  have hcolon : 58 ∉ e.portText := e.not_mem_portText (by decide)
  have hne := not_or_intro e.text_ne_nil e.text_ne_any
  rcases e.text_shapes with ⟨host, htext, -, hhead, -, hip⟩ | ⟨htext, hbracket, -⟩
  · rw [splitHostPort, if_neg hne, if_neg (Endpoint.not_bracket hhead), htext,
      cutLast_append hcolon]
    simp only [if_neg e.portText_ne, e.atoi_port, ← hip]
  · have hstart : [91].isPrefixOf e.text = true := by
      rw [htext]
      rfl
    rw [splitHostPort, if_neg hne, if_pos hstart, htext, cut_pair (Or.inl hbracket) (by decide)]
    simp only [e.atoi_port]
    rfl

theorem joinHostPort_ip : joinHostPort e.ip e.port = e.text := by
  have hport : intText e.port = e.portText := intText_natCast _
  obtain ⟨host, port⟩ := e
  rw [joinHostPort, hport]
  cases host with
  | any => exact if_pos rfl
  | v4 a b c d =>
      exact (if_neg HostPort.quad_ne_nil).trans
        (if_neg (not_mem_dottedQuad (by decide) rfl))
  | v6 ip colon bracket arrow =>
      exact (if_neg (List.ne_nil_of_mem colon)).trans (if_pos colon)

theorem splitConn_hostPorts (s d : HostPort) :
    splitConn (s.text ++ 45 :: 62 :: d.text) = (s.text, d.text) := by
  rw [splitConn, cut_at s.not_arrow_text (by decide)]
  rfl

end Go

namespace C

open Darwin.C (splitHostPort splitConn)

variable (e : HostPort)

theorem atoi_port : Libc.atoi e.portText = e.port := by
  have hport := e.port.property.2
  rw [Libc.atoi_of_strconv e.atoi_port, int32_eq (by omega) (by omega)]

theorem splitHostPort_hostPort (h : e.ip.length ≤ 63) :
    splitHostPort e.text = (e.ip, (e.port.val : Int)) := by
  have hcolon : 58 ∉ e.portText := e.not_mem_portText (by decide)
  have hne := not_or_intro e.text_ne_nil e.text_ne_any
  rcases e.text_shapes with ⟨host, htext, -, hhead, hhost, hip⟩ | ⟨htext, hbracket, -⟩
  · have hlen : host.length ≤ 63 := by
      rcases hhost with rfl | rfl
      · decide
      · exact h
    have hstar : e.portText.head? ≠ some 42 := fun hhead =>
      e.not_mem_portText (by decide) (List.mem_of_mem_head? hhead)
    rw [splitHostPort, if_neg hne, if_neg (Endpoint.not_bracket hhead), htext,
      cutLast_append hcolon]
    simp only [if_neg hstar, atoi_port, List.take_of_length_le hlen, ← hip]
  · have hstart : [91].isPrefixOf e.text = true := by
      rw [htext]
      rfl
    rw [splitHostPort, if_neg hne, if_pos hstart, htext, cut_pair (Or.inl hbracket) (by decide)]
    simp only [atoi_port, List.drop_succ_cons, List.drop_zero, List.take_of_length_le h]

/-- The text fits the buffer that it is put together in. -/
theorem joinHostPort_eq {cap : Nat} {ip : Bytes} {port : Int}
    (h : (Go.joinHostPort ip port).length < cap) :
    joinHostPort cap ip port = Go.joinHostPort ip port := by
  have hfits : joinHostPort cap ip port = fitted cap (Go.joinHostPort ip port) := by
    unfold joinHostPort Go.joinHostPort
    simp only []
    split
    · rfl
    · split <;> rfl
  rw [hfits, fitted, List.take_of_length_le (Nat.le_sub_one_of_lt h)]

end C

/-- The text of an end is what is printed of the address and the port read from it, and two ends
come apart at the arrow. So it is in C if the address fits 64 bytes and the text 80, and if both
ends fit 64. -/
theorem joinHostPort_splitHostPort (s d : HostPort) :
    Go.joinHostPort (Go.splitHostPort s.text).1 (Go.splitHostPort s.text).2 = s.text
      ∧ Go.splitConn (s.text ++ 45 :: 62 :: d.text) = (s.text, d.text)
      ∧ (s.ip.length < 64 → s.text.length < 80 →
        C.joinHostPort 80 (Darwin.C.splitHostPort s.text).1 (Darwin.C.splitHostPort s.text).2
          = s.text)
      ∧ (s.text.length < 64 → d.text.length < 64 →
        Darwin.C.splitConn (s.text ++ 45 :: 62 :: d.text) = (s.text, d.text)) := by
  refine ⟨?_, Go.splitConn_hostPorts s d, fun hip htext => ?_, fun hs hd => ?_⟩
  · rw [Go.splitHostPort_hostPort, Go.joinHostPort_ip]
  · rw [C.splitHostPort_hostPort s (Nat.le_of_lt_succ hip), C.joinHostPort_eq,
      Go.joinHostPort_ip]
    rwa [Go.joinHostPort_ip]
  · rw [Darwin.C.splitConn, cut_at s.not_arrow_text (by decide)]
    simp only [List.take_of_length_le (Nat.le_of_lt_succ hs),
      List.take_of_length_le (Nat.le_of_lt_succ hd)]

/-- `10.0.0.1:443` and `*:22`. -/
theorem samplePair_apart :
    let s : HostPort := ⟨.v4 10 0 0 1, 443, Nat.le_of_ble_eq_true rfl, Nat.le_of_ble_eq_true rfl⟩
    let d : HostPort := ⟨.any, 22, Nat.le_of_ble_eq_true rfl, Nat.le_of_ble_eq_true rfl⟩
    C.joinHostPort 80 (Darwin.C.splitHostPort s.text).1 (Darwin.C.splitHostPort s.text).2 = s.text
      ∧ Darwin.C.splitConn (s.text ++ 45 :: 62 :: d.text) = (s.text, d.text) := by
  intro s d
  obtain ⟨-, -, hjoin, hsplit⟩ := joinHostPort_splitHostPort s d
  exact ⟨hjoin (by decide) (by decide), hsplit (by decide) (by decide)⟩

end Tracep.Nettrace.Lsof
