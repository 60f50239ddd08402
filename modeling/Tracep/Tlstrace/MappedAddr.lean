import Tracep.Tlstrace.HexAddr

/-!
# Mapped addresses of the socket tables

A socket of IPv6 that talks to an IPv4 host has its address mapped into the
table of IPv6. The predicates of `net.IP` look at the IPv4 address then, the
macros of the C library do not. So the C port lets through what the Go code
leaves out: the mapped addresses of the host itself, of the link and of no
host (`parseHexAddr_agree_iff`). On all other columns both reject, or both
give the address and the port that the kernel has printed.
-/

namespace Tracep.Tlstrace

open Nettrace (IsAddr unmapped)
open Procfs

/-- The Go code and the C port both reject, or print the same address and port, each in its
way. -/
inductive SameEndpoint : Bytes → Option Bytes → Prop where
  | rejected : SameEndpoint [] none
  | printed {ip ip' : Bytes} {port : Nat} : IsAddr ip → IsAddr ip' → unmapped ip = unmapped ip' →
      SameEndpoint (hostPort (ipText ip) port) (some (hostPort (C.inetNtop ip') port))

/-- Addresses of 127/8, 169.254/16 and 0.0.0.0. -/
def isLocalV4 (v4 : Bytes) : Bool :=
  v4.getD 0 0 = 127 || v4.take 2 = [169, 254] || v4 = [0, 0, 0, 0]

/-- One of these, mapped. -/
def MappedLocal (ip : Bytes) : Prop := ∃ v4, v4.length = 4 ∧ ip = mappedStart ++ v4 ∧ isLocalV4 v4

variable {ip v4 : Bytes} {port : UInt16} {lookup : Bytes → Option Bytes} {isV6 : Bool} {cap : Nat}

theorem hostPort_ne_nil {host : Bytes} {n : Nat} : hostPort host n ≠ [] :=
  List.append_ne_nil_of_right_ne_nil host (List.cons_ne_nil _ _)

theorem SameEndpoint.not_nil_some {text : Bytes} : ¬SameEndpoint [] (some text) := by
  intro h
  generalize hnil : ([] : Bytes) = empty at h
  cases h with
  | printed => exact hostPort_ne_nil hnil.symm

/-- What is printed is the same address only if it is. -/
theorem SameEndpoint.unmapped_eq {n n' : Nat} {ip' : Bytes} (hip : IsAddr ip) (hip' : IsAddr ip')
    (h : SameEndpoint (hostPort (ipText ip) n) (some (hostPort (C.inetNtop ip') n'))) :
    unmapped ip = unmapped ip' ∧ n = n' := by
  have hparts : ∀ {host host' : Bytes} {n n' : Nat}, hostPort host n = hostPort host' n' →
      host = host' ∧ n = n' := by
    intro host host' n n' heq
    have hcut := congrArg (cutLast 58) heq
    rw [hostPort, hostPort, cutLast_append (Strconv.not_mem_digits rfl _),
      cutLast_append (Strconv.not_mem_digits rfl _)] at hcut
    obtain ⟨hhost, hn⟩ := Prod.mk.inj (Option.some.inj hcut)
    exact ⟨hhost, Strconv.digits_injective hn⟩
  generalize hgo : hostPort (ipText ip) n = go at h
  generalize hc : some (hostPort (C.inetNtop ip') n') = c at h
  cases h with
  | rejected => cases hc
  | printed haddr haddr' hsame =>
      obtain ⟨htext, hn⟩ := hparts hgo
      obtain ⟨htext', hn'⟩ := hparts (Option.some.inj hc)
      rw [(Nettrace.ipText_eq_iff hip haddr).mp htext,
        Nettrace.C.ipStr_injective hip' haddr' htext', hsame]
      exact ⟨rfl, hn.trans hn'.symm⟩

/-! ## Port zero -/

theorem Go.parseHexAddr_zero : Go.parseHexAddr true lookup (endpointText ip 0) isV6 = [] := by
  have hparse : Strconv.parseHex (2 ^ 16 - 1) (hexDigits 4 (0 : UInt16).toNat) = .ok 0 := rfl
  simp only [Go.parseHexAddr, Nettrace.cut_endpointText, hparse, if_true]

theorem C.parseHexAddr_zero :
    C.parseHexAddr true lookup cap (endpointText ip 0) isV6 = none := by
  have hvalue : Libc.strtoulHex (hexDigits 4 (0 : UInt16).toNat) = 0 := rfl
  simp only [C.parseHexAddr, Nettrace.cut_endpointText, hvalue, if_true, ite_self]

/-! ## Columns of IPv6 -/

theorem Go.printed_six (h : ip.length = 16) (hport : port ≠ 0) :
    Go.parseHexAddr true lookup (endpointText ip port) true
      = if Go.isLoopback ip || Go.isLinkLocalUnicast ip || Go.isUnspecified ip then []
        else hostPort (ipText ip) port.toNat := by
  rw [Go.parseHexAddr_endpoint hport, Go.hexIP_v6 h]
  cases hloop : Go.isLoopback ip <;> cases Go.isLinkLocalUnicast ip <;> simp [hloop]

theorem C.printed_six (h : ip.length = 16) (hport : port ≠ 0) :
    C.parseHexAddr true lookup 300 (endpointText ip port) true
      = if ip = ipv6Loopback ∨ isLinkLocal ip ∨ ip = ipv6Unspecified then none
        else some (hostPort (C.inetNtop ip) port.toNat) := by
  rw [C.parseHexAddr_endpoint hport, C.hexIp_v6 h]
  by_cases hloop : ip = ipv6Loopback
  · rw [if_pos (Or.inl hloop), if_pos (Or.inl hloop)]
    rfl
  by_cases hlink : isLinkLocal ip = true
  · rw [if_pos (Or.inr hlink), if_pos (Or.inr (Or.inl hlink))]
    rfl
  by_cases hzero : ip = ipv6Unspecified
  · rw [if_neg (not_or.mpr ⟨hloop, hlink⟩), if_pos (Or.inr hzero),
      if_pos (Or.inr (Or.inr hzero))]
    rfl
  · rw [if_neg (not_or.mpr ⟨hloop, hlink⟩), if_neg (not_or.mpr ⟨hloop, hzero⟩),
      if_neg (not_or.mpr ⟨hloop, not_or.mpr ⟨hlink, hzero⟩⟩), Option.map_some,
      fitted_hostPort (C.length_inetNtop_le ip)]

/-- What is not mapped is tested alike. -/
theorem unmapped_tests (h : ip.length = 16) (hmapped : ip.take 12 ≠ mappedStart) :
    (Go.isLoopback ip || Go.isLinkLocalUnicast ip || Go.isUnspecified ip) = true
      ↔ ip = ipv6Loopback ∨ isLinkLocal ip ∨ ip = ipv6Unspecified := by
  have hto4 := Go.to4_v6 h hmapped
  simp only [Go.isLoopback, Go.isLinkLocalUnicast, Go.isUnspecified, hto4, h, true_and,
    Bool.or_eq_true, decide_eq_true_eq, reduceCtorEq, false_or, or_assoc]

/-- Of what is mapped the Go code tests the IPv4 address. -/
theorem Go.mapped_tests (h : v4.length = 4) :
    (Go.isLoopback (mappedStart ++ v4) || Go.isLinkLocalUnicast (mappedStart ++ v4)
      || Go.isUnspecified (mappedStart ++ v4)) = isLocalV4 v4 := by
  have hto4 := Go.to4_mapped h
  have hzero : mappedStart ++ v4 ≠ ipv6Unspecified := by
    intro heq
    have htake := congrArg (List.take 12) heq
    rw [(mapped_parts h).2.1] at htake
    cases htake
  simp only [Go.isLoopback, Go.isLinkLocalUnicast, Go.isUnspecified, hto4, hzero, or_false,
    Option.some.injEq, isLocalV4]

/-- The C port tests nothing of it. -/
theorem C.mapped_tests (h : v4.length = 4) : ¬(mappedStart ++ v4 = ipv6Loopback
    ∨ isLinkLocal (mappedStart ++ v4) ∨ mappedStart ++ v4 = ipv6Unspecified) := by
  have htake := (mapped_parts h).2.1
  rintro (heq | hlink | heq)
  · rw [heq] at htake
    cases htake
  · cases hlink
  · rw [heq] at htake
    cases htake

/-! ## Agreement -/

theorem mappedLocal_iff (h : v4.length = 4) :
    MappedLocal (mappedStart ++ v4) ↔ isLocalV4 v4 = true := by
  constructor
  · rintro ⟨w, -, hw, hlocal⟩
    rw [List.append_cancel_left hw]
    exact hlocal
  · exact fun hlocal => ⟨v4, h, rfl, hlocal⟩

theorem not_mappedLocal (h : ip.take 12 ≠ mappedStart) : ¬MappedLocal ip := by
  rintro ⟨v4, hv4, rfl, -⟩
  exact h (mapped_parts hv4).2.1

section Agree

variable {lookupAddr : Bytes → Option Bytes}

/-- An address of IPv4 is printed by both, or by neither. -/
theorem four_agree (h : ip.length = 4) (hport : port ≠ 0) :
    SameEndpoint (Go.parseHexAddr true lookupAddr (endpointText ip port) false)
      (C.parseHexAddr true lookup 300 (endpointText ip port) false) := by
  have hrev : ip.reverse.length = 4 := by rw [List.length_reverse, h]
  have hgo : ipText ip.reverse = dottedQuad ip.reverse := if_pos hrev
  have hc : C.inetNtop ip.reverse = dottedQuad ip.reverse := by
    rw [C.inetNtop, hrev]
    exact congrArg dottedQuad (List.take_of_length_le (Nat.le_of_eq hrev))
  rw [Go.printed_v4 h hport, C.printed_v4 h hport]
  split
  · exact .rejected
  · have hfits := fitted_hostPort (C.length_inetNtop_le ip.reverse) port
    have hprinted : SameEndpoint (hostPort (ipText ip.reverse) port.toNat)
        (some (hostPort (C.inetNtop ip.reverse) port.toNat)) :=
      .printed (Or.inl hrev) (Or.inl hrev) rfl
    rwa [← hfits, hgo, hc] at hprinted

/-- The C port prints every mapped address, Go those that are not local. -/
theorem mapped_agree_iff (h : v4.length = 4) (hport : port ≠ 0) :
    SameEndpoint (Go.parseHexAddr true lookupAddr (endpointText (mappedStart ++ v4) port) true)
        (C.parseHexAddr true lookup 300 (endpointText (mappedStart ++ v4) port) true)
      ↔ isLocalV4 v4 = false := by
  have hlen := (mapped_parts h).1
  rw [Go.printed_six hlen hport, C.printed_six hlen hport, Go.mapped_tests h,
    if_neg (C.mapped_tests h)]
  cases isLocalV4 v4 with
  | true => exact iff_of_false SameEndpoint.not_nil_some Bool.noConfusion
  | false => exact iff_of_true (.printed (Or.inr hlen) (Or.inr hlen) rfl) rfl

theorem unmapped_agree (h : ip.length = 16) (hmapped : ip.take 12 ≠ mappedStart)
    (hport : port ≠ 0) :
    SameEndpoint (Go.parseHexAddr true lookupAddr (endpointText ip port) true)
      (C.parseHexAddr true lookup 300 (endpointText ip port) true) := by
  rw [Go.printed_six h hport, C.printed_six h hport]
  simp only [unmapped_tests h hmapped]
  split
  · exact .rejected
  · exact .printed (Or.inr h) (Or.inr h) rfl

end Agree

/-- ::ffff:127.0.0.1 is rejected by the Go code only. -/
theorem parseHexAddr_mapped_loopback :
    ¬SameEndpoint
      (Go.parseHexAddr true (fun _ => none) (endpointText (mappedStart ++ [127, 0, 0, 1]) 443) true)
      (C.parseHexAddr true (fun _ => none) 300
        (endpointText (mappedStart ++ [127, 0, 0, 1]) 443) true) := by
  have hmapped := @Go.mapped_tests [127, 0, 0, 1] rfl
  rw [Go.printed_six rfl (by decide), C.printed_six rfl (by decide), hmapped,
    if_neg (C.mapped_tests rfl)]
  exact SameEndpoint.not_nil_some

/-- The Go code and the C port agree on a column of the kernel exactly if its port is zero or its
address is not a mapped one of the host itself, of the link or of no host. -/
theorem parseHexAddr_agree_iff (lookupAddr lookup : Bytes → Option Bytes) (ip : Bytes)
    (port : UInt16) (hip : ip.length = 4 ∨ ip.length = 16) :
    SameEndpoint (Go.parseHexAddr true lookupAddr (endpointText ip port) (ip.length = 16))
        (C.parseHexAddr true lookup 300 (endpointText ip port) (ip.length = 16))
      ↔ port = 0 ∨ ¬MappedLocal ip := by
  by_cases hport : port = 0
  · subst hport
    rw [Go.parseHexAddr_zero, C.parseHexAddr_zero]
    exact iff_of_true .rejected (Or.inl rfl)
  rw [or_iff_right hport]
  rcases hip with h | h
  · have hsix : decide (ip.length = 16) = false := by
      rw [h]
      rfl
    have hfour : ¬MappedLocal ip := by
      rintro ⟨v4, hv4, rfl, -⟩
      have hlen := (mapped_parts hv4).1
      omega
    rw [hsix]
    exact iff_of_true (four_agree h hport) hfour
  · have hsix : decide (ip.length = 16) = true := decide_eq_true h
    rw [hsix]
    by_cases hmapped : ip.take 12 = mappedStart
    · -- the tests of the C port are all passed
      obtain ⟨v4, hv4, rfl⟩ : ∃ v4, v4.length = 4 ∧ ip = mappedStart ++ v4 :=
        ⟨ip.drop 12, by rw [List.length_drop, h], by rw [← hmapped, List.take_append_drop]⟩
      rw [mapped_agree_iff hv4 hport, mappedLocal_iff hv4, Bool.not_eq_true]
    · exact iff_of_true (unmapped_agree h hmapped hport) (not_mappedLocal hmapped)

theorem parseHexAddr_agree_sampleV6 :
    (SameEndpoint
        (Go.parseHexAddr true (fun _ => none) (endpointText sampleV6 443) (sampleV6.length = 16))
        (C.parseHexAddr true (fun _ => none) 300 (endpointText sampleV6 443)
          (sampleV6.length = 16))
      ↔ (443 : UInt16) = 0 ∨ ¬MappedLocal sampleV6) :=
  parseHexAddr_agree_iff _ _ sampleV6 443 (Or.inr rfl)

end Tracep.Tlstrace
