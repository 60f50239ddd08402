import Tracep.Lib.AddressText
import Tracep.Nettrace.FindInode
import Tracep.Nettrace.RoundTrip

/-!
# Keys of connections

Connections are kept under a text made of the addresses, the ports and the
protocol. The parts can be told apart where no address has a bar in it
(`keyText_injective`), so keys are as good as the texts of the addresses.
`net.IP.String` shows an IPv4 address that is mapped as the IPv4 address it
is, so two tuples have one key if they are the same once nothing is mapped
(`Go.key_eq_iff`). `inet_ntop` shows all addresses differently
(`C.ipStr_injective`), and the buffer of `tuple_key` is large enough.
-/

namespace Tracep.Nettrace

open Exec Strconv

/-- The length is that of an address. -/
def IsAddr (ip : Bytes) : Prop := ip.length = 4 ∨ ip.length = 16

/-- `"%s:%d|%s:%d|%d"`. -/
def keyText (src : Bytes) (srcPort : UInt16) (dst : Bytes) (dstPort : UInt16) (proto : UInt8) :
    Bytes :=
  src ++ [0x3a] ++ digits 10 srcPort.toNat ++ [0x7c] ++ dst ++ [0x3a] ++ digits 10 dstPort.toNat
    ++ [0x7c] ++ digits 10 proto.toNat

section Text

variable {src dst src' dst' : Bytes} {srcPort dstPort srcPort' dstPort' : UInt16}
  {proto proto' : UInt8}

theorem port_injective {p p' : UInt16} (h : digits 10 p.toNat = digits 10 p'.toNat) : p = p' :=
  UInt16.toNat_inj.mp (digits_injective h)

/-- An address and a port end at the last colon. -/
theorem endpoint_injective {host host' : Bytes} {p p' : UInt16}
    (h : host ++ 58 :: digits 10 p.toNat = host' ++ 58 :: digits 10 p'.toNat) :
    host = host' ∧ p = p' := by
  have hcut := congrArg (cutLast 58) h
  rw [cutLast_append (not_mem_digits rfl _), cutLast_append (not_mem_digits rfl _)] at hcut
  obtain ⟨hhost, hport⟩ := Prod.mk.inj (Option.some.inj hcut)
  exact ⟨hhost, port_injective hport⟩

/-- Without bars in the addresses the parts can be told apart. -/
theorem keyText_injective (hsrc : 124 ∉ src) (hdst : 124 ∉ dst) (hsrc' : 124 ∉ src')
    (hdst' : 124 ∉ dst')
    (h : keyText src srcPort dst dstPort proto = keyText src' srcPort' dst' dstPort' proto') :
    src = src' ∧ srcPort = srcPort' ∧ dst = dst' ∧ dstPort = dstPort' ∧ proto = proto' := by
  have hparts : ∀ (src : Bytes) (sp : UInt16) (dst : Bytes) (dp : UInt16) (proto : UInt8),
      keyText src sp dst dp proto = (src ++ 58 :: digits 10 sp.toNat)
        ++ 124 :: ((dst ++ 58 :: digits 10 dp.toNat) ++ 124 :: digits 10 proto.toNat) := by
    intro src sp dst dp proto
    simp [keyText]
  have hbar : ∀ {host : Bytes} {p : UInt16}, 124 ∉ host →
      (124 : UInt8) ∉ host ++ 58 :: digits 10 p.toNat := by
    intro host p hhost hmem
    rw [List.mem_append, List.mem_cons] at hmem
    rcases hmem with hmem | heq | hmem
    · exact hhost hmem
    · cases heq
    · exact not_mem_digits rfl _ hmem
  rw [hparts, hparts] at h
  have hcut := congrArg (cut [124]) h
  rw [cut_byte (hbar hsrc), cut_byte (hbar hsrc')] at hcut
  obtain ⟨hleft, hright⟩ := Prod.mk.inj (Option.some.inj hcut)
  have hcut := congrArg (cut [124]) hright
  rw [cut_byte (hbar hdst), cut_byte (hbar hdst')] at hcut
  obtain ⟨hmid, hlast⟩ := Prod.mk.inj (Option.some.inj hcut)
  obtain ⟨rfl, rfl⟩ := endpoint_injective hleft
  obtain ⟨rfl, rfl⟩ := endpoint_injective hmid
  exact ⟨rfl, rfl, rfl, rfl, UInt8.toNat_inj.mp (digits_injective hlast)⟩

end Text

/-! ## Texts of addresses -/

section Addresses

variable {ip addr : Bytes} {b : UInt8}

theorem length_groups_addr (h : ip.length = 16) : (groups ip).length = 8 := length_groups h

theorem dottedQuad_ne_ipv6Text (h : addr.length = 16) :
    dottedQuad ip ≠ ipv6Text (groups addr) := by
  intro heq
  have hcolon := colon_mem_ipv6Text (g := groups addr) (by rw [length_groups_addr h]; decide)
  rw [← heq] at hcolon
  exact not_mem_dottedQuad (by decide) rfl hcolon

/-- The text is that of the IPv4 address, if it is one or a mapped one, or of the groups. -/
theorem ipText_cases (h : IsAddr ip) :
    (unmapped ip).length = 4 ∧ ipText ip = dottedQuad (unmapped ip)
      ∨ unmapped ip = ip ∧ ip.length = 16 ∧ ipText ip = ipv6Text (groups ip) := by
  unfold unmapped
  rcases h with h | h
  · have hnot : ¬(ip.length = 16 ∧ ip.take 12 = List.replicate 10 0 ++ [0xff, 0xff]) := by
      rw [h]
      exact nofun
    rw [if_neg hnot]
    exact Or.inl ⟨h, if_pos h⟩
  · have hfour : ¬ip.length = 4 := by omega
    by_cases hmapped : ip.take 12 = List.replicate 10 0 ++ [0xff, 0xff]
    · rw [if_pos ⟨h, hmapped⟩]
      refine Or.inl ⟨by rw [List.length_drop, h], ?_⟩
      rw [ipText, if_neg hfour]
      exact if_pos hmapped
    · rw [if_neg fun hboth => hmapped hboth.2]
      refine Or.inr ⟨rfl, h, ?_⟩
      rw [ipText, if_neg hfour]
      exact if_neg hmapped

/-- Texts tell apart all addresses but those that are one when nothing is mapped. -/
theorem ipText_eq_iff (h : IsAddr ip) (h' : IsAddr addr) :
    ipText ip = ipText addr ↔ unmapped ip = unmapped addr := by
  rcases ipText_cases h with ⟨hlen, htext⟩ | ⟨hsame, hlen, htext⟩
  · rcases ipText_cases h' with ⟨hlen', htext'⟩ | ⟨hsame', hlen', htext'⟩
    · rw [htext, htext']
      exact ⟨dottedQuad_injective (hlen.trans hlen'.symm), congrArg dottedQuad⟩
    · rw [htext, htext', hsame']
      refine iff_of_false (dottedQuad_ne_ipv6Text hlen') fun heq => ?_
      rw [heq] at hlen
      omega
  · rcases ipText_cases h' with ⟨hlen', htext'⟩ | ⟨hsame', hlen', htext'⟩
    · rw [htext, htext', hsame]
      refine iff_of_false (dottedQuad_ne_ipv6Text hlen).symm fun heq => ?_
      rw [← heq] at hlen'
      omega
    · rw [htext, htext', hsame, hsame']
      refine ⟨fun heq => ?_, fun heq => by rw [heq]⟩
      have hgroups := ipv6Text_injective
        ((length_groups_addr hlen).trans (length_groups_addr hlen').symm) heq
      exact groups_injective (k := 8) hlen hlen' hgroups

theorem bar_not_mem_ipText (h : IsAddr ip) : 124 ∉ ipText ip := by
  rcases ipText_cases h with ⟨-, htext⟩ | ⟨-, -, htext⟩
  · rw [htext]
    exact not_mem_dottedQuad (by decide) rfl
  · rw [htext]
    exact not_mem_ipv6Text (by decide) rfl

end Addresses

/-! ## Parsed tuples -/

theorem isAddr_of_addrOf {look : UInt16 → Option Bytes} {v4 v6 : UInt16} {ip : Bytes}
    (h : addrOf look v4 v6 = some ip) : IsAddr ip := by
  rcases Option.or_eq_some_iff.mp h with h | ⟨-, h⟩
  · exact Or.inr (of_decide_eq_true (Option.filter_eq_some_iff.mp h).2)
  · exact Or.inl (of_decide_eq_true (Option.filter_eq_some_iff.mp h).2)

/-- A tuple that is looked up has both addresses. -/
theorem addrs_of_tupleOf {look : Bytes → UInt16 → Option Bytes} {payload : Bytes}
    {tupleAttr : UInt16} {t : Go.ConnTuple} (h : tupleOf look payload tupleAttr = some t) :
    ∃ src dst, t.srcIP = some src ∧ t.dstIP = some dst ∧ IsAddr src ∧ IsAddr dst := by
  obtain ⟨tuple, -, h⟩ := Option.bind_eq_some_iff.mp h
  unfold tupleWith at h
  simp only [] at h
  split at h
  · cases h
  · next hset =>
      obtain ⟨src, hsrc⟩ := Option.ne_none_iff_exists'.mp fun hnone =>
        hset (Or.inl (Option.isNone_iff_eq_none.mpr hnone))
      obtain ⟨dst, hdst⟩ := Option.ne_none_iff_exists'.mp fun hnone =>
        hset (Or.inr (Option.isNone_iff_eq_none.mpr hnone))
      obtain rfl := Option.some.inj h
      exact ⟨src, dst, hsrc, hdst, isAddr_of_addrOf hsrc, isAddr_of_addrOf hdst⟩

namespace Go

/-- Some payload has the tuple. -/
def Parsed (t : ConnTuple) : Prop :=
  ∃ payload tupleAttr, (parseTuple payload tupleAttr).Returns (some t)

/-- The tuple with an IPv4 address where one is mapped. -/
def ConnTuple.unmapped (t : ConnTuple) : ConnTuple :=
  { t with srcIP := t.srcIP.map Nettrace.unmapped, dstIP := t.dstIP.map Nettrace.unmapped }

variable {t t' : ConnTuple}

/-- Keys tell apart all tuples but those that are one when nothing is mapped. -/
theorem key_eq_iff (ht : Parsed t) (ht' : Parsed t') :
    t.key = t'.key ↔ t.unmapped = t'.unmapped := by
  obtain ⟨payload, tupleAttr, ht⟩ := ht
  obtain ⟨payload', tupleAttr', ht'⟩ := ht'
  obtain ⟨src, dst, hsrc, hdst, hs, hd⟩ :=
    addrs_of_tupleOf ((parseTuple_returns payload tupleAttr).unique ht)
  obtain ⟨src', dst', hsrc', hdst', hs', hd'⟩ :=
    addrs_of_tupleOf ((parseTuple_returns payload' tupleAttr').unique ht')
  have hkey : t.key = keyText (ipText src) t.srcPort (ipText dst) t.dstPort t.proto := by
    rw [ConnTuple.key, hsrc, hdst]
    rfl
  have hkey' : t'.key = keyText (ipText src') t'.srcPort (ipText dst') t'.dstPort t'.proto := by
    rw [ConnTuple.key, hsrc', hdst']
    rfl
  simp only [hkey, hkey', ConnTuple.unmapped, hsrc, hdst, hsrc', hdst', Option.map_some,
    ConnTuple.mk.injEq, Option.some.injEq]
  constructor
  · intro heq
    obtain ⟨hsrc, hsp, hdst, hdp, hproto⟩ := keyText_injective (bar_not_mem_ipText hs)
      (bar_not_mem_ipText hd) (bar_not_mem_ipText hs') (bar_not_mem_ipText hd') heq
    exact ⟨(ipText_eq_iff hs hs').mp hsrc, (ipText_eq_iff hd hd').mp hdst, hsp, hdp, hproto⟩
  · rintro ⟨hsrc, hdst, hsp, hdp, hproto⟩
    rw [(ipText_eq_iff hs hs').mpr hsrc, (ipText_eq_iff hd hd').mpr hdst, hsp, hdp, hproto]

end Go

/-! ## The C port -/

namespace C

/-- After a run of zeros from the start comes what is left. -/
theorem take_of_longestZeroRun {g : List UInt16} {k : Nat}
    (h : longestZeroRun g = (0, k + 1)) : g.take (k + 1) = List.replicate (k + 1) 0 := by
  have hrun := @longestZeroRun_eq g
  rw [h] at hrun
  have hsplit := zeroRun_split g 0
  rw [← hrun (Nat.succ_ne_zero k), List.take_zero, List.nil_append] at hsplit
  rw [hsplit]
  exact List.take_left' List.length_replicate

/-- The first six groups of an address whose other four bytes are shown dotted, and what is
shown before these. -/
def dottedForms : List (List UInt16 × Bytes) :=
  [(List.replicate 6 0, [58, 58]),
    (List.replicate 5 0 ++ [0xffff], [58, 58, 102, 102, 102, 102, 58])]

variable {ip addr : Bytes} {k : Int}

theorem ipStr_cases (h : ip.length = 16) : ipStr ip 16 = ipv6Text (groups ip)
    ∨ ∃ form ∈ dottedForms, (groups ip).take 6 = form.1
      ∧ ipStr ip 16 = form.2 ++ dottedQuad (ip.drop 12) := by
  have htake : ip.take 16 = ip := List.take_of_length_le h.le
  unfold ipStr
  rw [if_neg (by decide), if_pos rfl, htake]
  simp only []
  split
  · next hrun =>
      refine Or.inr ⟨_, List.mem_cons_self, take_of_longestZeroRun hrun, rfl⟩
  · next hrun =>
      split
      · next hsix =>
          refine Or.inr ⟨_, List.mem_cons_of_mem _ List.mem_cons_self, ?_, rfl⟩
          rw [List.take_add_one, take_of_longestZeroRun hrun, hsix]
          rfl
      · exact Or.inl rfl
  · exact Or.inl rfl

/-- What is shown before the dotted bytes ends where they begin. -/
theorem takeWhile_form {form : List UInt16 × Bytes} (hform : form ∈ dottedForms) (tail : Bytes) :
    (form.2 ++ dottedQuad tail).takeWhile (fun b => b = 58 ∨ b = 102) = form.2 := by
  have hform : ∀ b ∈ form.2, decide (b = 58 ∨ b = 102) = true := by
    have hall : ∀ form ∈ dottedForms, ∀ b ∈ form.2, decide (b = 58 ∨ b = 102) = true := by
      decide +kernel
    exact hall form hform
  have htail : (dottedQuad tail).takeWhile (fun b => b = 58 ∨ b = 102) = [] := by
    cases hquad : dottedQuad tail with
    | nil => rfl
    | cons b s =>
        have hb : b ∈ dottedQuad tail := hquad ▸ List.mem_cons_self
        refine List.takeWhile_cons_of_neg fun hb' => ?_
        rcases of_decide_eq_true hb' with rfl | rfl
        · exact not_mem_dottedQuad (by decide) rfl hb
        · exact not_mem_dottedQuad (by decide) rfl hb
  rw [List.takeWhile_append_of_pos hform, htail, List.append_nil]

theorem dot_mem_dottedQuad (h : 2 ≤ ip.length) : 46 ∈ dottedQuad ip := by
  obtain ⟨a, ip, rfl⟩ := List.exists_cons_of_length_pos (Nat.lt_of_lt_of_le Nat.zero_lt_two h)
  obtain ⟨b, ip, rfl⟩ := List.exists_cons_of_length_pos (Nat.le_of_succ_le_succ h)
  rw [dottedQuad, List.map_cons, List.map_cons, join, List.append_assoc]
  exact List.mem_append_right _ (List.mem_append_left _ (List.mem_singleton_self _))

/-- No two IPv6 addresses are shown in the same way. -/
theorem ipStr_injective_v6 (h : ip.length = 16) (h' : addr.length = 16)
    (heq : ipStr ip 16 = ipStr addr 16) : ip = addr := by
  have hdot : ∀ {ip : Bytes} {form : List UInt16 × Bytes}, ip.length = 16 →
      46 ∈ form.2 ++ dottedQuad (ip.drop 12) := fun h =>
    List.mem_append_right _ (dot_mem_dottedQuad (by rw [List.length_drop, h]; decide))
  have hnodot : ∀ g, 46 ∉ ipv6Text g := fun _ => not_mem_ipv6Text (by decide) rfl
  refine groups_injective (k := 8) h h' ?_
  rcases ipStr_cases h with htext | ⟨form, hform, hsix, htext⟩
  · rcases ipStr_cases h' with htext' | ⟨form', hform', hsix', htext'⟩
    · rw [htext, htext'] at heq
      exact ipv6Text_injective ((length_groups_addr h).trans (length_groups_addr h').symm) heq
    · rw [htext, htext'] at heq
      exact absurd (heq ▸ hdot h') (hnodot _)
  · rcases ipStr_cases h' with htext' | ⟨form', hform', hsix', htext'⟩
    · rw [htext, htext'] at heq
      exact absurd (heq ▸ hdot h) (hnodot _)
    · rw [htext, htext'] at heq
      have hshown : form.2 = form'.2 := by
        rw [← takeWhile_form hform (ip.drop 12), heq, takeWhile_form hform']
      have hforms : ∀ form ∈ dottedForms, ∀ form' ∈ dottedForms, form.2 = form'.2 →
          form.1 = form'.1 := by decide
      rw [hshown, List.append_cancel_left_eq] at heq
      have htail : ip.drop 12 = addr.drop 12 :=
        dottedQuad_injective (by rw [List.length_drop, List.length_drop, h, h']) heq
      rw [← List.take_append_drop 6 (groups ip), ← List.take_append_drop 6 (groups addr), hsix,
        hsix', hforms form hform form' hform' hshown, drop_groups (k := 8) h,
        drop_groups (k := 8) h', htail]

theorem colon_mem_ipStr (h : ip.length = 16) : 58 ∈ ipStr ip 16 := by
  rcases ipStr_cases h with htext | ⟨form, hform, -, htext⟩
  · rw [htext]
    exact colon_mem_ipv6Text (by rw [length_groups_addr h]; decide)
  · have hall : ∀ form ∈ dottedForms, (58 : UInt8) ∈ form.2 := by decide
    rw [htext]
    exact List.mem_append_left _ (hall form hform)

theorem ipStr_v4 (h : ip.length = 4) : ipStr ip 4 = dottedQuad ip := by
  rw [ipStr, if_pos rfl, List.take_of_length_le h.le]

/-- No two addresses are shown in the same way. -/
theorem ipStr_injective (h : IsAddr ip) (h' : IsAddr addr)
    (heq : ipStr ip ip.length = ipStr addr addr.length) : ip = addr := by
  have hcolon : ∀ {ip : Bytes}, 58 ∉ dottedQuad ip := not_mem_dottedQuad (by decide) rfl
  rcases h with h | h <;> rcases h' with h' | h' <;> rw [h, h'] at heq
  · rw [Nat.cast_ofNat, ipStr_v4 h, ipStr_v4 h'] at heq
    exact dottedQuad_injective (h.trans h'.symm) heq
  · rw [Nat.cast_ofNat, ipStr_v4 h] at heq
    exact absurd (heq ▸ colon_mem_ipStr h') hcolon
  · rw [Nat.cast_ofNat, Nat.cast_ofNat, ipStr_v4 h'] at heq
    exact absurd (heq ▸ colon_mem_ipStr h) hcolon
  · exact ipStr_injective_v6 h h' heq

theorem bar_not_mem_ipStr (h : IsAddr ip) : 124 ∉ ipStr ip ip.length := by
  rcases h with h | h <;> rw [h]
  · rw [Nat.cast_ofNat, ipStr_v4 h]
    exact not_mem_dottedQuad (by decide) rfl
  · rcases ipStr_cases h with htext | ⟨form, hform, -, htext⟩
    · exact htext ▸ not_mem_ipv6Text (by decide) rfl
    · have hall : ∀ form ∈ dottedForms, (124 : UInt8) ∉ form.2 := by decide
      intro hmem
      rcases List.mem_append.mp (htext ▸ hmem) with hmem | hmem
      · exact hall form hform hmem
      · exact not_mem_dottedQuad (by decide) rfl hmem

/-- No more of the array counts than the length says. -/
theorem ipStr_take (h : IsAddr (ip.take k.toNat)) (hk : k = (ip.take k.toNat).length) :
    ipStr ip k = ipStr (ip.take k.toNat) (ip.take k.toNat).length := by
  rw [← hk]
  rcases h with h | h
  · obtain rfl : k = 4 := by rw [hk, h]; rfl
    have htake : (ip.take 4).take 4 = ip.take 4 := by rw [List.take_take, Nat.min_self]
    unfold ipStr
    rw [show Int.toNat 4 = 4 from rfl, htake, if_pos rfl, if_pos rfl]
  · obtain rfl : k = 16 := by rw [hk, h]; rfl
    have htake : (ip.take 16).take 16 = ip.take 16 := by rw [List.take_take, Nat.min_self]
    unfold ipStr
    simp only [show Int.toNat 16 = 16 from rfl, htake, show ¬(16 : Int) = 4 by decide, if_false]

theorem length_ipStr_le (ip : Bytes) (len : Int) : (ipStr ip len).length ≤ 42 := by
  have htail := length_dottedQuad_le ((ip.take 16).drop 12)
  have hquad := length_dottedQuad_le (ip.take 4)
  have hgroups := length_groups_le (ip.take 16)
  have htext := length_ipv6Text_le (groups (ip.take 16))
  simp only [List.length_drop, List.length_take] at htail hquad hgroups
  unfold ipStr
  split
  · omega
  split
  · dsimp only
    split
    · simp only [List.length_append, List.length_cons, List.length_nil]
      omega
    · split
      · simp only [List.length_append, List.length_cons, List.length_nil]
        omega
      · omega
    · omega
  · exact show 1 ≤ 42 by decide

/-- Some payload has the tuple. -/
def Parsed (t : ConnTuple) : Prop :=
  ∃ (mem : Bytes) (p n : Nat) (tupleAttr : UInt16), p + n ≤ mem.length ∧ tupleAttr.toNat < 64
    ∧ (parseTuple mem p n tupleAttr).Returns (some t)

variable {t t' : ConnTuple}

/-- The key of a tuple fits the buffer. -/
theorem key_of_parsed (ht : Parsed t) : ∃ src dst, IsAddr src ∧ IsAddr dst
    ∧ t.toGo = ⟨some src, some dst, t.srcPort, t.dstPort, t.proto⟩
    ∧ tupleKey t 160 = keyText (ipStr src src.length) t.srcPort (ipStr dst dst.length) t.dstPort
        t.proto
    ∧ (tupleKey t 160).length < 159 := by
  obtain ⟨mem, p, n, tupleAttr, hpn, hattr, hret⟩ := ht
  obtain ⟨c, hc, hview, hlens⟩ := parseTuple_returns hpn hattr
  obtain rfl := hc.unique hret
  obtain ⟨hsrcLen, hdstLen⟩ := hlens t rfl
  obtain ⟨src, dst, hsrc, hdst, hs, hd⟩ := addrs_of_tupleOf hview.symm
  obtain rfl := Option.some.inj hsrc
  obtain rfl := Option.some.inj hdst
  have hport : ∀ p : UInt16, (digits 10 p.toNat).length ≤ 5 := fun p =>
    length_digits_le (by decide) (p.toNat_lt.trans (by decide))
  have hproto : (digits 10 t.proto.toNat).length ≤ 3 :=
    length_digits_le (by decide) (t.proto.toNat_lt.trans (by decide))
  have hlen : (keyText (ipStr t.srcIp t.srcLen) t.srcPort (ipStr t.dstIp t.dstLen) t.dstPort
      t.proto).length < 159 := by
    have hsrc := length_ipStr_le t.srcIp t.srcLen
    have hdst := length_ipStr_le t.dstIp t.dstLen
    have hsp := hport t.srcPort
    have hdp := hport t.dstPort
    simp only [keyText, List.length_append, List.length_singleton]
    omega
  have hkey : tupleKey t 160 = keyText (ipStr t.srcIp t.srcLen) t.srcPort
      (ipStr t.dstIp t.dstLen) t.dstPort t.proto := List.take_of_length_le hlen.le
  refine ⟨_, _, hs, hd, rfl, ?_, hkey ▸ hlen⟩
  rw [hkey, ipStr_take hs hsrcLen, ipStr_take hd hdstLen]

theorem tupleKey_injective (ht : Parsed t) (ht' : Parsed t')
    (h : tupleKey t 160 = tupleKey t' 160) : t.toGo = t'.toGo := by
  obtain ⟨src, dst, hs, hd, hview, hkey, -⟩ := key_of_parsed ht
  obtain ⟨src', dst', hs', hd', hview', hkey', -⟩ := key_of_parsed ht'
  rw [hkey, hkey'] at h
  obtain ⟨hsrc, hsp, hdst, hdp, hproto⟩ := keyText_injective (bar_not_mem_ipStr hs)
    (bar_not_mem_ipStr hd) (bar_not_mem_ipStr hs') (bar_not_mem_ipStr hd') h
  rw [hview, hview', ipStr_injective hs hs' hsrc, ipStr_injective hd hd' hdst, hsp, hdp, hproto]

end C

/-! ## Both ports -/

theorem Encoding.parsed {c : Conn} (e : Encoding c) : Go.Parsed c.tuple := by
  refine ⟨e.payload, ctaTupleOrig, ?_⟩
  have hret := Go.parseTuple_returns e.payload ctaTupleOrig
  rwa [tupleOf_lastLook fun _ => e.distinct_of_opened, e.tupleOf_payload] at hret

/-- The connection of `sampleConn`, with mapped addresses. -/
def mappedConn : Conn :=
  ⟨.v6 ⟨[0, 0, 0, 0, 0, 0, 0, 0, 0, 0, 255, 255, 10, 0, 0, 1], rfl⟩
    ⟨[0, 0, 0, 0, 0, 0, 0, 0, 0, 0, 255, 255, 10, 0, 0, 2], rfl⟩, 6, 8080, 80, none⟩

def mappedIPList : List Attr :=
  [⟨ctaIPv6Src, mappedConn.addresses.src, [], rfl, of_decide_eq_true rfl⟩,
    ⟨ctaIPv6Dst, mappedConn.addresses.dst, [], rfl, of_decide_eq_true rfl⟩]

def mappedTupleList : List Attr :=
  ⟨ctaTupleIP, attrBytes mappedIPList, [], rfl, of_decide_eq_true rfl⟩ :: sampleTuple.tail

def mappedTopList : List Attr :=
  [⟨ctaTupleOrig, attrBytes mappedTupleList, [], rfl, of_decide_eq_true rfl⟩]

theorem mappedTupleList_lists : Lists [ctaTupleIP, ctaTupleProto]
    [(ctaTupleIP, attrBytes mappedIPList), (ctaTupleProto, attrBytes sampleProto)] mappedTupleList :=
  ⟨by decide, [], by decide, by decide⟩

theorem mappedTopList_lists :
    Lists [ctaTupleOrig, ctaProtoinfo] [(ctaTupleOrig, attrBytes mappedTupleList)] mappedTopList :=
  ⟨by decide, [], by decide, by decide⟩

def mappedEncoding : Encoding mappedConn where
  ip := mappedIPList
  proto := sampleProto
  tuple := mappedTupleList
  tcp := none
  protoinfo := none
  top := mappedTopList
  ip_lists := ⟨by decide, [], by decide, by decide⟩
  proto_lists := ⟨by decide, [], by decide, by decide⟩
  tuple_lists := mappedTupleList_lists
  tcp_lists := nofun
  protoinfo_lists := nofun
  top_lists := mappedTopList_lists
  state_sent := nofun

/-- Both connections have the key of the one with IPv4 addresses. -/
theorem mapped_key : ¬∀ t t' : Go.ConnTuple, Go.Parsed t → Go.Parsed t' → t.key = t'.key → t = t' := by
  intro h
  have hsame := h _ _ sampleEncoding.parsed mappedEncoding.parsed
    ((Go.key_eq_iff sampleEncoding.parsed mappedEncoding.parsed).mpr rfl)
  cases hsame

/-- In Go two tuples with the same key are the same unless they are so only when nothing is
mapped. In C they always are, and no key is cut. -/
theorem keys_apart_iff (t t' : Go.ConnTuple) (c c' : C.ConnTuple) (ht : Go.Parsed t)
    (ht' : Go.Parsed t') (hc : C.Parsed c) (hc' : C.Parsed c') :
    ((t.key = t'.key → t = t') ↔ ¬(t ≠ t' ∧ t.unmapped = t'.unmapped))
      ∧ (C.tupleKey c 160).length < 159
      ∧ (C.tupleKey c 160 = C.tupleKey c' 160 → c.toGo = c'.toGo) := by
  refine ⟨?_, ?_, C.tupleKey_injective hc hc'⟩
  · rw [Go.key_eq_iff ht ht', not_and', not_not]
  · obtain ⟨-, -, -, -, -, -, hlen⟩ := C.key_of_parsed hc
    exact hlen

theorem keys_apart_sample :
    ∃ c, C.Parsed c ∧ ((C.tupleKey c 160).length < 159
      ∧ ((sampleConn.tuple.key = sampleConn.tuple.key → sampleConn.tuple = sampleConn.tuple)
        ↔ ¬(sampleConn.tuple ≠ sampleConn.tuple
          ∧ sampleConn.tuple.unmapped = sampleConn.tuple.unmapped))) := by
  have hattr : ctaTupleOrig.toNat < 64 := by decide
  have hin : 0 + sampleEncoding.payload.length ≤ sampleEncoding.payload.length :=
    (Nat.zero_add _).le
  obtain ⟨c, hc, hview, -⟩ := C.parseTuple_returns hin hattr
  rw [List.drop_zero, List.take_length, sampleEncoding.tupleOf_payload] at hview
  obtain ⟨t, rfl, -⟩ := Option.map_eq_some_iff.mp hview
  have hparsed : C.Parsed t := ⟨_, _, _, _, hin, hattr, hc⟩
  have hkeys := keys_apart_iff _ _ t t sampleEncoding.parsed sampleEncoding.parsed hparsed hparsed
  exact ⟨t, hparsed, hkeys.2.1, hkeys.1⟩

end Tracep.Nettrace
