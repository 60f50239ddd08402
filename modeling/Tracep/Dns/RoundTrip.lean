import Tracep.Dns.Encapsulation
import Tracep.Dns.Encode

/-!
# Decoding what was encoded

What the two message parsers make of the bytes of a well-formed message.
The C parser returns its header, first question and values, the latter up
to `maxAns` (`C.parseDns_encode`). The Go parser looks for the names inside
RDATA `RDLENGTH` bytes too early, so it returns the message's values exactly
when each such name happens to be spelled there as well
(`Go.parseDNS_encode_iff`).
-/

namespace Tracep.Dns

open Exec Wire

/-- A response for `a`, an alias of `b`; the record's name is a pointer to the question. -/
def aliasReply : Message where
  id := 7
  flags := 0x8180
  nscount := 0
  arcount := 0
  questions := [⟨⟨[⟨[97], by decide⟩], none⟩, 1, 1⟩]
  answers := [⟨⟨[], some (12, [[97]])⟩, 1, (0, 60), .cname ⟨[⟨[98], by decide⟩], none⟩⟩]
  rest := []
  qdcount := by decide
  ancount := by decide
  rdlength := by decide
  pointers := by
    intro n hn t rest ht
    simp only [Content.names, Answer.names, Rdata.name, List.map_cons, List.map_nil,
      List.flatMap_cons, List.flatMap_nil, Option.toList_some, List.append_nil,
      List.cons_append, List.nil_append, List.mem_cons, List.not_mem_nil, or_false] at hn
    rcases hn with rfl | rfl | rfl
    · cases ht
    · cases ht
      exact .label (t := [97]) (by decide) (.root (by decide))
    · cases ht

/-! ## The C port -/

namespace C

/-- What `parse_dns` is to make of a message; addresses are shown by `inet_ntop`. -/
def view (ntop : InetNtop) (m : Message) : DnsMsg where
  id := m.id
  flags := m.flags
  qtype := (m.questions.head?.map (·.qtype)).getD 0
  question := (m.questions.head?.map fun q => dotted q.name.spelled).getD []
  answers := (m.answers.flatMap (·.data.values ⟨ntop.text, id⟩)).take maxAns
  ans_le := by rw [List.length_take]; omega

/-- A text the C buffers show unchanged. -/
def Shown (s : Bytes) : Prop := s.length ≤ 255 ∧ 0 ∉ s

theorem Shown.text_eq (ntop : InetNtop) {s : Bytes} (h : Shown s) :
    (rendering ntop).text s = s := by
  rw [rendering]
  simp only
  rw [List.take_of_length_le h.1, cstr_of_noNul h.2]

theorem snprintf_of_lt {s : Bytes} (h : s.length < 300) : snprintf 300 s = s :=
  List.take_of_length_le (by omega)

/-- Values that fit are shown as they are. -/
theorem values_shown (ntop : InetNtop) {data : Rdata}
    (hname : ∀ n ∈ data.name, Shown (dotted n.spelled))
    (htxt : ∀ strings, data = .txt strings → ∀ s ∈ strings, 0 ∉ s.1) :
    (data.values (rendering ntop)).map (snprintf 300) = data.values ⟨ntop.text, id⟩ := by
  -- a name after one of the prefixes
  have htext : ∀ (n : Name) (pre : Bytes), data.name = some n → pre.length ≤ 6 →
      snprintf 300 (pre ++ (rendering ntop).text (dotted n.spelled))
        = pre ++ dotted n.spelled := by
    intro n pre hn hpre
    have hs := hname n hn
    rw [hs.text_eq, snprintf_of_lt]
    have := hs.1
    rw [List.length_append]
    omega
  have haddr : ∀ ip, snprintf 300 (ntop.text ip) = ntop.text ip := fun ip =>
    snprintf_of_lt (Nat.lt_trans (ntop.fits ip) (by decide))
  cases data with
  | a ip => exact congrArg (fun v => [v]) (haddr _)
  | aaaa ip => exact congrArg (fun v => [v]) (haddr _)
  | cname n => exact congrArg (fun v => [v]) (htext n _ rfl (by decide))
  | ns n => exact congrArg (fun v => [v]) (htext n _ rfl (by decide))
  | ptr n => exact congrArg (fun v => [v]) (htext n [] rfl (by decide))
  | mx _ n => exact congrArg (fun v => [v]) (htext n _ rfl (by decide))
  | srv _ _ _ n => exact congrArg (fun v => [v]) (htext n _ rfl (by decide))
  | txt strings =>
      simp only [Rdata.values, List.map_map]
      refine List.map_congr_left fun s hs => ?_
      have hshown : Shown s.1 := ⟨Nat.le_of_lt_succ s.2, htxt strings rfl s hs⟩
      simp only [Function.comp_apply, hshown.text_eq]
      exact snprintf_of_lt (Nat.lt_trans s.2 (by decide))
  | other t data => rfl

/-- The message as it stands when the questions are read. -/
theorem asked_view (ntop : InetNtop) (stack : Stack) (m : Message)
    (hshown : ∀ q ∈ m.questions, Shown (dotted q.name.spelled)) :
    let start := (questionLoop stack.name m.encode).asked (DnsMsg.start m.encode) m.asked
    start.id = m.id ∧ start.flags = m.flags ∧ start.qtype = (view ntop m).qtype
      ∧ start.question = (view ntop m).question ∧ start.answers = [] := by
  obtain ⟨hid, hflags, -, -⟩ := m.words
  rw [view, Message.asked]
  cases hqs : m.questions with
  | nil => exact ⟨hid, hflags, rfl, rfl, rfl⟩
  | cons q qs =>
      have htext := (hshown q (by rw [hqs]; exact List.mem_cons_self ..)).text_eq ntop
      exact ⟨hid, hflags, rfl, htext, rfl⟩

/-- `parse_dns` decodes the bytes of a message: the header, the first question and the
first `maxAns` values. -/
theorem parseDns_encode (ntop : InetNtop) (stack : Stack) (m : Message)
    (hnames : ∀ n ∈ m.names, (dotted n.spelled).length ≤ 255 ∧ 0 ∉ dotted n.spelled)
    (htxt : ∀ a ∈ m.answers, ∀ strings, a.data = .txt strings → ∀ s ∈ strings, 0 ∉ s.1) :
    (parseDns ntop stack m.encode).Returns (some (view ntop m)) := by
  let start := (questionLoop stack.name m.encode).asked (DnsMsg.start m.encode) m.asked
  let vs := m.answers.flatMap (·.data.values (rendering ntop))
  have hvalues : vs.map (snprintf 300) = m.answers.flatMap (·.data.values ⟨ntop.text, id⟩) := by
    rw [List.map_flatMap]
    refine List.flatMap_congr fun a ha => values_shown ntop (fun n hn => ?_) (htxt a ha)
    refine hnames n (List.mem_append_right _ (List.mem_flatMap.mpr ⟨a, ha, ?_⟩))
    exact List.mem_cons_of_mem _ (Option.mem_toList.mpr hn)
  obtain ⟨hid, hflags, hqtype, hquestion, hnone⟩ := asked_view ntop stack m fun q hq =>
    hnames _ (List.mem_append_left _ (List.mem_map_of_mem hq))
  obtain ⟨hid', hflags', hqtype', hquestion'⟩ := addAll_header vs start
  have hanswers := addAll_answers vs start
  have hnone : start.answers = [] := hnone
  rw [hvalues, hnone, List.nil_append] at hanswers
  have hview : start.addAll vs = view ntop m := by
    ext1
    · exact hid'.trans hid
    · exact hflags'.trans hflags
    · exact hqtype'.trans hqtype
    · exact hquestion'.trans hquestion
    · exact hanswers
  rw [← hview]
  exact parseDns_whole ntop stack m.whole (m.allValues (rendering ntop))

theorem parseDns_encode_aliasReply :
    (∀ n ∈ aliasReply.names, (dotted n.spelled).length ≤ 255 ∧ 0 ∉ dotted n.spelled)
      ∧ (parseDns .standard .zeroed aliasReply.encode).Returns
        (some (view .standard aliasReply)) :=
  have hnames : ∀ n ∈ aliasReply.names,
      (dotted n.spelled).length ≤ 255 ∧ 0 ∉ dotted n.spelled := by decide
  ⟨hnames, parseDns_encode .standard .zeroed aliasReply hnames (by
    rintro a ha strings hdata
    obtain rfl := List.mem_singleton.mp ha
    cases hdata)⟩

end C

/-! ## The Go port -/

namespace Go

/-- What `parseDNS` is to make of a message. -/
def view (m : Message) : DnsMsg where
  id := m.id
  flags := m.flags
  question := (m.questions.head?.map fun q => dotted q.name.spelled).getD []
  qtype := (m.questions.head?.map (·.qtype)).getD 0
  answers := m.answers.flatMap (·.data.values rendering)

/-- The name `k` bytes into the RDATA of `r` is also spelled, with the same text,
`RDLENGTH` bytes before. -/
def SpelledBefore (data : Bytes) (r : Record) (k : Nat) : Prop :=
  r.rdlen ≤ r.rdoff + k ∧ ∃ L L', NameAt data (r.rdoff + k) L
    ∧ NameAt data (r.rdoff + k - r.rdlen) L' ∧ dotted L' = dotted L

theorem nameOff_eq_some {r : Record} {k : Nat} (hk : nameSkip r.rtype r.rdlen = some k) :
    r.nameOff = some (r.rdoff + k) := by
  rw [Record.nameOff, hk]
  rfl

/-- The Go port reads the values of `r` when the name `r` carries is spelled before it. -/
theorem readsAs_of_spelledBefore {data : Bytes} {r : Record} {vs : List Bytes}
    (h : HasValues rendering data r vs)
    (hspelled : ∀ k, nameSkip r.rtype r.rdlen = some k → SpelledBefore data r k) :
    ReadsAs rendering data (nameAt r) r vs := by
  cases hk : nameSkip r.rtype r.rdlen with
  | none =>
      rw [nameAt, hk]
      exact (hasValues_plain (by rw [Record.nameOff, hk]; rfl)).mp h
  | some k =>
      obtain ⟨hle, L, L', hL, hL', heq⟩ := hspelled k hk
      obtain ⟨L₁, hL₁, rfl⟩ := (hasValues_name (nameOff_eq_some hk)).mp h
      obtain rfl := hL.unique hL₁
      rw [nameAt, hk]
      refine ⟨r.rdoff + k - r.rdlen, ?_, .inl ⟨L', hL', ?_⟩⟩
      · simp only
        omega
      · rw [heq]

/-- When the Go port reads the values of `r`, the name `r` carries is spelled before it. -/
theorem spelledBefore_of_readsAs {data : Bytes} {r : Record} {vs : List Bytes} {k : Nat}
    (h : HasValues rendering data r vs) (hreads : ReadsAs rendering data (nameAt r) r vs)
    (hk : nameSkip r.rtype r.rdlen = some k) : SpelledBefore data r k := by
  obtain ⟨L, hL, rfl⟩ := (hasValues_name (nameOff_eq_some hk)).mp h
  rw [nameAt, hk] at hreads
  obtain ⟨p, hp, ⟨L', hL', heq⟩ | ⟨-, -, hnil⟩⟩ := hreads
  · simp only at hp
    obtain rfl : p = r.rdoff + k - r.rdlen := by omega
    refine ⟨by omega, L, L', hL, hL', ?_⟩
    exact (List.append_cancel_left (List.singleton_inj.mp heq)).symm
  · cases hnil

/-- The Go port never reads more values than a record has. -/
theorem readsAs_length_le {data : Bytes} (r : Record) (v w : List Bytes)
    (hv : ReadsAs rendering data (nameAt r) r v) (hw : HasValues rendering data r w) :
    v.length ≤ w.length := by
  cases hk : nameSkip r.rtype r.rdlen with
  | none =>
      rw [nameAt, hk] at hv
      rw [(hasValues_plain (by rw [Record.nameOff, hk]; rfl)).mp hw]
      exact Nat.le_of_eq (congrArg List.length hv)
  | some k =>
      obtain ⟨L, -, rfl⟩ := (hasValues_name (nameOff_eq_some hk)).mp hw
      rw [nameAt, hk] at hv
      obtain ⟨p, -, ⟨L', -, rfl⟩ | ⟨-, -, rfl⟩⟩ := hv <;> simp

theorem addAll_view (m : Message) (vs : List Bytes) :
    ((questionLoop m.encode).asked ⟨word m.encode 0, word m.encode 2, [], 0, []⟩ m.asked).addAll vs
      = { view m with answers := vs } := by
  obtain ⟨hid, hflags, -, -⟩ := m.words
  rw [view, Message.asked, hid, hflags]
  cases m.questions <;> rfl

/-- `parseDNS` decodes the bytes of a message exactly when every name inside RDATA is
spelled `RDLENGTH` bytes before as well. -/
theorem parseDNS_encode_iff (m : Message) :
    (parseDNS m.encode).Returns (some (view m)) ↔
      ∀ r ∈ m.records, ∀ k, nameSkip r.rtype r.rdlen = some k → SpelledBefore m.encode r k := by
  let P := messageParser m.encode
  have hvalues : Yields (HasValues rendering m.encode) m.records (view m).answers :=
    m.allValues rendering
  constructor
  · intro h
    obtain ⟨vs, hvs, heq⟩ := P.whole_of_returns m.whole h
    have heq : view m = { view m with answers := vs } :=
      (Option.some.inj heq).trans (addAll_view m vs)
    obtain ⟨-, hall⟩ := Yields.pointwise readsAs_length_le hvs hvalues
    intro r hr k hk
    obtain ⟨v, hv, hw⟩ := hall (congrArg DnsMsg.answers heq).symm r hr
    exact spelledBefore_of_readsAs hw hv hk
  · intro h
    have hreads : P.answers.Reads m.records (view m).answers :=
      Yields.imp (fun r hr _ hv => readsAs_of_spelledBefore hv (h r hr)) hvalues
    have hret := P.returns_of_whole m.whole hreads
    rwa [show P.answers.addAll (P.questions.asked P.start m.asked) (view m).answers
      = view m from addAll_view m (view m).answers] at hret

/-- The alias is missing from the answers: its name is looked for in the record's TTL. -/
theorem parseDNS_loses_alias :
    ¬∀ m : Message, (parseDNS m.encode).Returns (some (view m)) := by
  intro h
  have hlost : (parseDNS aliasReply.encode).Returns (some ⟨7, 0x8180, [97], 1, []⟩) :=
    ⟨4, by decide⟩
  exact absurd ((h aliasReply).unique hlost) (by decide)

end Go

end Tracep.Dns
