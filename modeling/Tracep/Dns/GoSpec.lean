import Tracep.Dns.ReadName

/-!
# What the Go parser does with a layout

One lemma for each function of the Go parser and each thing it can find:
a question or record that is there is consumed (`parseQuestions_question`,
`parseAnswers_record`), a name that loops hangs the call, anything else
ends the section. RDATA is read by `addAnswers`, whose name-carrying
branches all read at the offset `rdataOff` (`addAnswers_name`).
-/

namespace Tracep.Dns

open Exec

/-- A position holds a looping name, a record, or neither. -/
theorem record_cases (d : Bytes) (p : Nat) :
    Looping d p ∨ (∃ r, RecordAt d p r) ∨ (¬Looping d p ∧ ∀ r, ¬RecordAt d p r) := by
  by_cases hloop : Looping d p
  · exact Or.inl hloop
  · by_cases hrec : ∃ r, RecordAt d p r
    · exact Or.inr (Or.inl hrec)
    · exact Or.inr (Or.inr ⟨hloop, not_exists.mp hrec⟩)

/-- A position holds a looping name, a question, or neither. -/
theorem question_cases (d : Bytes) (p : Nat) :
    Looping d p ∨ (∃ q stop, QuestionAt d p q stop)
      ∨ (¬Looping d p ∧ ∀ q stop, ¬QuestionAt d p q stop) := by
  by_cases hloop : Looping d p
  · exact Or.inl hloop
  · by_cases hq : ∃ q stop, QuestionAt d p q stop
    · exact Or.inr (Or.inl hq)
    · exact Or.inr (Or.inr ⟨hloop, fun q stop h => hq ⟨q, stop, h⟩⟩)

namespace Go

/-- How the Go port shows values: texts as they are. -/
def rendering : Rendering := ⟨ipText, id⟩

/-- Append a list of answer values. -/
def DnsMsg.addAll (msg : DnsMsg) (vs : List Bytes) : DnsMsg :=
  { msg with answers := msg.answers ++ vs }

@[simp] theorem DnsMsg.addAll_nil (msg : DnsMsg) : msg.addAll [] = msg := by
  simp [DnsMsg.addAll]

@[simp] theorem DnsMsg.addAll_addAll (msg : DnsMsg) (vs ws : List Bytes) :
    (msg.addAll vs).addAll ws = msg.addAll (vs ++ ws) := by
  simp [DnsMsg.addAll]

theorem DnsMsg.append_eq (msg : DnsMsg) (v : Bytes) : msg.append v = msg.addAll [v] := rfl

theorem DnsMsg.foldl_append (vs : List Bytes) :
    ∀ msg : DnsMsg, vs.foldl DnsMsg.append msg = msg.addAll vs := by
  induction vs with
  | nil => simp
  | cons v vs ih =>
      intro msg
      rw [List.foldl_cons, ih, DnsMsg.append_eq, DnsMsg.addAll_addAll]
      rfl

/-! ## RDATA -/

theorem parseTXTStep_eq (data : Bytes) (out : List Bytes) :
    parseTXTStep (data, out) = pure (match charString data with
      | none => .inr out
      | some (t, rest) => .inl (rest, out ++ [t])) := by
  cases data with
  | nil => rfl
  | cons l rest =>
      have h0 := index_eq (d := l :: rest) (n := 0) (b := l) rfl
      have hslice := slice_eq (d := l :: rest) (i := 1) (j := ((l :: rest).length : Int)) 1
        rest.length rfl (by rw [List.length_cons]; push_cast; omega)
        (by rw [List.length_cons]; omega)
      rw [List.drop_one, List.tail_cons, List.take_length] at hslice
      simp only [Nat.cast_zero] at h0
      rw [parseTXTStep]
      simp only [List.length_cons, Nat.succ_pos, ↓reduceIte, h0, pure_bind, charString] at hslice ⊢
      simp only [hslice, pure_bind]
      by_cases hle : l.toNat ≤ rest.length
      · have htake := slice_eq (d := rest) (i := 0) (j := (l.toNat : Int)) 0 l.toNat rfl
          (by omega) (by omega)
        have hdrop := slice_eq (d := rest) (i := (l.toNat : Int)) (j := (rest.length : Int))
          l.toNat (rest.length - l.toNat) rfl (by omega) (by omega)
        rw [if_neg (Nat.not_lt.mpr hle), if_pos hle, htake, hdrop]
        simp only [pure_bind, List.drop_zero]
        rw [List.take_of_length_le (by rw [List.length_drop])]
      · rw [if_pos (Nat.not_le.mp hle), if_neg hle]

/-- The TXT loop yields the character-strings. -/
theorem parseTXT_returns (rdata : Bytes) : (parseTXT rdata).Returns (charStrings rdata) := by
  refine charStringFraming.loop_collect (fun data out h => ?_) (fun data out t rest h => ?_) rdata
  · rw [parseTXTStep_eq, show charString data = none from h]
  · rw [parseTXTStep_eq, show charString data = some (t, rest) from h]

section AppendName

variable {data label : Bytes} {p : Nat} {msg : DnsMsg}

theorem appendName_of_nameAt {L : List Bytes} (hL : NameAt data p L) :
    (appendName data p label msg).Returns (msg.addAll [label ++ dotted L]) := by
  obtain ⟨n, hn⟩ := hL.fieldEnd
  rw [appendName, (readName_returns_some.mpr ⟨L, n, hL, hn, rfl⟩).bind_iff]
  exact returns_pure.mpr rfl

theorem appendName_of_broken (hres : ¬Resolves data p) (hloop : ¬Looping data p) :
    (appendName data p label msg).Returns msg := by
  rw [appendName, (readName_returns_none.mpr ⟨hres, hloop⟩).bind_iff]
  exact returns_pure.mpr rfl

theorem appendName_hangs (hloop : Looping data p) :
    (appendName data p label msg).Hangs :=
  (readName_hangs_iff.mpr hloop).bind _

theorem appendName_faults {off : Int} (h : off < 0) :
    (appendName data off label msg).Faults :=
  (readName_faults_of_neg h).bind _

end AppendName

/-- Every branch that reads a name reads it at `rdataOff`, past what comes first. -/
theorem addAnswers_name {rtype : UInt16} {rdlen k : Nat} (h : nameSkip rtype rdlen = some k)
    (data rdata : Bytes) (rdataOff : Int) (msg : DnsMsg) :
    addAnswers data rtype rdata rdlen rdataOff msg
      = appendName data (rdataOff + k) (namePrefix rtype) msg := by
  rcases nameSkip_eq_some h with ⟨rfl | rfl | rfl, rfl⟩ | ⟨rfl, hlt, rfl⟩ | ⟨rfl, hlt, rfl⟩ <;>
    simp [addAnswers, namePrefix, *]

theorem addAnswers_plain {rtype : UInt16} {rdlen : Nat} (h : nameSkip rtype rdlen = none)
    (data rdata : Bytes) (rdataOff : Int) (msg : DnsMsg) :
    (addAnswers data rtype rdata rdlen rdataOff msg).Returns
      (msg.addAll (plainValues rendering rtype rdata)) := by
  by_cases h1 : rtype = 1
  · subst h1
    by_cases hlen : rdata.length = 4 <;>
      simp [addAnswers, plainValues, hlen, DnsMsg.append_eq, rendering]
  by_cases h28 : rtype = 28
  · subst h28
    by_cases hlen : rdata.length = 16 <;>
      simp [addAnswers, plainValues, hlen, DnsMsg.append_eq, rendering]
  by_cases h16 : rtype = 16
  · subst h16
    simp only [addAnswers, plainValues, rendering, List.map_id, show (16 : UInt16) ≠ 1 by decide,
      show (16 : UInt16) ≠ 28 by decide, show (16 : UInt16) ≠ 5 by decide,
      show (16 : UInt16) ≠ 15 by decide, ↓reduceIte]
    rw [(parseTXT_returns rdata).bind_iff, DnsMsg.foldl_append]
    exact returns_pure.mpr rfl
  have hvals : plainValues rendering rtype rdata = [] := by simp [plainValues, h1, h28, h16]
  rw [hvals, DnsMsg.addAll_nil]
  obtain ⟨⟨h5, h12, h2⟩, h15, h33⟩ := nameSkip_eq_none h
  by_cases hmx : rtype = 15
  · simp [addAnswers, h15 hmx, hmx]
  by_cases hsrv : rtype = 33
  · simp [addAnswers, h33 hsrv, hsrv]
  simp [addAnswers, *]

/-! ## The answer loop -/

section Answers

variable {data : Bytes} {p : Nat} {msg : DnsMsg}

/-- A record that is there is handed to `addAnswers`, at the offset `RDLENGTH` before
its RDATA. -/
theorem parseAnswers_record {r : Record} (h : RecordAt data p r) (n : Nat) :
    Same (parseAnswers data (n + 1) p msg)
      (addAnswers data r.rtype (r.rdata data) r.rdlen ((r.rdoff : Int) - r.rdlen) msg
        >>= fun msg => parseAnswers data n r.stop msg) := by
  obtain ⟨L, e, hL, he, rfl, hstop⟩ := h
  simp only [Record.stop] at hstop
  rw [parseAnswers]
  refine ((readName_returns_some.mpr ⟨L, e, hL, he, rfl⟩).same_bind _).trans ?_
  simp only
  rw [if_neg (by omega), uint16_slice e rfl rfl (by omega),
    uint16_slice (e + 8) (by push_cast; omega) rfl (by omega), if_neg (by omega),
    slice_eq (e + 10) (word data (e + 8)).toNat (by push_cast; omega) rfl (by omega), pure_bind]
  have hoff : (e : Int) + 8 + 2 = ((e + 10 : Nat) : Int) := by push_cast; omega
  simp only [hoff, Record.rdata, Record.stop]
  have hnext : ((e + 10 : Nat) : Int) + (word data (e + 8)).toNat
      = ((e + 10 + (word data (e + 8)).toNat : Nat) : Int) := rfl
  rw [hnext]
  exact Same.refl _

/-- Without a record the section ends. -/
theorem parseAnswers_stop (hloop : ¬Looping data p) (h : ∀ r, ¬RecordAt data p r) (n : Nat) :
    (parseAnswers data (n + 1) p msg).Returns msg := by
  rw [parseAnswers]
  by_cases hres : Resolves data p
  · obtain ⟨L, hL⟩ := hres
    obtain ⟨e, he⟩ := hL.fieldEnd
    rw [(readName_returns_some.mpr ⟨L, e, hL, he, rfl⟩).bind_iff]
    simp only
    by_cases hfix : e + 10 ≤ data.length
    · rw [if_neg (by omega), uint16_slice e rfl rfl (by omega),
        uint16_slice (e + 8) (by push_cast; omega) rfl (by omega)]
      by_cases hrd : e + 10 + (word data (e + 8)).toNat ≤ data.length
      · exact absurd ⟨L, e, hL, he, rfl, hrd⟩ (h _)
      · rw [if_pos (by omega)]
        exact returns_pure.mpr rfl
    · rw [if_pos (by omega)]
      exact returns_pure.mpr rfl
  · rw [(readName_returns_none.mpr ⟨hres, hloop⟩).bind_iff]
    exact returns_pure.mpr rfl

theorem parseAnswers_hangs (hloop : Looping data p) (n : Nat) :
    (parseAnswers data (n + 1) p msg).Hangs := by
  rw [parseAnswers]
  exact (readName_hangs_iff.mpr hloop).bind _

end Answers

/-! ## The question loop -/

section Questions

variable {data : Bytes} {p i : Nat} {msg : DnsMsg}

/-- The first question is kept. -/
def DnsMsg.ask (msg : DnsMsg) (i : Nat) (q : List Bytes × UInt16) : DnsMsg :=
  if i = 0 then { msg with question := dotted q.1, qtype := q.2 } else msg

theorem parseQuestions_question {q : List Bytes × UInt16} {stop : Nat}
    (h : QuestionAt data p q stop) (n : Nat) :
    Same (parseQuestions data (n + 1) i p msg)
      (parseQuestions data n (i + 1) stop (msg.ask i q)) := by
  obtain ⟨L, t⟩ := q
  obtain ⟨e, hL, he, ht, rfl, hle⟩ := h
  simp only at ht hL
  rw [parseQuestions]
  refine ((readName_returns_some.mpr ⟨L, e, hL, he, rfl⟩).same_bind _).trans ?_
  simp only
  rw [if_neg (by omega), uint16_slice e rfl rfl (by omega), DnsMsg.ask, ht]
  push_cast
  exact Same.refl _

theorem parseQuestions_stop (hloop : ¬Looping data p)
    (h : ∀ q stop, ¬QuestionAt data p q stop) (n : Nat) :
    (parseQuestions data (n + 1) i p msg).Returns none := by
  rw [parseQuestions]
  by_cases hres : Resolves data p
  · obtain ⟨L, hL⟩ := hres
    obtain ⟨e, he⟩ := hL.fieldEnd
    rw [(readName_returns_some.mpr ⟨L, e, hL, he, rfl⟩).bind_iff]
    simp only
    by_cases hle : e + 4 ≤ data.length
    · exact absurd ⟨e, hL, he, rfl, rfl, hle⟩ (h (L, word data e) (e + 4))
    · rw [if_pos (by omega)]
      exact returns_pure.mpr rfl
  · rw [(readName_returns_none.mpr ⟨hres, hloop⟩).bind_iff]
    exact returns_pure.mpr rfl

theorem parseQuestions_hangs (hloop : Looping data p) (n : Nat) :
    (parseQuestions data (n + 1) i p msg).Hangs := by
  rw [parseQuestions]
  exact (readName_hangs_iff.mpr hloop).bind _

end Questions

/-! ## Whole calls -/

theorem parseDNS_short {data : Bytes} (h : data.length < 12) :
    parseDNS data = pure none := by
  rw [parseDNS, if_pos h]

/-- The header read, a call is its two loops. -/
theorem parseDNS_eq {data : Bytes} (h : 12 ≤ data.length) :
    parseDNS data
      = parseQuestions data (word data 4).toNat 0 12 ⟨word data 0, word data 2, [], 0, []⟩
        >>= fun
          | none => pure none
          | some (off, msg) =>
              parseAnswers data (word data 6).toNat off msg >>= fun m => pure (some m) := by
  rw [parseDNS, if_neg (by omega), uint16_slice (i := 0) (j := 2) 0 rfl rfl (by omega),
    uint16_slice (i := 2) (j := 4) 2 rfl rfl (by omega),
    uint16_slice (i := 4) (j := 6) 4 rfl rfl (by omega)]
  exact uint16_slice (i := 6) (j := 8) 6 rfl rfl (by omega) _

end Go

end Tracep.Dns
